import Ibdb.Storage.Table

/-! The tables of one node, with the answers to the requests for them. -/
namespace Ibdb.Cluster
open Base Log Storage
open Std (ExtTreeMap)

inductive RpcCode
  | ok
  | failed
  | errorCantConnection
  | errorNotFound
  | errorTableDuplicate
  deriving DecidableEq

/-- The responses to `Create`, `Put` and `Get`; both fields are required on the wire. -/
structure Response where
  code : Option RpcCode
  msg : Option Bytes
  deriving DecidableEq

def Response.unset : Response := ⟨none, none⟩

structure TabletManifest where
  tableManifest : List TableManifest
  endpoint : Bytes
  isLeader : Bool
  deriving DecidableEq

structure Tablet where
  endpoint : Bytes
  isLeader : Bool
  tabletManifest : TabletManifest
  tableMap : ExtTreeMap Bytes Table compare
  tableManifestMap : ExtTreeMap Bytes TableManifest compare

/-- The tablet, the file system its tables work on, and the response of the call. -/
structure Call where
  fs : FileSystem
  tablet : Tablet
  response : Response

abbrev TabletM := Exec Fault Call

def setMsg (msg : Bytes) : TabletM Unit :=
  Exec.modify fun c => { c with response := { c.response with msg := some msg } }

def setCode (code : RpcCode) : TabletM Unit :=
  Exec.modify fun c => { c with response := { c.response with code := some code } }

/-- An operation on the table that `table_map_` holds under the name. -/
def onTable {α : Type} (tableName : Bytes) (table : Table) (x : TableM α) : TabletM α :=
  Exec.zoom (fun c => ⟨c.fs, table⟩)
    (fun s c => { c with
      fs := s.fs
      tablet := { c.tablet with tableMap := c.tablet.tableMap.insert tableName s.table } }) x

namespace Tablet

/-- The constructor and the `Init()` that has to follow it. -/
def init (endpoint : Bytes) (isLeader : Bool) : Tablet where
  endpoint := endpoint
  isLeader := isLeader
  tabletManifest := ⟨[], endpoint, isLeader⟩
  tableMap := ∅
  tableManifestMap := ∅

/-- The loop of `Create` over the columns. -/
def readFields (env : Env) : List Bytes → TabletM (List Field)
  | [] => return []
  | key :: rest => do
    let keyInfo := splitString env key (ascii ",")
    let name ← vectorAt keyInfo 0
    let type ← vectorAt keyInfo 1
    let isKey ← vectorAt keyInfo 2
    let fields ← readFields env rest
    return ⟨name, type, isKey = ascii "true"⟩ :: fields

/-- `Create(request)`, and `Create(request, response)`, which leaves the response alone. -/
def create (env : Env) (statement : Bytes) : TabletM Bool := do
  let result := splitString env statement (ascii " ")
  let tableName ← vectorAt result 1
  if (← Exec.get).tablet.tableMap.contains tableName then return false else
  let schema ← readFields env (result.drop 2)
  let table ← Exec.zoom (·.fs) (fun fs c => { c with fs := fs }) (Table.new env tableName schema)
  let manifest := table.tableManifest
  Exec.modify fun c => { c with tablet := { c.tablet with
    tabletManifest := { c.tablet.tabletManifest with
      tableManifest := c.tablet.tabletManifest.tableManifest ++ [manifest] }
    tableMap := c.tablet.tableMap.insertIfNew tableName table
    tableManifestMap := c.tablet.tableManifestMap.insertIfNew tableName manifest } }
  return true

/-- The two `Put`, which differ in what they write to the response. The result of the table is
dropped. -/
def putWith (answer : Bytes → RpcCode → Response → Response) (env : Env) (io : DiskCalls)
    (statement : Bytes) : TabletM Bool := do
  let result := splitString env statement (ascii " ")
  let tableName ← vectorAt result 1
  match (← Exec.get).tablet.tableMap[tableName]? with
  | none => do
    Exec.modify fun c =>
      { c with response := answer (ascii "table is not exist") .failed c.response }
    return false
  | some table => do
    let _ ← onTable tableName table (Table.put env io statement)
    match (← Exec.get).tablet.tableManifestMap[tableName]? with
    | none => return false
    | some manifest => do
      let offset := (manifest.currentOffset + 1) % 2 ^ 64
      Exec.modify fun c => { c with
        tablet := { c.tablet with
          tableManifestMap :=
            c.tablet.tableManifestMap.insert tableName { manifest with currentOffset := offset } }
        response := answer (ascii "put ok") .ok c.response }
      return true

/-- `Put(request)`. -/
def put : Env → DiskCalls → Bytes → TabletM Bool := putWith fun _ _ response => response

/-- `Put(request, response)`. -/
def putResponse : Env → DiskCalls → Bytes → TabletM Bool :=
  putWith fun msg code _ => ⟨some code, some msg⟩

/-- `Get(request, response)`. The result of the table is dropped; a message it did not fill in is
empty. -/
def get (env : Env) (statement : Bytes) : TabletM Bool := do
  let result := splitString env statement (ascii " ")
  let tableName ← vectorAt result 1
  match (← Exec.get).tablet.tableMap[tableName]? with
  | none => do
    setMsg (ascii "table is not found")
    setCode .errorNotFound
    return false
  | some table => do
    let message ← onTable tableName table (Table.get env statement)
    setMsg (message.getD [])
    setCode .ok
    return true

def getStatements (env : Env) (tableName : Bytes) (startOffset endOffset : ℕ) :
    TabletM (List Bytes) := do
  match (← Exec.get).tablet.tableMap[tableName]? with
  | none => return []
  | some table => do
    let (_, data) ← onTable tableName table (Table.getBatchData env startOffset endOffset)
    return data

end Tablet
end Ibdb.Cluster
