import Ibdb.Storage.Disk
import Ibdb.Storage.Segment

/-! One table: a record log, a sparse index of positions in it, the in-memory index and a
cache of messages. -/
namespace Ibdb.Storage
open Base Log Std

structure Field where
  name : Bytes
  type : Bytes
  isKey : Bool
  deriving DecidableEq

structure LogManifest where
  logName : Bytes
  currentPos : ℕ
  indexName : Bytes
  indexCurrentPos : ℕ
  deriving DecidableEq

structure TableManifest where
  name : Bytes
  logManifest : List LogManifest
  schema : List Field
  currentOffset : ℕ
  currentLogFile : LogManifest
  deriving DecidableEq

/-- `std::map<std::string, std::map<uint64_t, uint32_t>>`: log file, offset, position. -/
abbrev OffsetPosMap := ExtTreeMap Bytes (ExtTreeMap ℕ ℕ compare) compare

structure Table where
  tableManifest : TableManifest
  currentOffset : ℕ
  segmentIndex : Segment
  wf : WritableFileHandle
  logReaderMap : ExtTreeMap Bytes RandomAccessFileHandle compare
  diskCacheThreshold : ℕ
  offsetPosMap : OffsetPosMap
  offsetMessage : ExtTreeMap ℕ Bytes compare

structure TableState where
  fs : FileSystem
  table : Table

abbrev TableM := Exec Fault TableState

/-- `std::vector::at`. -/
def vectorAt {σ α : Type} (xs : List α) (i : ℕ) : Exec Fault σ α :=
  match xs[i]? with
  | some x => pure x
  | none => Exec.throw .outOfRange

/-- `std::string(const char*)` on a terminated buffer that holds `s`. -/
def cString (s : Bytes) : Bytes := s.takeWhile (· ≠ 0)

namespace Table

def modifyTable (f : Table → Table) : TableM Unit :=
  Exec.modify fun s => { s with table := f s.table }

def onWriter {α : Type} (x : Exec Fault WritableFileHandle α) : TableM α :=
  Exec.zoom (·.table.wf) (fun w s => { s with table := { s.table with wf := w } }) x

def onSegment {α : Type} (x : Exec Fault Segment α) : TableM α :=
  Exec.zoom (·.table.segmentIndex)
    (fun seg s => { s with table := { s.table with segmentIndex := seg } }) x

/-- `wf_->Sync()`. -/
def syncWriter (result : Option ℕ) : TableM Status :=
  Exec.zoom (fun s => (s.fs, s.table.wf.fileHandle))
    (fun p s => ⟨p.1, { s.table with wf := { s.table.wf with fileHandle := p.2 } }⟩)
    (UnixWritableFile.sync result)

def logDir (env : Env) (tableName : Bytes) : Bytes :=
  env.dbRoot ++ ascii "/" ++ tableName ++ ascii "/log"

def logName : Bytes := ascii "00000000.log"

def indexName : Bytes := ascii "00000000.index"

def buildKeys : List Field → Exec Fault Segment Unit
  | [] => return
  | field :: rest => do
    if field.isKey then
      let _ ← Segment.buildKeyIndex field.name
      buildKeys rest
    else buildKeys rest

/-- `Table(table_name, schema)`. The directories are made and the file of the manifest is
written; nothing reads that file back. -/
def new (env : Env) (tableName : Bytes) (schema : List Field) : Exec Fault FileSystem Table := do
  let log := logDir env tableName ++ ascii "/" ++ logName
  let logManifest : LogManifest := ⟨logName, 0, indexName, 0⟩
  let (built, segmentIndex) := buildKeys schema Segment.empty
  Exec.lift built
  let wf ← WritableFileHandle.new env log
  return {
    tableManifest := ⟨tableName, [logManifest], schema, 0, logManifest⟩
    currentOffset := 0
    segmentIndex := segmentIndex
    wf := wf
    logReaderMap := ∅
    diskCacheThreshold := 1000
    offsetPosMap := ∅
    offsetMessage := ∅ }

/-- The sparse index entry of one record. `insert` keeps an entry that is there. -/
def recordPos (m : OffsetPosMap) (currentFile : Bytes) (currentOffset currentPos : ℕ) :
    OffsetPosMap :=
  match m[currentFile]? with
  | some offsetPos => m.insert currentFile (offsetPos.insertIfNew currentOffset currentPos)
  | none => m.insertIfNew currentFile ((∅ : ExtTreeMap ℕ ℕ compare).insertIfNew currentOffset currentPos)

def putDisk (env : Env) (io : DiskCalls) (statement : Bytes) : TableM Bool := do
  let t := (← Exec.get).table
  let currentPos := t.wf.currentPos
  let currentOffset := t.currentOffset
  let s ← onWriter (WritableFileHandle.append env io currentOffset statement)
  if !s.isOk then return false else
  let s ← if currentOffset % t.diskCacheThreshold = 0 then syncWriter io.sync else pure .ok
  if !s.isOk then return false else
  let currentFile := t.tableManifest.currentLogFile.logName
  modifyTable fun t => { t with
    offsetPosMap := if currentOffset % env.logIndexSparseThreshold = 0
      then recordPos t.offsetPosMap currentFile currentOffset currentPos else t.offsetPosMap }
  modifyTable fun t => { t with currentOffset := (t.currentOffset + 1) % 2 ^ 64 }
  modifyTable fun t => { t with
    tableManifest := { t.tableManifest with currentOffset := currentOffset } }
  return true

/-- The result of the segment is dropped. -/
def putIndex (key : Bytes) (timestamp : UInt64) (value : Bytes) (offset : ℕ) : TableM Bool := do
  let _ ← onSegment (Segment.put key timestamp value offset)
  return true

/-- The loop of `Put` over the columns, from column `i` on. -/
def putColumns (timestamp : UInt64) (valueResult : List Bytes) (currentOffset : ℕ) :
    ℕ → List Bytes → TableM Bool
  | _, [] => return true
  | i, key :: rest => do
    if (← Exec.get).table.segmentIndex.contains key then
      let value ← vectorAt valueResult i
      if !(← putIndex key timestamp value currentOffset) then return false else
      putColumns timestamp valueResult currentOffset (i + 1) rest
    else putColumns timestamp valueResult currentOffset (i + 1) rest

/-- What `Put` does once the statement is on disk. -/
def indexStatement (env : Env) (result : List Bytes) (currentOffset : ℕ) : TableM Bool := do
  let keyResult := splitString env (← vectorAt result 2) (ascii ",")
  let pos := keyResult.findIdx (· = env.tableTimestamp)
  let valueResult := splitString env (← vectorAt result 3) (ascii ",")
  match env.lexicalCast (← vectorAt valueResult pos) with
  | none => return false
  | some timestamp => putColumns timestamp valueResult currentOffset 0 keyResult

def put (env : Env) (io : DiskCalls) (statement : Bytes) : TableM Bool := do
  let result := splitString env statement (ascii " ")
  let currentOffset := (← Exec.get).table.currentOffset
  if !(← putDisk env io statement) then return false else
  indexStatement env result currentOffset

/-- The inner loop of `FindOffsetPosition`: the last entry not past `offset`, and whether an
entry past it was met. -/
def scanOffsets (offset : ℕ) : List (ℕ × ℕ) → ℕ × ℕ → (ℕ × ℕ) × Bool
  | [], best => (best, false)
  | entry :: rest, best =>
    if entry.1 > offset then (best, true) else scanOffsets offset rest entry

def scanFiles (offset : ℕ) : List (Bytes × ExtTreeMap ℕ ℕ compare) → Bytes → ℕ × ℕ →
    Bytes × ℕ × ℕ
  | [], file, best => (file, best)
  | (file, offsetMap) :: rest, _, best =>
    match scanOffsets offset offsetMap.toList best with
    | (best, true) => (file, best)
    | (best, false) => scanFiles offset rest file best

/-- The file, start offset and position; the result is always `true`. -/
def findOffsetPosition (m : OffsetPosMap) (offset : ℕ) : Bytes × ℕ × ℕ :=
  scanFiles offset m.toList [] (0, 0)

/-- The loop of `FindMessage`, at most `fuel` times round; `none` when that is not enough.
The inner `none` is the result `false`. -/
def scanMessages (env : Env) (content : Bytes) (offset : ℕ) : ℕ → ℕ → ℕ →
    Option (Except Fault (Option Bytes))
  | 0, _, _ => none
  | fuel + 1, startOffset, pos =>
    match RandomAccessFileHandle.getMessageOffset env content pos with
    | .error _ => some (.ok none)
    | .ok messageOffset =>
      if startOffset ≠ messageOffset then some (.error .assertFailed)
      else if offset = messageOffset then
        match RandomAccessFileHandle.getMessage env content pos with
        | .error fault => some (.error fault)
        | .ok (.error _) => some (.ok none)
        | .ok (.ok message) => some (.ok (some message))
      -- the break before any message was read: the empty slice is the result
      else if messageOffset > offset then some (.ok (some []))
      else
        match RandomAccessFileHandle.getMessageSize env content pos with
        | .error _ => some (.ok none)
        | .ok messageSize =>
          scanMessages env content offset fuel (startOffset + 1)
            ((pos + 12 + messageSize) % 2 ^ 32)

/-- The rounds `FindMessage` can take: the offset it looks for grows by one in each. -/
def scanBound (offset startOffset : ℕ) : ℕ := offset - startOffset + 1

/-- Every round that goes on has met the header of `startOffset`, below `offset`; the bound
is reached by none. -/
theorem scanMessages_isSome (env : Env) (content : Bytes) (offset : ℕ) {fuel startOffset : ℕ}
    (h : scanBound offset startOffset ≤ fuel) (pos : ℕ) :
    (scanMessages env content offset fuel startOffset pos).isSome = true := by
  unfold scanBound at h
  induction fuel generalizing startOffset pos with
  | zero => omega
  | succ fuel ih =>
    rw [scanMessages]
    split
    · rfl
    split_ifs with hs ho hb
    · rfl
    · split <;> rfl
    · rfl
    split
    · rfl
    · exact ih (by omega) _

/-- The descriptor of a log file, opened on first use. -/
def reader (env : Env) (logFile : Bytes) : TableM RandomAccessFileHandle := do
  let s ← Exec.get
  match s.table.logReaderMap[logFile]? with
  | some rf => return rf
  | none => do
    let rf ← Exec.lift (RandomAccessFileHandle.new env s.fs logFile)
    modifyTable fun t => { t with logReaderMap := t.logReaderMap.insertIfNew logFile rf }
    return rf

/-- `none` is the result `false`. The message goes through `Slice(const char*, const int)`. -/
def findMessage (env : Env) (offset startOffset pos : ℕ) (file : Bytes) :
    TableM (Option Bytes) := do
  let s ← Exec.get
  let logFile := logDir env s.table.tableManifest.name ++ ascii "/" ++ file
  let rf ← reader env logFile
  let content := rf.content s.fs
  let fuel := scanBound offset startOffset
  let found ← Exec.lift ((scanMessages env content offset fuel startOffset pos).get
    (scanMessages_isSome env content offset le_rfl pos))
  match found with
  | none => return none
  | some message => return some (← Exec.lift (Slice.ofBuffer message message.length))

/-- What `Get` does once the index has given an offset: the cache, else the log. -/
def fetch (env : Env) (offset : ℕ) : TableM (Option Bytes) := do
  let t := (← Exec.get).table
  match t.offsetMessage[offset]? with
  | some message => return some message
  | none => do
    let (file, startOffset, pos) := findOffsetPosition t.offsetPosMap offset
    match ← findMessage env offset startOffset pos file with
    | none => return none
    | some message => do
      modifyTable fun t => { t with
        offsetMessage := t.offsetMessage.insertIfNew offset (cString message) }
      return some (cString message)

/-- `none` is the result `false`, with the message untouched. A timestamp that does not parse
stays 0. -/
def get (env : Env) (statement : Bytes) : TableM (Option Bytes) := do
  let result := splitString env statement (ascii " ")
  let key ← vectorAt result 2
  let value ← vectorAt result 3
  let timestamp := (env.lexicalCast (← vectorAt result 4)).getD 0
  match (← Exec.get).table.segmentIndex.get key timestamp value with
  | none => return none
  | some offset => fetch env offset

def getBatchLoop (env : Env) : ℕ → ℕ → List Bytes → TableM (Bool × List Bytes)
  | 0, _, data => return (true, data)
  | count + 1, i, data => do
    let (file, startPoint, pos) := findOffsetPosition (← Exec.get).table.offsetPosMap i
    match ← findMessage env i startPoint pos file with
    | none => return (false, data)
    | some message => getBatchLoop env count (i + 1) (data ++ [cString message])

/-- The result and the statements appended to `data`. -/
def getBatchData (env : Env) (startOffset endOffset : ℕ) : TableM (Bool × List Bytes) :=
  getBatchLoop env (endOffset - startOffset) startOffset []

def sync (result : Option ℕ) : TableM Bool := do
  return (← syncWriter result).isOk

end Table
end Ibdb.Storage
