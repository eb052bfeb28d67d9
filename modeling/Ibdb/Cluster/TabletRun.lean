import Ibdb.Cluster.Tablet
import Ibdb.Storage.Outcomes

/-! Runs of a tablet: requests, reads of statements, and stdio writing bytes out at any moment. -/
namespace Ibdb.Cluster
open Base Log Storage
open Std (ExtTreeMap)

/-- stdio writes out `k` bytes of the log of a table. -/
def Call.flush (tableName : Bytes) (k : ℕ) (c : Call) : Call :=
  match c.tablet.tableMap[tableName]? with
  | none => c
  | some table => (onTable tableName table (Exec.modify fun s => s.drain k) c).2

inductive TabletOp
  | create (statement : Bytes)
  | put (io : DiskCalls) (statement : Bytes)
  | putResponse (io : DiskCalls) (statement : Bytes)
  | get (statement : Bytes)
  | getStatements (tableName : Bytes) (startOffset endOffset : ℕ)
  | flush (tableName : Bytes) (k : ℕ)

def TabletOp.step (env : Env) : TabletOp → Call → Option Call
  | create statement, c => afterCall (Tablet.create env statement c)
  | put io statement, c => afterCall (Tablet.put env io statement c)
  | putResponse io statement, c => afterCall (Tablet.putResponse env io statement c)
  | get statement, c => afterCall (Tablet.get env statement c)
  | getStatements tableName startOffset endOffset, c =>
    afterCall (Tablet.getStatements env tableName startOffset endOffset c)
  | flush tableName k, c => some (c.flush tableName k)

/-- Each table has its manifest in the other map. -/
def SameTables (c : Call) : Prop :=
  ∀ name : Bytes, name ∈ c.tablet.tableMap ↔ name ∈ c.tablet.tableManifestMap

section Specs
variable {env : Env} {c c' : Call}

theorem mem_of_getElem? {β : Type} {m : ExtTreeMap Bytes β compare} {name : Bytes} {b : β}
    (h : m[name]? = some b) : name ∈ m := by
  rw [ExtTreeMap.mem_iff_isSome_getElem?, h]
  rfl

theorem SameTables.onTable {α : Type} (h : SameTables c) {tableName : Bytes} {table : Table}
    (htable : c.tablet.tableMap[tableName]? = some table) (x : TableM α) :
    SameTables (onTable tableName table x c).2 := by
  intro name
  have hmem := mem_of_getElem? htable
  change name ∈ c.tablet.tableMap.insert tableName _ ↔ name ∈ c.tablet.tableManifestMap
  rw [ExtTreeMap.mem_insert, ← h]
  constructor
  · intro hcase
    rcases hcase with heq | hname
    · obtain rfl := Std.compare_eq_iff_eq.mp heq
      exact hmem
    · exact hname
  · exact .inr

def tableOf (env : Env) (statement : Bytes) (c : Call) : Option (Bytes × Table) := do
  let name ← (splitString env statement (ascii " "))[1]?
  let table ← c.tablet.tableMap[name]?
  return (name, table)

theorem tableOf_eq_some {statement name : Bytes} {table : Table} :
    tableOf env statement c = some (name, table) ↔
      (splitString env statement (ascii " "))[1]? = some name ∧
        c.tablet.tableMap[name]? = some table := by
  simp only [tableOf, Option.bind_eq_bind, Option.bind_eq_some_iff, Option.pure_def,
    Option.some.injEq, Prod.mk.injEq]
  constructor
  · rintro ⟨_, hname, _, htable, rfl, rfl⟩
    exact ⟨hname, htable⟩
  · rintro ⟨hname, htable⟩
    exact ⟨name, hname, table, htable, rfl, rfl⟩

theorem tableOf_eq_none {statement name : Bytes}
    (hname : (splitString env statement (ascii " "))[1]? = some name)
    (h : tableOf env statement c = none) : c.tablet.tableMap[name]? = none := by
  rw [Option.eq_none_iff_forall_ne_some]
  intro table htable
  rw [tableOf_eq_some.mpr ⟨hname, htable⟩] at h
  cases h

/-! What a call does to the tablet: one operation on a table at most. -/

/-- The operation on the table of the name, when there is one, and another response. -/
inductive Ran {α : Type} (name : Option Bytes) (x : TableM α) (c : Call) : Call → Prop
  | missing (response : Response)
      (h : ∀ tableName, name = some tableName → c.tablet.tableMap[tableName]? = none) :
      Ran name x c { c with response := response }
  | ran {tableName : Bytes} {table : Table} (response : Response) (hname : name = some tableName)
      (htable : c.tablet.tableMap[tableName]? = some table) :
      Ran name x c { (onTable tableName table x c).2 with response := response }

/-- Another value for the manifest of the name, and another response, or nothing. -/
inductive Counted (name : Option Bytes) (c : Call) : Call → Prop
  | same : Counted name c c
  | counted {tableName : Bytes} (manifest : TableManifest) (response : Response)
      (hname : name = some tableName) (hmem : tableName ∈ c.tablet.tableManifestMap) :
      Counted name c { c with
        tablet := { c.tablet with
          tableManifestMap := c.tablet.tableManifestMap.insert tableName manifest }
        response := response }

theorem Ran.of_none {α : Type} (x : TableM α) (c : Call) : Ran none x c c :=
  .missing c.response nofun

theorem Ran.of_missing {α : Type} {tableName : Bytes} (x : TableM α)
    (h : c.tablet.tableMap[tableName]? = none) (response : Response) :
    Ran (some tableName) x c { c with response := response } :=
  .missing response fun _ heq => Option.some.inj heq ▸ h

theorem Ran.of_table {α : Type} {tableName : Bytes} {table : Table}
    (htable : c.tablet.tableMap[tableName]? = some table) (x : TableM α) :
    Ran (some tableName) x c (onTable tableName table x c).2 := .ran c.response rfl htable

theorem Ran.withResponse {α : Type} {name : Option Bytes} {x : TableM α} (h : Ran name x c c')
    (response : Response) : Ran name x c { c' with response := response } := by
  cases h with
  | missing _ hnone => exact .missing response hnone
  | ran _ hname htable => exact .ran response hname htable

theorem get_ran (env : Env) (statement : Bytes) (c : Call) :
    Ran (splitString env statement (ascii " "))[1]? (Table.get env statement) c
      (Tablet.get env statement c).2 := by
  cases hname : (splitString env statement (ascii " "))[1]? with
  | none =>
    rw [Tablet.get, Exec.bind_error (vectorAt_of_none hname c)]
    exact .of_none _ c
  | some name =>
    rw [Tablet.get, Exec.bind_ok (vectorAt_of_some hname c), Exec.bind_ok (Exec.get_apply c)]
    cases htable : c.tablet.tableMap[name]? with
    | none => exact .of_missing _ htable _
    | some table =>
      have hran := Ran.of_table htable (Table.get env statement)
      simp only
      rcases hcall : onTable name table (Table.get env statement) c with ⟨fault | message, d⟩ <;>
        rw [hcall] at hran
      · rw [Exec.bind_error hcall]
        exact hran
      · rw [Exec.bind_ok hcall]
        exact hran.withResponse _

theorem getStatements_ran (env : Env) (tableName : Bytes) (startOffset endOffset : ℕ) (c : Call) :
    Ran (some tableName) (Table.getBatchData env startOffset endOffset) c
      (Tablet.getStatements env tableName startOffset endOffset c).2 := by
  rw [Tablet.getStatements, Exec.bind_ok (Exec.get_apply c)]
  cases htable : c.tablet.tableMap[tableName]? with
  | none => exact .of_missing _ htable c.response
  | some table =>
    have hran := Ran.of_table htable (Table.getBatchData env startOffset endOffset)
    simp only
    rcases hcall : onTable tableName table (Table.getBatchData env startOffset endOffset) c with
      ⟨fault | data, d⟩ <;> rw [hcall] at hran
    · rw [Exec.bind_error hcall]
      exact hran
    · rw [Exec.bind_ok hcall]
      exact hran

theorem flush_ran (tableName : Bytes) (k : ℕ) (c : Call) :
    Ran (some tableName) (Exec.modify fun s => s.drain k) c (c.flush tableName k) := by
  unfold Call.flush
  cases htable : c.tablet.tableMap[tableName]? with
  | none => exact .of_missing _ htable c.response
  | some table => exact .of_table htable _

/-- A `Put` counts the statement in the map when its table has returned. -/
theorem putWith_ran (answer : Bytes → RpcCode → Response → Response) (env : Env) (io : DiskCalls)
    (statement : Bytes) (c : Call) :
    ∃ d, Ran (splitString env statement (ascii " "))[1]? (Table.put env io statement) c d ∧
      Counted (splitString env statement (ascii " "))[1]? d
        (Tablet.putWith answer env io statement c).2 := by
  cases hname : (splitString env statement (ascii " "))[1]? with
  | none =>
    rw [Tablet.putWith, Exec.bind_error (vectorAt_of_none hname c)]
    exact ⟨c, .of_none _ c, .same⟩
  | some name =>
    rw [Tablet.putWith, Exec.bind_ok (vectorAt_of_some hname c), Exec.bind_ok (Exec.get_apply c)]
    cases htable : c.tablet.tableMap[name]? with
    | none => exact ⟨_, .of_missing _ htable _, .same⟩
    | some table =>
      refine ⟨_, .of_table htable _, ?_⟩
      simp only
      rcases hcall : onTable name table (Table.put env io statement) c with ⟨fault | b, d⟩
      · rw [Exec.bind_error hcall]
        exact .same
      · rw [Exec.bind_ok hcall, Exec.bind_ok (Exec.get_apply d)]
        cases hmanifest : d.tablet.tableManifestMap[name]? with
        | none => exact .same
        | some manifest => exact .counted _ _ rfl (mem_of_getElem? hmanifest)

theorem SameTables.ran {α : Type} (h : SameTables c) {name : Option Bytes} {x : TableM α}
    (hran : Ran name x c c') : SameTables c' := by
  cases hran with
  | missing => exact h
  | ran _ _ htable => exact h.onTable htable x

theorem SameTables.counted (h : SameTables c) {name : Option Bytes} (hcounted : Counted name c c') :
    SameTables c' := by
  cases hcounted with
  | same => exact h
  | @counted tableName manifest response _ hmem =>
    intro name'
    change name' ∈ c.tablet.tableMap ↔ name' ∈ c.tablet.tableManifestMap.insert tableName manifest
    rw [h, ExtTreeMap.mem_insert]
    constructor
    · exact .inr
    · intro hcase
      rcases hcase with heq | hmem'
      · obtain rfl := Std.compare_eq_iff_eq.mp heq
        exact hmem
      · exact hmem'

theorem SameTables.putWith (h : SameTables c) (answer : Bytes → RpcCode → Response → Response)
    (env : Env) (io : DiskCalls) (statement : Bytes) :
    SameTables (Tablet.putWith answer env io statement c).2 := by
  obtain ⟨d, hran, hcounted⟩ := putWith_ran answer env io statement c
  exact (h.ran hran).counted hcounted

section Put
variable {answer : Bytes → RpcCode → Response → Response} {io : DiskCalls} {statement : Bytes}

theorem putWith_of_missing {name : Bytes}
    (hname : (splitString env statement (ascii " "))[1]? = some name)
    (h : c.tablet.tableMap[name]? = none) :
    Tablet.putWith answer env io statement c = (.ok false,
      { c with response := answer (ascii "table is not exist") .failed c.response }) := by
  rw [Tablet.putWith, Exec.bind_ok (vectorAt_of_some hname c), Exec.bind_ok (Exec.get_apply c)]
  simp only [h]
  rfl

theorem putWith_of_error {name : Bytes} {table : Table} {fault : Fault}
    (h : tableOf env statement c = some (name, table))
    (hput : (Table.put env io statement ⟨c.fs, table⟩).1 = .error fault) :
    Tablet.putWith answer env io statement c =
      (.error fault, (onTable name table (Table.put env io statement) c).2) := by
  obtain ⟨hname, htable⟩ := tableOf_eq_some.mp h
  have hcall : onTable name table (Table.put env io statement) c =
      (.error fault, (onTable name table (Table.put env io statement) c).2) :=
    Prod.ext hput rfl
  rw [Tablet.putWith, Exec.bind_ok (vectorAt_of_some hname c), Exec.bind_ok (Exec.get_apply c)]
  simp only [htable]
  rw [Exec.bind_error hcall]

/-- A `Put` of a table that returns is answered with `true`, whatever the table returned. -/
theorem putWith_of_ok (answer : Bytes → RpcCode → Response → Response) (hsame : SameTables c)
    {name : Bytes} {table : Table} {b : Bool}
    (h : tableOf env statement c = some (name, table))
    (hput : (Table.put env io statement ⟨c.fs, table⟩).1 = .ok b) :
    ∃ c', Tablet.putWith answer env io statement c = (.ok true, c') ∧ SameTables c' ∧
      c'.response = answer (ascii "put ok") .ok c.response := by
  obtain ⟨hname, htable⟩ := tableOf_eq_some.mp h
  have hcall : onTable name table (Table.put env io statement) c =
      (.ok b, (onTable name table (Table.put env io statement) c).2) := Prod.ext hput rfl
  have hnext := hsame.onTable htable (Table.put env io statement)
  rw [Tablet.putWith, Exec.bind_ok (vectorAt_of_some hname c), Exec.bind_ok (Exec.get_apply c)]
  simp only [htable]
  rw [Exec.bind_ok hcall, Exec.bind_ok (Exec.get_apply _)]
  generalize hd : (onTable name table (Table.put env io statement) c).2 = d at hnext
  have hresponse : d.response = c.response := by
    rw [← hd]
    rfl
  have hmem : name ∈ d.tablet.tableManifestMap := by
    rw [← hnext, ← hd]
    exact ExtTreeMap.mem_insert_self
  obtain ⟨manifest, hmanifest⟩ := Option.isSome_iff_exists.mp
    (ExtTreeMap.mem_iff_isSome_getElem?.mp hmem)
  simp only [hmanifest]
  exact ⟨_, rfl, hnext.counted (.counted _ _ rfl hmem), hresponse ▸ rfl⟩

/-- A `Put` of the tablet throws, finds no table, or reports success for whatever its table
returned. -/
theorem putWith_cases (env : Env) (answer : Bytes → RpcCode → Response → Response) (io : DiskCalls)
    (statement : Bytes) (hsame : SameTables c) :
    ∃ result c', Tablet.putWith answer env io statement c = (result, c') ∧ SameTables c' ∧
      ((∃ fault, result = .error fault) ∨
        (tableOf env statement c = none ∧ result = .ok false ∧
          c'.response = answer (ascii "table is not exist") .failed c.response) ∨
        ∃ name table b, tableOf env statement c = some (name, table) ∧
          (Table.put env io statement ⟨c.fs, table⟩).1 = .ok b ∧ result = .ok true ∧
          c'.response = answer (ascii "put ok") .ok c.response) := by
  cases hname : (splitString env statement (ascii " "))[1]? with
  | none =>
    refine ⟨_, _, ?_, hsame, .inl ⟨.outOfRange, rfl⟩⟩
    rw [Tablet.putWith, Exec.bind_error (vectorAt_of_none hname c)]
  | some name =>
    cases htable : tableOf env statement c with
    | none =>
      have hmissing := tableOf_eq_none hname htable
      exact ⟨_, _, putWith_of_missing hname hmissing, hsame, .inr (.inl ⟨rfl, rfl, rfl⟩)⟩
    | some found =>
      obtain ⟨name, table⟩ := found
      cases hput : (Table.put env io statement ⟨c.fs, table⟩).1 with
      | error fault =>
        exact ⟨_, _, putWith_of_error htable hput,
          hsame.onTable (tableOf_eq_some.mp htable).2 _, .inl ⟨fault, rfl⟩⟩
      | ok b =>
        obtain ⟨c', hcall, hnext, hresponse⟩ := putWith_of_ok answer hsame htable hput
        exact ⟨_, c', hcall, hnext, .inr (.inr ⟨name, table, b, rfl, hput, rfl, hresponse⟩)⟩

end Put

/-- A `Get` of the tablet throws, finds no table, or reports success for whatever its table
returned. -/
theorem get_cases (env : Env) (statement : Bytes) (hsame : SameTables c) :
    ∃ result c', Tablet.get env statement c = (result, c') ∧ SameTables c' ∧
      ((∃ fault, result = .error fault) ∨
        (tableOf env statement c = none ∧ result = .ok false ∧
          c'.response = ⟨some .errorNotFound, some (ascii "table is not found")⟩) ∨
        ∃ name table message, tableOf env statement c = some (name, table) ∧
          (Table.get env statement ⟨c.fs, table⟩).1 = .ok message ∧ result = .ok true ∧
          c'.response = ⟨some .ok, some (message.getD [])⟩) := by
  cases hname : (splitString env statement (ascii " "))[1]? with
  | none =>
    refine ⟨_, _, ?_, hsame, .inl ⟨.outOfRange, rfl⟩⟩
    rw [Tablet.get, Exec.bind_error (vectorAt_of_none hname c)]
  | some name =>
    rw [Tablet.get, Exec.bind_ok (vectorAt_of_some hname c), Exec.bind_ok (Exec.get_apply c)]
    cases htable : c.tablet.tableMap[name]? with
    | none =>
      refine ⟨_, _, rfl, hsame, .inr (.inl ⟨?_, rfl, rfl⟩)⟩
      simp [tableOf, hname, htable]
    | some table =>
      have hnext := hsame.onTable htable (Table.get env statement)
      simp only
      rcases hcall : onTable name table (Table.get env statement) c with ⟨fault | message, d⟩ <;>
        rw [hcall] at hnext
      · rw [Exec.bind_error hcall]
        exact ⟨_, _, rfl, hnext, .inl ⟨fault, rfl⟩⟩
      · rw [Exec.bind_ok hcall]
        exact ⟨_, _, rfl, hnext, .inr (.inr ⟨name, table, message,
          tableOf_eq_some.mpr ⟨hname, htable⟩, congrArg Prod.fst hcall, rfl, rfl⟩)⟩

theorem readFields_keeps (env : Env) (keys : List Bytes) :
    Exec.Keeps id (Tablet.readFields env keys) := by
  induction keys with
  | nil => exact .pure id []
  | cons key rest ih =>
    unfold Tablet.readFields
    exact (vectorAt_keeps id _ 0).bind fun _ => (vectorAt_keeps id _ 1).bind fun _ =>
      (vectorAt_keeps id _ 2).bind fun _ => ih.bind fun _ => .pure id _

def Tablet.withTable (tableName : Bytes) (table : Table) (tablet : Tablet) : Tablet :=
  { tablet with
    tabletManifest := { tablet.tabletManifest with
      tableManifest := tablet.tabletManifest.tableManifest ++ [table.tableManifest] }
    tableMap := tablet.tableMap.insertIfNew tableName table
    tableManifestMap := tablet.tableManifestMap.insertIfNew tableName table.tableManifest }

/-- A constructor that throws has opened no file. -/
theorem new_error {tableName : Bytes} {schema : List Field} {fs fs' : FileSystem} {fault : Fault}
    (h : Table.new env tableName schema fs = (.error fault, fs')) : fs' = fs := by
  unfold Table.new at h
  rcases hb : Table.buildKeys schema Segment.empty with ⟨fault' | _, seg⟩ <;> rw [hb] at h
  · exact (congrArg Prod.snd h).symm
  · cases congrArg Prod.fst h

theorem new_ok {tableName : Bytes} {schema : List Field} {fs fs' : FileSystem} {table : Table}
    (h : Table.new env tableName schema fs = (.ok table, fs')) :
    table.wf.fileHandle.path = logPath env tableName ∧ table.wf.fileHandle.buffer = [] ∧
      table.tableManifest.name = tableName ∧ table.tableManifest.currentOffset = 0 ∧
      fs' = fs.append (logPath env tableName) [] := by
  unfold Table.new at h
  rcases hb : Table.buildKeys schema Segment.empty with ⟨fault | _, seg⟩ <;> rw [hb] at h
  · cases congrArg Prod.fst h
  · cases h
    exact ⟨rfl, rfl, rfl, rfl, rfl⟩

theorem new_returns_iff {tableName : Bytes} {schema : List Field} {fs : FileSystem} :
    (∃ table, (Table.new env tableName schema fs).1 = .ok table) ↔
      (Table.buildKeys schema Segment.empty).1 = .ok () := by
  unfold Table.new
  rcases Table.buildKeys schema Segment.empty with ⟨fault | _, seg⟩
  · refine iff_of_false ?_ nofun
    intro ⟨table, htable⟩
    cases htable
  · exact iff_of_true ⟨_, rfl⟩ rfl

/-- Each column has its name, its type and whether it is a key. -/
def HasParts (env : Env) (keys : List Bytes) : Prop :=
  ∀ key ∈ keys, 3 ≤ (splitString env key (ascii ",")).length

def fieldsOf (env : Env) (keys : List Bytes) : List Field :=
  keys.map fun key =>
    let keyInfo := splitString env key (ascii ",")
    ⟨keyInfo[0]?.getD [], keyInfo[1]?.getD [], keyInfo[2]?.getD [] = ascii "true"⟩

theorem readFields_ok {keys : List Bytes} (h : HasParts env keys) (c : Call) :
    Tablet.readFields env keys c = (.ok (fieldsOf env keys), c) := by
  induction keys with
  | nil => rfl
  | cons key rest ih =>
    have hlength := h key List.mem_cons_self
    have hrest := ih fun key' hkey' => h key' (List.mem_cons_of_mem _ hkey')
    have hpart : ∀ i < 3, ∃ part, (splitString env key (ascii ","))[i]? = some part := by
      intro i hi
      exact ⟨_, List.getElem?_eq_getElem (by omega)⟩
    obtain ⟨name, hname⟩ := hpart 0 (by norm_num)
    obtain ⟨type, htype⟩ := hpart 1 (by norm_num)
    obtain ⟨isKey, hkey⟩ := hpart 2 (by norm_num)
    rw [Tablet.readFields, Exec.bind_ok (vectorAt_of_some hname c),
      Exec.bind_ok (vectorAt_of_some htype c), Exec.bind_ok (vectorAt_of_some hkey c),
      Exec.bind_ok hrest]
    simp [fieldsOf, hname, htype, hkey]

theorem readFields_error {keys : List Bytes} (h : ¬ HasParts env keys) (c : Call) :
    Tablet.readFields env keys c = (.error .outOfRange, c) := by
  induction keys with
  | nil => exact absurd (fun key hkey => by cases hkey) h
  | cons key rest ih =>
    rw [Tablet.readFields]
    cases hname : (splitString env key (ascii ","))[0]? with
    | none => rw [Exec.bind_error (vectorAt_of_none hname c)]
    | some name =>
      rw [Exec.bind_ok (vectorAt_of_some hname c)]
      cases htype : (splitString env key (ascii ","))[1]? with
      | none => rw [Exec.bind_error (vectorAt_of_none htype c)]
      | some type =>
        rw [Exec.bind_ok (vectorAt_of_some htype c)]
        cases hkey : (splitString env key (ascii ","))[2]? with
        | none => rw [Exec.bind_error (vectorAt_of_none hkey c)]
        | some isKey =>
          rw [Exec.bind_ok (vectorAt_of_some hkey c)]
          have hlength := (List.getElem?_eq_some_iff.mp hkey).1
          have hrest : ¬ HasParts env rest := by
            intro hrest
            apply h
            intro key' hkey'
            rcases List.mem_cons.mp hkey' with rfl | hkey'
            · exact hlength
            · exact hrest key' hkey'
          rw [Exec.bind_error (ih hrest)]

/-- What a `Create` comes to: it throws or finds the table there, and nothing has changed, or it
makes the table. -/
theorem create_outcome (env : Env) (statement : Bytes) (c : Call) :
    ∃ result c', Tablet.create env statement c = (result, c') ∧
      ((∃ fault, result = .error fault ∧ c' = c) ∨
        ∃ name, (splitString env statement (ascii " "))[1]? = some name ∧
          ((name ∈ c.tablet.tableMap ∧ result = .ok false ∧ c' = c) ∨
            (name ∉ c.tablet.tableMap ∧ result = .ok true ∧ ∃ schema table fs,
              Table.new env name schema c.fs = (.ok table, fs) ∧
              c' = { c with fs := fs, tablet := c.tablet.withTable name table }))) := by
  cases hname : (splitString env statement (ascii " "))[1]? with
  | none =>
    refine ⟨_, _, ?_, .inl ⟨.outOfRange, rfl, rfl⟩⟩
    rw [Tablet.create, Exec.bind_error (vectorAt_of_none hname c)]
  | some name =>
    rw [Tablet.create, Exec.bind_ok (vectorAt_of_some hname c), Exec.bind_ok (Exec.get_apply c)]
    by_cases hmem : c.tablet.tableMap.contains name = true
    · simp only [hmem, if_true]
      exact ⟨_, _, rfl, .inr ⟨name, rfl, .inl ⟨hmem, rfl, rfl⟩⟩⟩
    · simp only [hmem, Bool.false_eq_true, if_false]
      have hkeeps := readFields_keeps env
        ((splitString env statement (ascii " ")).drop 2) c
      rcases hfields : Tablet.readFields env ((splitString env statement (ascii " ")).drop 2) c
        with ⟨fault | schema, d⟩ <;> rw [hfields] at hkeeps <;> obtain rfl : d = c := hkeeps
      · rw [Exec.bind_error hfields]
        exact ⟨_, _, rfl, .inl ⟨fault, rfl, rfl⟩⟩
      · rw [Exec.bind_ok hfields]
        rcases hnew : Table.new env name schema d.fs with ⟨fault | table, fs⟩
        · have hcall : Exec.zoom (·.fs) (fun fs c => { c with fs := fs })
              (Table.new env name schema) d = (.error fault, d) := by
            rw [Exec.zoom_apply, hnew, new_error hnew]
          rw [Exec.bind_error hcall]
          exact ⟨_, _, rfl, .inl ⟨fault, rfl, rfl⟩⟩
        · have hcall : Exec.zoom (·.fs) (fun fs c => { c with fs := fs })
              (Table.new env name schema) d = (.ok table, { d with fs := fs }) := by
            rw [Exec.zoom_apply, hnew]
          rw [Exec.bind_ok hcall]
          exact ⟨_, _, rfl, .inr ⟨name, rfl, .inr ⟨hmem, rfl, schema, table, fs, hnew, rfl⟩⟩⟩

theorem SameTables.withTable (hsame : SameTables c) (fs : FileSystem) (tableName : Bytes)
    (table : Table) :
    SameTables { c with fs := fs, tablet := c.tablet.withTable tableName table } := by
  intro name
  change name ∈ c.tablet.tableMap.insertIfNew tableName table ↔
    name ∈ c.tablet.tableManifestMap.insertIfNew tableName table.tableManifest
  rw [ExtTreeMap.mem_insertIfNew, ExtTreeMap.mem_insertIfNew, hsame]

theorem getElem?_withTable {name name' : Bytes} {table table' : Table}
    (h : (c.tablet.withTable name table).tableMap[name']? = some table') :
    (name' = name ∧ table' = table) ∨ c.tablet.tableMap[name']? = some table' := by
  change (c.tablet.tableMap.insertIfNew name table)[name']? = some table' at h
  rw [ExtTreeMap.getElem?_insertIfNew] at h
  split_ifs at h with hnew
  · exact .inl ⟨(Std.compare_eq_iff_eq.mp hnew.1).symm, (Option.some.inj h).symm⟩
  · exact .inr h

/-- A `Create` throws, finds the table there, or adds it to both maps. -/
theorem create_cases (env : Env) (statement : Bytes) (hsame : SameTables c) :
    ∃ result c', Tablet.create env statement c = (result, c') ∧ SameTables c' ∧
      c'.response = c.response ∧
      ((∃ fault, result = .error fault) ∨
        ∃ name, (splitString env statement (ascii " "))[1]? = some name ∧
          ((name ∈ c.tablet.tableMap ∧ result = .ok false) ∨
            (name ∉ c.tablet.tableMap ∧ result = .ok true ∧ name ∈ c'.tablet.tableMap))) := by
  obtain ⟨result, c', hcall, houtcome⟩ := create_outcome env statement c
  refine ⟨result, c', hcall, ?_⟩
  rcases houtcome with ⟨fault, hr, rfl⟩ | ⟨name, hname, ⟨hmem, hr, rfl⟩ |
    ⟨hmem, hr, schema, table, fs, -, rfl⟩⟩
  · exact ⟨hsame, rfl, .inl ⟨fault, hr⟩⟩
  · exact ⟨hsame, rfl, .inr ⟨name, hname, .inl ⟨hmem, hr⟩⟩⟩
  · exact ⟨hsame.withTable fs name table, rfl,
      .inr ⟨name, hname, .inr ⟨hmem, hr, ExtTreeMap.mem_insertIfNew_self⟩⟩⟩

end Specs

def Reachable (env : Env) (c : Call) : Prop :=
  ∃ endpoint isLeader fs response ops,
    run (TabletOp.step env) ops ⟨fs, Tablet.init endpoint isLeader, response⟩ = some c

theorem SameTables.step {env : Env} {c c' : Call} (hsame : SameTables c) {op : TabletOp}
    (hstep : TabletOp.step env op c = some c') : SameTables c' := by
  cases op with
  | create statement =>
    obtain ⟨result, d, hcall, hnext, -⟩ := create_cases env statement hsame
    rw [TabletOp.step, hcall] at hstep
    rwa [afterCall_eq hstep]
  | put io statement =>
    rw [afterCall_eq hstep]
    exact hsame.putWith _ env io statement
  | putResponse io statement =>
    rw [afterCall_eq hstep]
    exact hsame.putWith _ env io statement
  | get statement =>
    rw [afterCall_eq hstep]
    exact hsame.ran (get_ran env statement c)
  | getStatements tableName startOffset endOffset =>
    rw [afterCall_eq hstep]
    exact hsame.ran (getStatements_ran env tableName startOffset endOffset c)
  | flush tableName k =>
    cases hstep
    exact hsame.ran (flush_ran tableName k c)

theorem Reachable.sameTables {env : Env} {c : Call} (h : Reachable env c) : SameTables c := by
  obtain ⟨endpoint, isLeader, fs, response, ops, hrun⟩ := h
  refine Run.induct (P := fun _ c => SameTables c) ?_ ?_ hrun
  · intro name
    simp [Tablet.init]
  · intro es op t u hsame hstep
    exact hsame.step hstep

end Ibdb.Cluster
