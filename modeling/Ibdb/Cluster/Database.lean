import Ibdb.Cluster.Answered
import Ibdb.Cluster.Isolation
import Ibdb.Storage.Answers

/-! What a tablet node is for: named tables, each with its key columns and the statements it was
given. The node answers its requests as this database does. -/
namespace Ibdb.Cluster
open Base Log Storage
open Std (ExtTreeMap)

structure Contents where
  keys : List Bytes
  statements : List Bytes
  deriving DecidableEq

def Contents.isKey (contents : Contents) (column : Bytes) : Bool := decide (column ∈ contents.keys)

abbrev Database := Bytes → Option Contents

namespace Database

def empty : Database := fun _ => none

/-- A table that is there stays as it is. -/
def create (name : Bytes) (keys : List Bytes) (db : Database) : Database :=
  fun n => if n = name then some ((db name).getD ⟨keys, []⟩) else db n

def append (name : Option Bytes) (added : List Bytes) (db : Database) : Database :=
  fun n =>
    if name = some n then
      (db n).map fun contents => { contents with statements := contents.statements ++ added }
    else db n

/-- The answer to a `Get`; nothing when the statement is too short. -/
def get (env : Env) (statement : Bytes) (db : Database) : Option Response := do
  let name ← (splitString env statement (ascii " "))[1]?
  match db name with
  | none => return ⟨some .failed, some (ascii "table is not found")⟩
  | some contents => do
    let (column, timestamp, value) ← query env statement
    let first := answer env contents.isKey contents.statements column timestamp value
    return ⟨some .ok, some ((first.map cString).getD [])⟩

/-- The statements of the offsets, as far as there are any. -/
def batch (name : Bytes) (startOffset endOffset : ℕ) (db : Database) : List Bytes :=
  match db name with
  | none => []
  | some contents =>
    ((contents.statements.drop startOffset).take (endOffset - startOffset)).map cString

/-- The log of each table stays within its bounds. -/
def Bounded (db : Database) : Prop :=
  ∀ name contents, db name = some contents → InBounds contents.statements

theorem append_nil (name : Option Bytes) (db : Database) : db.append name [] = db := by
  funext n
  unfold append
  split_ifs
  · simp
  · rfl

theorem append_of_missing {db : Database} {name : Option Bytes}
    (h : ∀ n, name = some n → db n = none) (added : List Bytes) : db.append name added = db := by
  funext n
  unfold append
  split_ifs with hname
  · rw [h n hname]
    rfl
  · rfl

theorem append_self {db : Database} {name : Bytes} {contents : Contents}
    (h : db name = some contents) (added : List Bytes) :
    db.append (some name) added name = some ⟨contents.keys, contents.statements ++ added⟩ := by
  rw [append, if_pos rfl, h]
  rfl

theorem append_of_ne (db : Database) {name n : Bytes} (h : n ≠ name) (added : List Bytes) :
    db.append (some name) added n = db n := by
  rw [append, if_neg fun heq => h (Option.some.inj heq).symm]

theorem Bounded.of_append {db : Database} {name : Option Bytes} {added : List Bytes}
    (h : (db.append name added).Bounded) : db.Bounded := by
  intro n contents hdb
  by_cases hname : name = some n
  · subst hname
    exact (h n _ (append_self hdb added)).of_append
  · exact h n contents (by rw [append, if_neg hname, hdb])

theorem Bounded.of_create {db : Database} {name : Bytes} {keys : List Bytes}
    (h : (db.create name keys).Bounded) : db.Bounded := by
  intro n contents hdb
  refine h n contents ?_
  unfold create
  split_ifs with hname
  · subst hname
    rw [hdb]
    rfl
  · exact hdb

end Database

/-- The columns of a `Create` have their parts, and the names of the keys make slices. -/
def Declares (env : Env) (statement : Bytes) : Prop :=
  HasParts env ((splitString env statement (ascii " ")).drop 2) ∧
    ∀ key ∈ keyColumns (fieldsOf env ((splitString env statement (ascii " ")).drop 2)),
      key.length % 2 ^ 32 < 2 ^ 31

instance (env : Env) (keys : List Bytes) : Decidable (HasParts env keys) :=
  inferInstanceAs (Decidable (∀ key ∈ keys, _))

instance (env : Env) (statement : Bytes) : Decidable (Declares env statement) :=
  inferInstanceAs (Decidable (_ ∧ _))

namespace TabletOp

def apply (env : Env) (op : TabletOp) (db : Database) : Database :=
  match op with
  | create statement =>
    match (splitString env statement (ascii " "))[1]? with
    | none => db
    | some name =>
      if Declares env statement then
        db.create name (keyColumns (fieldsOf env ((splitString env statement (ascii " ")).drop 2)))
      else db
  | put _ statement | putResponse _ statement =>
    db.append (splitString env statement (ascii " "))[1]? [statement]
  | get _ | getStatements _ _ _ | flush _ _ => db

/-- What the calls, in order, make of an empty database. -/
def database (env : Env) (ops : List TabletOp) : Database :=
  ops.foldl (fun db op => op.apply env db) Database.empty

/-- No call of libc fails, and the names of key columns fit their length field. -/
def Succeeds (env : Env) : TabletOp → Prop
  | create statement =>
    ∀ key ∈ keyColumns (fieldsOf env ((splitString env statement (ascii " ")).drop 2)),
      key.length < 2 ^ 32
  | put io statement | putResponse io statement => Complete io statement ∧ io.sync = none
  | get _ | getStatements _ _ _ | flush _ _ => True

theorem database_concat (env : Env) (ops : List TabletOp) (op : TabletOp) :
    database env (ops ++ [op]) = op.apply env (database env ops) := by
  rw [database, List.foldl_append]
  rfl

theorem apply_eq_none {env : Env} {op : TabletOp} {db : Database} {name : Bytes}
    (hop : ∀ statement, op = .create statement →
      (splitString env statement (ascii " "))[1]? ≠ some name) (h : db name = none) :
    op.apply env db name = none := by
  have happend : ∀ n added, db.append n added name = none := by
    intro n added
    unfold Database.append
    split_ifs
    · rw [h]
      rfl
    · exact h
  cases op with
  | create statement =>
    have hne := hop statement rfl
    simp only [apply]
    cases hname : (splitString env statement (ascii " "))[1]? with
    | none => exact h
    | some name' =>
      have hother : name ≠ name' := by
        intro heq
        subst heq
        exact hne hname
      simp only
      split_ifs
      · rw [Database.create, if_neg hother]
        exact h
      · exact h
  | put io statement => exact happend _ _
  | putResponse io statement => exact happend _ _
  | get statement => exact h
  | getStatements tableName startOffset endOffset => exact h
  | flush tableName k => exact h

/-- A name that no `Create` has is none of the database. -/
theorem database_eq_none {env : Env} {ops : List TabletOp} {name : Bytes}
    (h : ∀ statement, .create statement ∈ ops →
      (splitString env statement (ascii " "))[1]? ≠ some name) :
    database env ops name = none := by
  induction ops using List.reverseRecOn with
  | nil => rfl
  | append_singleton ops op ih =>
    rw [database_concat]
    refine apply_eq_none (fun statement heq => h statement (by simp [heq])) (ih ?_)
    exact fun statement hmem => h statement (List.mem_append_left _ hmem)

theorem bounded_of_apply {env : Env} {op : TabletOp} {db : Database}
    (h : (op.apply env db).Bounded) : db.Bounded := by
  cases op with
  | create statement =>
    simp only [apply] at h
    split at h
    · exact h
    · split_ifs at h
      · exact h.of_create
      · exact h
  | put io statement => exact h.of_append
  | putResponse io statement => exact h.of_append
  | get statement => exact h
  | getStatements name startOffset endOffset => exact h
  | flush name k => exact h

end TabletOp

/-- The node holds the database: a table for each name that has one, with what the database says of
it. The logs that no table of these names has opened are empty. -/
structure Holds (env : Env) (names : List Bytes) (db : Database) (c : Call) : Prop where
  scope : ∀ name, db name ≠ none → name ∈ names
  missing : ∀ name : Bytes, db name = none → c.tablet.tableMap[name]? = none
  tables : ∀ name contents, db name = some contents → ∃ table : Table,
    c.tablet.tableMap[name]? = some table ∧
      TableInv env name contents.isKey contents.statements ⟨c.fs, table⟩
  fresh : ∀ name ∈ names, db name = none → (c.fs (logPath env name)).getD [] = []

section Holds
variable {env : Env} {names : List Bytes} {db : Database} {c c' : Call}

/-- All a table needs of the file system is its own log. -/
theorem tableInv_of_log {tableName : Bytes} {isKey : Bytes → Bool} {ms : List Bytes}
    {fs fs' : FileSystem} {table : Table}
    (h : TableInv env tableName isKey ms ⟨fs, table⟩)
    (hlog : fs' (logPath env tableName) = fs (logPath env tableName)) :
    TableInv env tableName isKey ms ⟨fs', table⟩ := by
  have hcontents : TableState.logContents ⟨fs', table⟩ = TableState.logContents ⟨fs, table⟩ := by
    have hpath : table.wf.fileHandle.path = logPath env tableName := h.log.path
    simp only [TableState.logContents, TableState.flushed, TableState.pending, hpath, hlog]
  refine ⟨{ h.log with opened := ?_, contents := hcontents.trans h.log.contents }, h.index, h.cache⟩
  change (fs' (logPath env tableName)).isSome = true
  rw [hlog]
  exact h.log.opened

/-- The response and the manifests are no part of it. -/
theorem Holds.congr (h : Holds env names db c) (hfs : c'.fs = c.fs)
    (hmap : c'.tablet.tableMap = c.tablet.tableMap) : Holds env names db c' := by
  refine ⟨h.scope, ?_, ?_, ?_⟩
  · intro name hdb
    rw [hmap]
    exact h.missing name hdb
  · intro name contents hdb
    rw [hmap, hfs]
    exact h.tables name contents hdb
  · intro name hmem hdb
    rw [hfs]
    exact h.fresh name hmem hdb

theorem Holds.table_of_some (h : Holds env names db c) {name : Bytes} {table : Table}
    (htable : c.tablet.tableMap[name]? = some table) :
    ∃ contents, db name = some contents ∧
      TableInv env name contents.isKey contents.statements ⟨c.fs, table⟩ := by
  cases hdb : db name with
  | none =>
    rw [h.missing name hdb] at htable
    cases htable
  | some contents =>
    obtain ⟨table', htable', hinv⟩ := h.tables name contents hdb
    cases htable.symm.trans htable'
    exact ⟨contents, rfl, hinv⟩

theorem logPath_ne {name n : Bytes} (hapart : Apart env name n) :
    logPath env n ≠ logPath env name := by
  intro heq
  exact hapart.2 (heq ▸ List.prefix_refl _)

/-- One name's table is another, or new; the other names' tables and logs are as they were. -/
theorem Holds.update (h : Holds env names db c) {name : Bytes} (hmem : name ∈ names)
    {db' : Database} {contents : Contents} {table : Table} (hself : db' name = some contents)
    (htable : c'.tablet.tableMap[name]? = some table)
    (hinv : TableInv env name contents.isKey contents.statements ⟨c'.fs, table⟩)
    (hdb : ∀ n, n ≠ name → db' n = db n)
    (hmap : ∀ n, n ≠ name → c'.tablet.tableMap[n]? = c.tablet.tableMap[n]?)
    (hlogs : ∀ n ∈ names, n ≠ name → c'.fs (logPath env n) = c.fs (logPath env n)) :
    Holds env names db' c' := by
  refine ⟨?_, ?_, ?_, ?_⟩
  · intro n hn
    by_cases hname : n = name
    · exact hname ▸ hmem
    · rw [hdb n hname] at hn
      exact h.scope n hn
  · intro n hn
    by_cases hname : n = name
    · subst hname
      rw [hself] at hn
      cases hn
    · rw [hdb n hname] at hn
      rw [hmap n hname, h.missing n hn]
  · intro n contents' hn
    by_cases hname : n = name
    · subst hname
      cases hself.symm.trans hn
      exact ⟨table, htable, hinv⟩
    · rw [hdb n hname] at hn
      obtain ⟨table', htable', hheld⟩ := h.tables n contents' hn
      have hlog := hlogs n (h.scope n (by simp [hn])) hname
      exact ⟨table', (hmap n hname).trans htable', tableInv_of_log hheld hlog⟩
  · intro n hn hnone
    by_cases hname : n = name
    · subst hname
      rw [hself] at hnone
      cases hnone
    · rw [hdb n hname] at hnone
      rw [hlogs n hn hname]
      exact h.fresh n hn hnone

/-- An operation of one table leaves what the others hold. -/
theorem Holds.atTable (h : Holds env names db c)
    (hapart : ∀ name ∈ names, ∀ n ∈ names, n ≠ name → Apart env name n)
    {name : Bytes} {table : Table} {contents : Contents} (hdb : db name = some contents)
    (htable : c.tablet.tableMap[name]? = some table) {α : Type} {x : TableM α}
    (hx : Exec.Keeps TableState.elsewhere x) {added : List Bytes}
    (hinv : TableInv env name contents.isKey (contents.statements ++ added) (x ⟨c.fs, table⟩).2) :
    Holds env names (db.append (some name) added) (onTable name table x c).2 := by
  have hmem : name ∈ names := h.scope name (by simp [hdb])
  have hwriter : table.wf.fileHandle.path = logPath env name := by
    obtain ⟨table', htable', hheld⟩ := h.tables name contents hdb
    cases htable.symm.trans htable'
    exact hheld.log.path
  obtain ⟨-, hothers⟩ := Prod.mk.inj (hx ⟨c.fs, table⟩)
  refine h.update hmem (Database.append_self hdb added) ExtTreeMap.getElem?_insert_self hinv
    (fun n hne => db.append_of_ne hne added)
    (fun n hne => getElem?_insert_of_ne c.tablet.tableMap name n _ hne) ?_
  intro n hn hne
  have hpath := logPath_ne (hapart name hmem n hn hne)
  have hat := congrFun hothers (logPath env n)
  have hself : (x ⟨c.fs, table⟩).2.table.wf.fileHandle.path = logPath env name := hinv.log.path
  rwa [hself, hwriter, if_neg hpath, if_neg hpath] at hat

/-- One call of a table, if there is one, which keeps its invariant. -/
theorem Holds.ran (h : Holds env names db c)
    (hapart : ∀ name ∈ names, ∀ n ∈ names, n ≠ name → Apart env name n) {name : Option Bytes}
    {α : Type} {x : TableM α} (hx : Exec.Keeps TableState.elsewhere x) {added : List Bytes}
    (hinv : ∀ n contents table, name = some n → db n = some contents →
      TableInv env n contents.isKey contents.statements ⟨c.fs, table⟩ →
      TableInv env n contents.isKey (contents.statements ++ added) (x ⟨c.fs, table⟩).2)
    (hran : Ran name x c c') : Holds env names (db.append name added) c' := by
  cases hran with
  | missing response hnone =>
    have hsame : db.append name added = db := by
      refine Database.append_of_missing (fun n hname => ?_) added
      cases hdb : db n with
      | none => rfl
      | some contents =>
        obtain ⟨table, htable, -⟩ := h.tables n contents hdb
        rw [hnone n hname] at htable
        cases htable
    rw [hsame]
    exact h.congr rfl rfl
  | @ran n table response hname htable =>
    subst hname
    obtain ⟨contents, hdb, hheld⟩ := h.table_of_some htable
    exact (h.atTable hapart hdb htable hx (hinv n contents table rfl hdb hheld)).congr rfl rfl

theorem Holds.ran_read (h : Holds env names db c)
    (hapart : ∀ name ∈ names, ∀ n ∈ names, n ≠ name → Apart env name n) {name : Option Bytes}
    {α : Type} {x : TableM α} (hx : Exec.Keeps TableState.elsewhere x)
    (hinv : ∀ n contents table, db n = some contents →
      TableInv env n contents.isKey contents.statements ⟨c.fs, table⟩ →
      TableInv env n contents.isKey contents.statements (x ⟨c.fs, table⟩).2)
    (hran : Ran name x c c') : Holds env names db c' := by
  have hnext : Holds env names (db.append name []) c' := by
    refine h.ran hapart hx (fun n contents table _ hdb hheld => ?_) hran
    rw [List.append_nil]
    exact hinv n contents table hdb hheld
  rwa [Database.append_nil] at hnext

theorem Counted.fs {name : Option Bytes} (h : Counted name c c') : c'.fs = c.fs := by
  cases h <;> rfl

theorem Counted.tableMap {name : Option Bytes} (h : Counted name c c') :
    c'.tablet.tableMap = c.tablet.tableMap := by
  cases h <;> rfl

theorem Holds.putWith (h : Holds env names db c)
    (hapart : ∀ name ∈ names, ∀ n ∈ names, n ≠ name → Apart env name n)
    (answer : Bytes → RpcCode → Response → Response) {io : DiskCalls} {statement : Bytes}
    (hio : Complete io statement) (hsync : io.sync = none)
    (hb : (db.append (splitString env statement (ascii " "))[1]? [statement]).Bounded) :
    Holds env names (db.append (splitString env statement (ascii " "))[1]? [statement])
      (Tablet.putWith answer env io statement c).2 := by
  obtain ⟨d, hran, hcounted⟩ := putWith_ran answer env io statement c
  refine (h.ran hapart (put_elsewhere env io statement) ?_ hran).congr hcounted.fs
    hcounted.tableMap
  intro n contents table hname hdb hheld
  rw [hname] at hb
  have hbounds := hb n _ (Database.append_self hdb _)
  obtain ⟨result, t, ht, -, -, hnext, -⟩ := hheld.put hio hsync
    (hbounds.message statement (by simp)) (hbounds.of_append.length_lt.trans (by norm_num))
  rw [ht]
  exact hnext

/-- The table that a `Create` adds is empty, over an empty log. -/
theorem Holds.withTable (h : Holds env names db c)
    (hapart : ∀ name ∈ names, ∀ n ∈ names, n ≠ name → Apart env name n)
    {name : Bytes} (hmem : name ∈ names) (hdb : db name = none) {schema : List Field}
    (hkeys : ∀ key ∈ keyColumns schema, key.length < 2 ^ 32) {table : Table} {fs : FileSystem}
    (hnew : Table.new env name schema c.fs = (.ok table, fs)) :
    Holds env names (db.create name (keyColumns schema))
      { c with fs := fs, tablet := c.tablet.withTable name table } := by
  have hcreated : Created env name schema [] ⟨fs, table⟩ := ⟨c.fs, h.fresh name hmem hdb, hnew⟩
  have hisKey : table.segmentIndex.contains = Contents.isKey ⟨keyColumns schema, []⟩ := by
    funext column
    rw [Bool.eq_iff_iff, hcreated.contains_iff hkeys column, Contents.isKey, decide_eq_true_eq]
  have habsent : name ∉ c.tablet.tableMap := by
    rw [ExtTreeMap.mem_iff_isSome_getElem?, h.missing name hdb]
    exact Bool.false_ne_true
  have hself : db.create name (keyColumns schema) name = some ⟨keyColumns schema, []⟩ := by
    rw [Database.create, if_pos rfl, hdb]
    rfl
  refine h.update hmem hself ?_ (hisKey ▸ TableInv.created hcreated) ?_ ?_ ?_
  · change (c.tablet.tableMap.insertIfNew name table)[name]? = some table
    rw [ExtTreeMap.getElem?_insertIfNew, if_pos ⟨Std.ReflCmp.compare_self, habsent⟩]
  · intro n hne
    rw [Database.create, if_neg hne]
  · exact fun n hne => getElem?_insertIfNew_of_ne c.tablet.tableMap name n table hne
  · intro n hn hne
    obtain ⟨-, -, -, -, hfs⟩ := new_ok hnew
    change fs (logPath env n) = c.fs (logPath env n)
    rw [hfs]
    exact Function.update_of_ne (logPath_ne (hapart name hmem n hn hne)) _ _

theorem create_declared {statement name : Bytes}
    (hname : (splitString env statement (ascii " "))[1]? = some name)
    (hmem : name ∉ c.tablet.tableMap) (hdeclares : Declares env statement) :
    ∃ table fs, Table.new env name
        (fieldsOf env ((splitString env statement (ascii " ")).drop 2)) c.fs = (.ok table, fs) ∧
      Tablet.create env statement c =
        (.ok true, { c with fs := fs, tablet := c.tablet.withTable name table }) := by
  obtain ⟨hparts, hshort⟩ := hdeclares
  have hcontains : ¬ c.tablet.tableMap.contains name = true := hmem
  rw [Tablet.create, Exec.bind_ok (vectorAt_of_some hname c), Exec.bind_ok (Exec.get_apply c)]
  generalize (splitString env statement (ascii " ")).drop 2 = keys at *
  obtain ⟨table, htable⟩ := (@new_returns_iff env name (fieldsOf env keys) c.fs).mpr
    (by rw [buildKeys_result shortNames_empty, if_pos hshort])
  rcases hnew : Table.new env name (fieldsOf env keys) c.fs with ⟨result, fs⟩
  obtain rfl : result = .ok table := by rw [← htable, hnew]
  have hcall : Exec.zoom (·.fs) (fun fs c => { c with fs := fs })
      (Table.new env name (fieldsOf env keys)) c = (.ok table, { c with fs := fs }) := by
    rw [Exec.zoom_apply, hnew]
  simp only [hcontains, Bool.false_eq_true, if_false]
  rw [Exec.bind_ok (readFields_ok hparts c), Exec.bind_ok hcall]
  exact ⟨table, fs, rfl, rfl⟩

theorem create_undeclared {statement : Bytes} (hdeclares : ¬ Declares env statement) :
    (Tablet.create env statement c).2 = c := by
  have htrue := @create_true_iff env c statement
  obtain ⟨result, d, hcall, houtcome⟩ := create_outcome env statement c
  rw [hcall] at htrue ⊢
  rcases houtcome with ⟨-, -, rfl⟩ | ⟨name, -, ⟨-, -, rfl⟩ | ⟨-, hresult, -⟩⟩
  · rfl
  · rfl
  · obtain ⟨name', hcreates⟩ := htrue.mp hresult
    obtain ⟨-, -, hparts⟩ := createsTable_iff.mp hcreates
    exact absurd hparts hdeclares

theorem create_existing {statement name : Bytes}
    (hname : (splitString env statement (ascii " "))[1]? = some name)
    (hmem : name ∈ c.tablet.tableMap) :
    Tablet.create env statement c = (.ok false, c) := by
  have hcontains : c.tablet.tableMap.contains name = true := hmem
  rw [Tablet.create, Exec.bind_ok (vectorAt_of_some hname c), Exec.bind_ok (Exec.get_apply c)]
  simp only [hcontains, if_true]
  rfl

theorem Holds.mem_iff (h : Holds env names db c) (name : Bytes) :
    name ∈ c.tablet.tableMap ↔ (db name).isSome = true := by
  rw [ExtTreeMap.mem_iff_isSome_getElem?]
  cases hdb : db name with
  | none =>
    rw [h.missing name hdb]
    rfl
  | some contents =>
    obtain ⟨table, htable, -⟩ := h.tables name contents hdb
    rw [htable]
    rfl

theorem Holds.create (h : Holds env names db c)
    (hapart : ∀ name ∈ names, ∀ n ∈ names, n ≠ name → Apart env name n) {statement : Bytes}
    (hmem : ∀ name, (splitString env statement (ascii " "))[1]? = some name → name ∈ names)
    (hkeys : (TabletOp.create statement).Succeeds env) :
    Holds env names ((TabletOp.create statement).apply env db)
      (Tablet.create env statement c).2 := by
  cases hname : (splitString env statement (ascii " "))[1]? with
  | none =>
    rw [Tablet.create, Exec.bind_error (vectorAt_of_none hname c)]
    simpa only [TabletOp.apply, hname] using h
  | some name =>
    simp only [TabletOp.apply, hname]
    by_cases hdeclares : Declares env statement
    · rw [if_pos hdeclares]
      cases hdb : db name with
      | none =>
        have habsent : name ∉ c.tablet.tableMap := by
          rw [h.mem_iff, hdb]
          exact Bool.false_ne_true
        obtain ⟨table, fs, hnew, hcall⟩ := create_declared hname habsent hdeclares
        rw [hcall]
        exact h.withTable hapart (hmem name hname) hdb hkeys hnew
      | some contents =>
        have hthere : name ∈ c.tablet.tableMap := by
          rw [h.mem_iff, hdb]
          rfl
        rw [create_existing hname hthere]
        have hsame : db.create name (keyColumns (fieldsOf env
            ((splitString env statement (ascii " ")).drop 2))) = db := by
          funext n
          unfold Database.create
          split_ifs with heq
          · subst heq
            rw [hdb]
            rfl
          · rfl
        rwa [hsame]
    · rw [if_neg hdeclares, create_undeclared hdeclares]
      exact h

/-- Each call does to the node what it does to the database. -/
theorem Holds.step (h : Holds env names db c)
    (hapart : ∀ name ∈ names, ∀ n ∈ names, n ≠ name → Apart env name n) {op : TabletOp}
    (hmem : ∀ statement name, op = .create statement →
      (splitString env statement (ascii " "))[1]? = some name → name ∈ names)
    (hop : op.Succeeds env) (hb : (op.apply env db).Bounded)
    (hstep : TabletOp.step env op c = some c') : Holds env names (op.apply env db) c' := by
  cases op with
  | create statement =>
    rw [afterCall_eq hstep]
    exact h.create hapart (fun name => hmem statement name rfl) hop
  | put io statement =>
    rw [afterCall_eq hstep]
    exact h.putWith hapart _ hop.1 hop.2 hb
  | putResponse io statement =>
    rw [afterCall_eq hstep]
    exact h.putWith hapart _ hop.1 hop.2 hb
  | get statement =>
    rw [afterCall_eq hstep]
    exact h.ran_read hapart (elsewhere_of_files (get_keeps files_blindToReads env statement))
      (fun n contents table hdb hheld => (hheld.get_keeps (hb n contents hdb) statement).1)
      (get_ran env statement c)
  | getStatements name startOffset endOffset =>
    rw [afterCall_eq hstep]
    exact h.ran_read hapart
      (elsewhere_of_files (getBatchData_keeps files_blindToReads env startOffset endOffset))
      (fun n contents table _ hheld => hheld.getBatchData_keeps startOffset endOffset)
      (getStatements_ran env name startOffset endOffset c)
  | flush name k =>
    cases hstep
    exact h.ran_read hapart (.modify (elsewhere_drain k))
      (fun n contents table _ hheld => hheld.drain k) (flush_ran name k c)

theorem holds_init {endpoint : Bytes} {isLeader : Bool} {fs : FileSystem} {response : Response}
    (hfresh : ∀ name ∈ names, (fs (logPath env name)).getD [] = []) :
    Holds env names Database.empty ⟨fs, Tablet.init endpoint isLeader, response⟩ := by
  refine ⟨fun name hdb => absurd rfl hdb, fun name _ => ?_, fun name contents hdb => ?_,
    fun name hmem _ => hfresh name hmem⟩
  · simp [Tablet.init]
  · cases hdb

/-- Along a run from a node without tables the node holds the database of the calls. -/
theorem Holds.of_run {endpoint : Bytes} {isLeader : Bool} {fs : FileSystem} {response : Response}
    {ops : List TabletOp}
    (hapart : ∀ name ∈ names, ∀ n ∈ names, n ≠ name → Apart env name n)
    (hmem : ∀ statement name, .create statement ∈ ops →
      (splitString env statement (ascii " "))[1]? = some name → name ∈ names)
    (hfresh : ∀ name ∈ names, (fs (logPath env name)).getD [] = [])
    (hrun : run (TabletOp.step env) ops ⟨fs, Tablet.init endpoint isLeader, response⟩ = some c)
    (hok : ∀ op ∈ ops, op.Succeeds env) (hb : (TabletOp.database env ops).Bounded) :
    Holds env names (TabletOp.database env ops) c := by
  refine Run.induct_of
    (C := fun es => (∀ op ∈ es, op ∈ ops) ∧ (TabletOp.database env es).Bounded)
    (P := fun es c => Holds env names (TabletOp.database env es) c) ?_ (holds_init hfresh) ?_
    ⟨fun op hop => hop, hb⟩ hrun
  · rintro es e ⟨hsub, hbounds⟩
    rw [TabletOp.database_concat] at hbounds
    exact ⟨fun op hop => hsub op (List.mem_append_left _ hop), TabletOp.bounded_of_apply hbounds⟩
  · intro es e t u hw hheld hstep
    obtain ⟨hsub, hbounds⟩ := hw
    have he : e ∈ ops := hsub e (by simp)
    rw [TabletOp.database_concat] at hbounds ⊢
    refine hheld.step hapart (fun statement name heq hname => ?_) (hok e he) hbounds hstep
    subst heq
    exact hmem statement name he hname

/-! The answers of the node. -/

/-- In a log that is written out a `Get` finds what some statement lists in a key column. -/
theorem found_iff_listed {tableName : Bytes} {isKey : Bytes → Bool} {ms : List Bytes}
    {s : TableState} (h : TableInv env tableName isKey ms s) (hb : InBounds ms)
    (hlen : ∀ m ∈ ms, m.length < 2 ^ 31 - 1) (hflushed : s.pending = [])
    {statement column value : Bytes} {timestamp : UInt64}
    (hquery : query env statement = some (column, timestamp, value)) :
    Found env statement s ↔
      isKey column = true ∧ ∃ m ∈ ms, Lists env column timestamp value m := by
  have hget := h.get_flushed hb hlen hflushed statement
  rw [hquery] at hget
  rw [← Storage.get_returns hget, ne_eq, Option.map_eq_none_iff, answer_eq_none_iff]
  push Not
  rfl

/-- Nothing of the table's log is left in the buffer of stdio. -/
def WrittenOut (name : Bytes) (c : Call) : Prop :=
  ∀ table : Table, c.tablet.tableMap[name]? = some table → table.wf.fileHandle.buffer = []

/-- The statements can be read back. -/
def Database.Short (db : Database) : Prop :=
  ∀ name contents, db name = some contents → ∀ m ∈ contents.statements, m.length < 2 ^ 31 - 1

theorem onTable_fst {α : Type} (name : Bytes) (table : Table) (x : TableM α) (c : Call) :
    (onTable name table x c).1 = (x ⟨c.fs, table⟩).1 := rfl

theorem get_missing {statement name : Bytes}
    (hname : (splitString env statement (ascii " "))[1]? = some name)
    (hmissing : c.tablet.tableMap[name]? = none) :
    Tablet.get env statement c = (.ok false, { c with
      response := { c.response with
        code := some .errorNotFound, msg := some (ascii "table is not found") } }) := by
  rw [Tablet.get, Exec.bind_ok (vectorAt_of_some hname c), Exec.bind_ok (Exec.get_apply c)]
  simp only [hmissing]
  rfl

theorem get_there {statement name : Bytes} {table : Table}
    (hname : (splitString env statement (ascii " "))[1]? = some name)
    (htable : c.tablet.tableMap[name]? = some table) :
    Tablet.get env statement c =
      (do let message ← onTable name table (Table.get env statement)
          setMsg (message.getD [])
          setCode .ok
          return true) c := by
  rw [Tablet.get, Exec.bind_ok (vectorAt_of_some hname c), Exec.bind_ok (Exec.get_apply c)]
  simp only [htable]

theorem Holds.get (h : Holds env names db c) (hb : db.Bounded) (hshort : db.Short)
    {statement : Bytes}
    (hwritten : ∀ name, (splitString env statement (ascii " "))[1]? = some name →
      WrittenOut name c) :
    match db.get env statement with
    | none => ((Request.get statement).serve env c.unset).1 = .error .outOfRange
    | some response => ((Request.get statement).serve env c.unset).1 = .ok () ∧
        ((Request.get statement).serve env c.unset).2.response = response := by
  rw [Request.serve, TabletNode.get, Database.get]
  cases hname : (splitString env statement (ascii " "))[1]? with
  | none =>
    have hcall : Tablet.get env statement c.unset = (.error .outOfRange, c.unset) := by
      rw [Tablet.get, Exec.bind_error (vectorAt_of_none hname _)]
    rw [Exec.bind_error hcall]
    rfl
  | some name =>
    simp only [Option.bind_eq_bind, Option.bind_some, Option.pure_def]
    cases hdb : db name with
    | none =>
      rw [Exec.bind_ok (get_missing (c := c.unset) hname (h.missing name hdb))]
      exact ⟨rfl, rfl⟩
    | some contents =>
      obtain ⟨table, htable, hinv⟩ := h.tables name contents hdb
      have hget := hinv.get_flushed (hb name contents hdb) (hshort name contents hdb)
        (hwritten name hname table htable) statement
      have hzoom := onTable_fst name table (Table.get env statement) c.unset
      have hcall := get_there (c := c.unset) hname htable
      rcases honTable : onTable name table (Table.get env statement) c.unset with ⟨result, d⟩
      rw [honTable] at hzoom
      rw [show (Table.get env statement ⟨c.unset.fs, table⟩).1 = _ from hget] at hzoom
      cases hquery : query env statement with
      | none =>
        rw [hquery] at hzoom
        obtain rfl : result = .error .outOfRange := hzoom
        rw [Exec.bind_error honTable] at hcall
        rw [Exec.bind_error hcall]
        rfl
      | some found =>
        obtain ⟨column, timestamp, value⟩ := found
        rw [hquery] at hzoom
        obtain rfl : result = .ok _ := hzoom
        rw [Exec.bind_ok honTable] at hcall
        rw [Exec.bind_ok hcall]
        exact ⟨rfl, rfl⟩

theorem Holds.get_returns (h : Holds env names db c) (hb : db.Bounded) (hshort : db.Short)
    {statement name column value : Bytes} {timestamp : UInt64}
    (hname : (splitString env statement (ascii " "))[1]? = some name)
    (hquery : query env statement = some (column, timestamp, value))
    (hwritten : WrittenOut name c) :
    ((Request.get statement).serve env c.unset).1 = .ok () := by
  have hall : ∀ n, (splitString env statement (ascii " "))[1]? = some n → WrittenOut n c := by
    intro n hn
    obtain rfl := Option.some.inj (hname.symm.trans hn)
    exact hwritten
  have hget := h.get hb hshort hall
  rw [Database.get, hname] at hget
  simp only [Option.bind_eq_bind, Option.bind_some, Option.pure_def, hquery] at hget
  cases hdb : db name with
  | none =>
    rw [hdb] at hget
    exact hget.1
  | some contents =>
    rw [hdb] at hget
    exact hget.1

theorem readBatch_flushed {ms : List Bytes} (hms : ∀ m ∈ ms, m.length < 2 ^ 31 - 1)
    (count i : ℕ) (data : List Bytes) :
    ∃ all, readBatch ms (logBytes ms).length count i data =
      .ok (all, data ++ ((ms.drop i).take count).map cString) := by
  induction count generalizing i data with
  | zero => exact ⟨true, by simp [readBatch]⟩
  | succ count ih =>
    rw [readBatch]
    rcases Nat.lt_or_ge i ms.length with hlt | hge
    · rw [readRecord_of_short hlt (hms _ (List.getElem_mem hlt)),
        if_pos (position_le_length ms (i + 1))]
      obtain ⟨all, hall⟩ := ih (i + 1) (data ++ [cString ms[i]])
      refine ⟨all, ?_⟩
      simp only [hall, List.drop_eq_getElem_cons hlt, List.take_succ_cons, List.map_cons,
        List.append_assoc, List.singleton_append]
    · rw [readRecord_of_length_le hge, List.drop_eq_nil_of_le hge]
      exact ⟨false, by simp⟩

/-- A batch read past the end gives what there is; of an empty table there is nothing to open. -/
theorem Holds.getStatements (h : Holds env names db c) (hb : db.Bounded) (hshort : db.Short)
    {name : Bytes} (hwritten : WrittenOut name c) {startOffset endOffset : ℕ}
    (hsome : startOffset < endOffset → ∀ contents, db name = some contents →
      contents.statements ≠ []) :
    (Tablet.getStatements env name startOffset endOffset c).1 =
      .ok (db.batch name startOffset endOffset) := by
  rw [Tablet.getStatements, Exec.bind_ok (Exec.get_apply c), Database.batch]
  cases hdb : db name with
  | none =>
    simp only [h.missing name hdb]
    rfl
  | some contents =>
    obtain ⟨table, htable, hinv⟩ := h.tables name contents hdb
    simp only [htable]
    have hread : ∃ all, (Table.getBatchData env startOffset endOffset ⟨c.fs, table⟩).1 =
        .ok (all, ((contents.statements.drop startOffset).take
          (endOffset - startOffset)).map cString) := by
      rcases Nat.lt_or_ge startOffset endOffset with hlt | hge
      · obtain ⟨t, ht, -⟩ := hinv.log.getBatchLoop (hb name contents hdb) (hsome hlt contents hdb)
          (endOffset - startOffset) startOffset []
        obtain ⟨all, hall⟩ := readBatch_flushed (hshort name contents hdb)
          (endOffset - startOffset) startOffset []
        rw [hinv.log.flushed_eq (hwritten table htable), hall, List.nil_append] at ht
        exact ⟨all, by rw [Table.getBatchData, ht]⟩
      · rw [Table.getBatchData, Nat.sub_eq_zero_of_le hge]
        exact ⟨true, by simp [Table.getBatchLoop]⟩
    obtain ⟨all, hall⟩ := hread
    have hzoom := onTable_fst name table (Table.getBatchData env startOffset endOffset) c
    rcases honTable : onTable name table (Table.getBatchData env startOffset endOffset) c with
      ⟨result, d⟩
    rw [hall, honTable] at hzoom
    obtain rfl : result = .ok _ := hzoom
    rw [Exec.bind_ok honTable]
    rfl

end Holds

/-- Of tables that are written out: the answers to a `Get` are true exactly when there is no table
of the name, or a statement put in it lists the triple in a key column. -/
theorem answersTrue_iff_listed {env : Env} (names : List Bytes) {endpoint : Bytes}
    {isLeader : Bool} {fs : FileSystem} {response : Response} {ops : List TabletOp} {c : Call}
    (hapart : ∀ name ∈ names, ∀ n ∈ names, n ≠ name → Apart env name n)
    (hmem : ∀ statement name, .create statement ∈ ops →
      (splitString env statement (ascii " "))[1]? = some name → name ∈ names)
    (hfresh : ∀ name ∈ names, (fs (logPath env name)).getD [] = [])
    (hrun : run (TabletOp.step env) ops ⟨fs, Tablet.init endpoint isLeader, response⟩ = some c)
    (hok : ∀ op ∈ ops, op.Succeeds env) (hb : (TabletOp.database env ops).Bounded)
    (hshort : (TabletOp.database env ops).Short) {statement name column value : Bytes}
    {timestamp : UInt64} (hname : (splitString env statement (ascii " "))[1]? = some name)
    (hquery : query env statement = some (column, timestamp, value))
    (hwritten : WrittenOut name c) :
    AnswersTrue env c (.get statement) ↔
      ∀ contents, TabletOp.database env ops name = some contents →
        column ∈ contents.keys ∧ ∃ m ∈ contents.statements, Lists env column timestamp value m := by
  have hheld := Holds.of_run hapart hmem hfresh hrun hok hb
  have hreachable : Reachable env c := ⟨endpoint, isLeader, fs, response, ops, hrun⟩
  rw [answersTrue_get_iff hreachable.sameTables (hheld.get_returns hb hshort hname hquery hwritten)]
  constructor
  · intro hmeets contents hdb
    obtain ⟨table, htable, hinv⟩ := hheld.tables name contents hdb
    have hfound := hmeets name table (tableOf_eq_some.mpr ⟨hname, htable⟩)
    rw [found_iff_listed hinv (hb name contents hdb) (hshort name contents hdb)
      (hwritten table htable) hquery, Contents.isKey, decide_eq_true_eq] at hfound
    exact hfound
  · intro hlisted n table htable
    obtain ⟨hn, hmap⟩ := tableOf_eq_some.mp htable
    obtain rfl := Option.some.inj (hname.symm.trans hn)
    obtain ⟨contents, hdb, hinv⟩ := hheld.table_of_some hmap
    rw [found_iff_listed hinv (hb name contents hdb) (hshort name contents hdb)
      (hwritten table hmap) hquery, Contents.isKey, decide_eq_true_eq]
    exact hlisted contents hdb

/-- The node has the tables of the database; of a table whose log is written out the file has the
statements, and the requests that read it are answered with them. -/
structure AnswersAs (env : Env) (db : Database) (c : Call) : Prop where
  tables : ∀ name, name ∈ c.tablet.tableMap ↔ (db name).isSome = true
  logs : ∀ name contents, db name = some contents → WrittenOut name c →
    (c.fs (logPath env name)).getD [] = logBytes contents.statements
  get : ∀ statement,
    (∀ name, (splitString env statement (ascii " "))[1]? = some name → WrittenOut name c) →
    match db.get env statement with
    | none => ((Request.get statement).serve env c.unset).1 = .error .outOfRange
    | some response => ((Request.get statement).serve env c.unset).1 = .ok () ∧
        ((Request.get statement).serve env c.unset).2.response = response
  getStatements : ∀ name startOffset endOffset, WrittenOut name c →
    (startOffset < endOffset → ∀ contents, db name = some contents →
      contents.statements ≠ []) →
    (Tablet.getStatements env name startOffset endOffset c).1 =
      .ok (db.batch name startOffset endOffset)

/-- Along every run without I/O failure, over tables whose files lie apart, the node answers as the
database does that the same calls make. -/
theorem node_answersAs {env : Env} (names : List Bytes) {endpoint : Bytes} {isLeader : Bool}
    {fs : FileSystem} {response : Response} {ops : List TabletOp} {c : Call}
    (hapart : ∀ name ∈ names, ∀ n ∈ names, n ≠ name → Apart env name n)
    (hmem : ∀ statement name, .create statement ∈ ops →
      (splitString env statement (ascii " "))[1]? = some name → name ∈ names)
    (hfresh : ∀ name ∈ names, (fs (logPath env name)).getD [] = [])
    (hrun : run (TabletOp.step env) ops ⟨fs, Tablet.init endpoint isLeader, response⟩ = some c)
    (hok : ∀ op ∈ ops, op.Succeeds env) (hb : (TabletOp.database env ops).Bounded)
    (hshort : (TabletOp.database env ops).Short) :
    AnswersAs env (TabletOp.database env ops) c := by
  have hheld := Holds.of_run hapart hmem hfresh hrun hok hb
  refine ⟨hheld.mem_iff, ?_, fun statement hwritten => hheld.get hb hshort hwritten,
    fun name startOffset endOffset hwritten hsome => hheld.getStatements hb hshort hwritten hsome⟩
  intro name contents hdb hwritten
  obtain ⟨table, htable, hinv⟩ := hheld.tables name contents hdb
  rw [← hinv.log.flushed_eq (hwritten table htable), TableState.flushed]
  exact congrArg (fun p => (c.fs p).getD []) hinv.log.path.symm

def twoTableCalls : List TabletOp :=
  [.create (ascii "create t c,string,true timestamp,uint64_t,false"),
    .create (ascii "create u d,string,true timestamp,uint64_t,false"),
    .put .ok (ascii "insert t c,timestamp 1,7"),
    .putResponse .ok (ascii "insert u d,timestamp 2,8"),
    .flush (ascii "t") 4096, .flush (ascii "u") 4096]

theorem node_answersAs_two_tables :
    ∃ c, run (TabletOp.step Env.default) twoTableCalls newNode = some c ∧
      AnswersAs Env.default (TabletOp.database Env.default twoTableCalls) c := by
  have hsome : (run (TabletOp.step Env.default) twoTableCalls newNode).isSome = true := by
    decide +kernel
  obtain ⟨c, hrun⟩ := Option.isSome_iff_exists.mp hsome
  have hnames : ∀ statement name, .create statement ∈ twoTableCalls →
      (splitString Env.default statement (ascii " "))[1]? = some name →
      name ∈ [ascii "t", ascii "u"] := by
    intro statement name hmem hname
    simp only [twoTableCalls, List.mem_cons, TabletOp.create.injEq, reduceCtorEq, or_false,
      List.not_mem_nil] at hmem
    rcases hmem with rfl | rfl
    · cases hname.symm.trans (show _ = some (ascii "t") by decide +kernel)
      exact List.mem_cons_self
    · cases hname.symm.trans (show _ = some (ascii "u") by decide +kernel)
      exact List.mem_cons_of_mem _ List.mem_cons_self
  have hcontents : ∀ name contents,
      TabletOp.database Env.default twoTableCalls name = some contents →
      contents = ⟨[ascii "c"], [ascii "insert t c,timestamp 1,7"]⟩ ∨
        contents = ⟨[ascii "d"], [ascii "insert u d,timestamp 2,8"]⟩ := by
    intro name contents hdb
    have hmem : name ∈ [ascii "t", ascii "u"] := by
      by_contra hnot
      rw [TabletOp.database_eq_none fun statement hcreate hname =>
        hnot (hnames statement name hcreate hname)] at hdb
      cases hdb
    simp only [List.mem_cons, List.not_mem_nil, or_false] at hmem
    rcases hmem with rfl | rfl
    · left
      exact Option.some.inj (hdb.symm.trans (by decide +kernel))
    · right
      exact Option.some.inj (hdb.symm.trans (by decide +kernel))
  have hshort : (TabletOp.database Env.default twoTableCalls).Short := by
    intro name contents hdb m hm
    rcases hcontents name contents hdb with rfl | rfl <;> rw [List.mem_singleton.mp hm] <;>
      decide +kernel
  refine ⟨c, hrun, node_answersAs [ascii "t", ascii "u"] (by decide +kernel) hnames (by simp) hrun
    ?_ ?_ hshort⟩
  · intro op hop
    simp only [twoTableCalls, List.mem_cons, List.not_mem_nil, or_false] at hop
    rcases hop with rfl | rfl | rfl | rfl | rfl | rfl
    · exact fun key hkey => (by decide +kernel : ∀ key ∈ _, key.length < 2 ^ 32) key hkey
    · exact fun key hkey => (by decide +kernel : ∀ key ∈ _, key.length < 2 ^ 32) key hkey
    · exact ⟨.ok _, rfl⟩
    · exact ⟨.ok _, rfl⟩
    · trivial
    · trivial
  · intro name contents hdb
    refine .of_short (hshort name contents hdb) ?_
    rcases hcontents name contents hdb with rfl | rfl <;> decide +kernel

end Ibdb.Cluster
