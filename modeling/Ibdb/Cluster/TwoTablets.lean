import Ibdb.Cluster.TabletNode
import Ibdb.Storage.OtherFiles

/-! Two tablets that agree on all tables but one, and what a call does to both of them. -/
namespace Ibdb.Cluster
open Base Log Storage
open Std (ExtTreeMap)

/-- The files that the constructor of a table opens for writing. -/
def filePaths (env : Env) (tableName : Bytes) : List Path :=
  [logPath env tableName,
    resolve env.workingDirectory (Table.logDir env tableName ++ ascii "/" ++ Table.indexName),
    resolve env.workingDirectory (env.dbRoot ++ ascii "/" ++ tableName ++ ascii "/table_manifest")]

/-- No file of the first table lies at or above the log of the second, and no directory of the
first lies where the second has its log. -/
def Apart (env : Env) (tableName other : Bytes) : Prop :=
  (∀ file ∈ filePaths env tableName, ¬ file <+: logPath env other) ∧
    ¬ logPath env other <+: logPath env tableName

instance (env : Env) (tableName other : Bytes) : Decidable (Apart env tableName other) :=
  inferInstanceAs (Decidable (_ ∧ _))

/-- A name that leaves the working directory and comes back to it by its own name. -/
example : ¬ Apart Env.default (ascii "../../../srv/ibdb/db/t") (ascii "t") := by decide +kernel

theorem Apart.foreign {env : Env} {tableName other : Bytes} (h : Apart env tableName other) :
    Foreign env other (logPath env tableName) := by
  have hlog := h.1 (logPath env tableName) List.mem_cons_self
  constructor
  · intro heq
    exact hlog (heq ▸ List.prefix_refl _)
  · intro heq
    exact hlog (heq ▸ directory_prefix_logPath env other)

namespace TabletOp

def names (env : Env) : TabletOp → Option Bytes
  | create statement => (splitString env statement (ascii " "))[1]?
  | put _ statement => (splitString env statement (ascii " "))[1]?
  | putResponse _ statement => (splitString env statement (ascii " "))[1]?
  | get statement => (splitString env statement (ascii " "))[1]?
  | getStatements tableName _ _ => some tableName
  | flush tableName _ => some tableName

/-- A `Create` or a `Put` on the table. -/
def Writes (env : Env) (tableName : Bytes) (op : TabletOp) : Prop :=
  match op with
  | create _ | put _ _ | putResponse _ _ => op.names env = some tableName
  | get _ | getStatements _ _ _ | flush _ _ => False

instance (env : Env) (tableName : Bytes) : DecidablePred (Writes env tableName) := fun op => by
  cases op <;> unfold Writes <;> infer_instance

def call (env : Env) (op : TabletOp) (c : Call) : Option Call := op.step env c.unset

end TabletOp

/-- The table of the name, when there is one, writes to the log of the name. -/
def WritesOwn (env : Env) (tableName : Bytes) (c : Call) : Prop :=
  ∀ table : Table, c.tablet.tableMap[tableName]? = some table →
    table.wf.fileHandle.path = logPath env tableName

/-- The states of two runs, of which the second has made no table of the name: they agree on all
other tables and on all files but its log. -/
structure Isolated (env : Env) (tableName : Bytes) (c d : Call) : Prop where
  response : d.response = c.response
  fs : ∀ q, q ≠ logPath env tableName → d.fs q = c.fs q
  tables : ∀ name : Bytes, name ≠ tableName → d.tablet.tableMap[name]? = c.tablet.tableMap[name]?
  manifests : ∀ name : Bytes, name ≠ tableName →
    d.tablet.tableManifestMap[name]? = c.tablet.tableManifestMap[name]?
  absent : d.tablet.tableMap[tableName]? = none
  own : ∀ (name : Bytes) (table : Table), name ≠ tableName →
    c.tablet.tableMap[name]? = some table → OwnFiles env name table
  writer : WritesOwn env tableName c

section Maps
variable {β : Type} (m : ExtTreeMap Bytes β compare) (key k : Bytes) (b : β)

theorem getElem?_insert_of_ne (h : k ≠ key) : (m.insert key b)[k]? = m[k]? := by
  rw [ExtTreeMap.getElem?_insert, if_neg]
  intro heq
  exact h (Std.compare_eq_iff_eq.mp heq).symm

theorem getElem?_insertIfNew_of_ne (h : k ≠ key) : (m.insertIfNew key b)[k]? = m[k]? := by
  rw [ExtTreeMap.getElem?_insertIfNew, if_neg]
  intro hw
  exact h (Std.compare_eq_iff_eq.mp hw.1).symm

end Maps

section Both
variable {env : Env} {tableName : Bytes}

theorem Isolated.onTable {c d : Call} (h : Isolated env tableName c d) {name : Bytes}
    {table : Table} (hname : name ≠ tableName) (htable : c.tablet.tableMap[name]? = some table)
    {α : Type} {x : TableM α}
    (hx : Exec.Respects (SameBut env name (logPath env tableName)) x) :
    (onTable name table x d).1 = (onTable name table x c).1 ∧
      Isolated env tableName (onTable name table x c).2 (onTable name table x d).2 := by
  have hsame : SameBut env name (logPath env tableName) ⟨c.fs, table⟩ ⟨d.fs, table⟩ :=
    ⟨rfl, h.fs, h.own name table hname htable⟩
  obtain ⟨hresult, hnext⟩ := hx _ _ hsame
  refine ⟨hresult, h.response, hnext.fs, ?_, h.manifests, ?_, ?_, ?_⟩
  · intro name' hname'
    change (d.tablet.tableMap.insert name _)[name']? = (c.tablet.tableMap.insert name _)[name']?
    rw [hnext.table]
    by_cases heq : name' = name
    · subst heq
      rw [ExtTreeMap.getElem?_insert_self, ExtTreeMap.getElem?_insert_self]
    · rw [getElem?_insert_of_ne _ _ _ _ heq, getElem?_insert_of_ne _ _ _ _ heq]
      exact h.tables name' hname'
  · change (d.tablet.tableMap.insert name _)[tableName]? = none
    rw [getElem?_insert_of_ne _ _ _ _ (Ne.symm hname)]
    exact h.absent
  · intro name' table' hname' htable'
    change (c.tablet.tableMap.insert name _)[name']? = some table' at htable'
    by_cases heq : name' = name
    · subst heq
      rw [ExtTreeMap.getElem?_insert_self] at htable'
      cases htable'
      exact hnext.own
    · rw [getElem?_insert_of_ne _ _ _ _ heq] at htable'
      exact h.own name' table' hname' htable'
  · intro table' htable'
    change (c.tablet.tableMap.insert name _)[tableName]? = some table' at htable'
    rw [getElem?_insert_of_ne _ _ _ _ (Ne.symm hname)] at htable'
    exact h.writer table' htable'

theorem Isolated.withResponse {c d : Call} (h : Isolated env tableName c d)
    {response response' : Response} (heq : response' = response) :
    Isolated env tableName { c with response := response } { d with response := response' } :=
  ⟨heq, h.fs, h.tables, h.manifests, h.absent, h.own, h.writer⟩

theorem Isolated.withManifest {c d : Call} (h : Isolated env tableName c d) (name : Bytes)
    (manifest : TableManifest) {response response' : Response} (heq : response' = response) :
    Isolated env tableName
      { c with
        tablet := { c.tablet with
          tableManifestMap := c.tablet.tableManifestMap.insert name manifest }
        response := response }
      { d with
        tablet := { d.tablet with
          tableManifestMap := d.tablet.tableManifestMap.insert name manifest }
        response := response' } := by
  refine ⟨heq, h.fs, h.tables, ?_, h.absent, h.own, h.writer⟩
  intro name' hname'
  change (d.tablet.tableManifestMap.insert name _)[name']? =
    (c.tablet.tableManifestMap.insert name _)[name']?
  by_cases heq : name' = name
  · subst heq
    rw [ExtTreeMap.getElem?_insert_self, ExtTreeMap.getElem?_insert_self]
  · rw [getElem?_insert_of_ne _ _ _ _ heq, getElem?_insert_of_ne _ _ _ _ heq]
    exact h.manifests name' hname'

theorem ownFiles_initial (env : Env) (name : Bytes) (schema : List Field) (seg : Segment) :
    OwnFiles env name (Table.initial env name schema seg) := by
  refine ⟨rfl, rfl, rfl, ?_, ?_⟩
  · intro file rf hrf
    simp [Table.initial] at hrf
  · intro file hfile
    simp [Table.initial] at hfile

theorem Isolated.withTable {c d : Call} (h : Isolated env tableName c d) {name : Bytes}
    {table : Table} (hname : name ≠ tableName) (hown : OwnFiles env name table) :
    Isolated env tableName
      { c with
        fs := c.fs.append (logPath env name) []
        tablet := c.tablet.withTable name table }
      { d with
        fs := d.fs.append (logPath env name) []
        tablet := d.tablet.withTable name table } := by
  refine ⟨h.response, append_same h.fs _ [], ?_, ?_, ?_, ?_, ?_⟩
  · intro name' hname'
    change (d.tablet.tableMap.insertIfNew name table)[name']? =
      (c.tablet.tableMap.insertIfNew name table)[name']?
    simp only [ExtTreeMap.getElem?_insertIfNew, ExtTreeMap.mem_iff_isSome_getElem?,
      h.tables name hname, h.tables name' hname']
  · intro name' hname'
    change (d.tablet.tableManifestMap.insertIfNew name table.tableManifest)[name']? =
      (c.tablet.tableManifestMap.insertIfNew name table.tableManifest)[name']?
    simp only [ExtTreeMap.getElem?_insertIfNew, ExtTreeMap.mem_iff_isSome_getElem?,
      h.manifests name hname, h.manifests name' hname']
  · change (d.tablet.tableMap.insertIfNew name table)[tableName]? = none
    rw [getElem?_insertIfNew_of_ne _ _ _ _ (Ne.symm hname)]
    exact h.absent
  · intro name' table' hname' htable'
    rcases getElem?_withTable htable' with ⟨rfl, rfl⟩ | htable
    · exact hown
    · exact h.own name' table' hname' htable
  · intro table' htable'
    rcases getElem?_withTable htable' with ⟨heq, -⟩ | htable
    · exact absurd heq.symm hname
    · exact h.writer table' htable

section Statement
variable {statement : Bytes}

theorem putWith_respects (hstatement : (splitString env statement (ascii " "))[1]? ≠ some tableName)
    (answer : Bytes → RpcCode → Response → Response) (io : DiskCalls) :
    Exec.Respects (Isolated env tableName) (Tablet.putWith answer env io statement) := by
  intro c d h
  cases hname : (splitString env statement (ascii " "))[1]? with
  | none =>
    rw [Tablet.putWith, Exec.bind_error (vectorAt_of_none hname c),
      Exec.bind_error (vectorAt_of_none hname d)]
    exact ⟨rfl, h⟩
  | some name =>
    have hne : name ≠ tableName := fun heq => hstatement (heq ▸ hname)
    rw [Tablet.putWith, Exec.bind_ok (vectorAt_of_some hname c), Exec.bind_ok (Exec.get_apply c),
      Exec.bind_ok (vectorAt_of_some hname d), Exec.bind_ok (Exec.get_apply d), h.tables name hne]
    cases htable : c.tablet.tableMap[name]? with
    | none => exact ⟨rfl, h.withResponse (by rw [h.response])⟩
    | some table =>
      refine Exec.Respects.bind_at (h.onTable hne htable (put_respects env name _ io statement))
        fun _ => Exec.Respects.get_bind ?_ ?_
      · intro s t hst
        rw [hst.manifests name hne]
      · intro s t hst
        cases s.tablet.tableManifestMap[name]? with
        | none => exact .pure _ false
        | some manifest =>
          refine (Exec.Respects.modify fun s' t' hst' => ?_).bind fun _ => .pure _ true
          exact hst'.withManifest name _ (by rw [hst'.response])

theorem create_respects
    (hstatement : (splitString env statement (ascii " "))[1]? ≠ some tableName) :
    Exec.Respects (Isolated env tableName) (Tablet.create env statement) := by
  intro c d h
  cases hname : (splitString env statement (ascii " "))[1]? with
  | none =>
    rw [Tablet.create, Exec.bind_error (vectorAt_of_none hname c),
      Exec.bind_error (vectorAt_of_none hname d)]
    exact ⟨rfl, h⟩
  | some name =>
    have hne : name ≠ tableName := fun heq => hstatement (heq ▸ hname)
    have hcontains : d.tablet.tableMap.contains name = c.tablet.tableMap.contains name := by
      rw [ExtTreeMap.contains_eq_isSome_getElem?, ExtTreeMap.contains_eq_isSome_getElem?,
        h.tables name hne]
    rw [Tablet.create, Exec.bind_ok (vectorAt_of_some hname c), Exec.bind_ok (Exec.get_apply c),
      Exec.bind_ok (vectorAt_of_some hname d), Exec.bind_ok (Exec.get_apply d), hcontains]
    generalize (splitString env statement (ascii " ")).drop 2 = keys
    by_cases hmem : c.tablet.tableMap.contains name = true
    · simp only [hmem, if_true]
      exact ⟨rfl, h⟩
    simp only [hmem, Bool.false_eq_true, if_false]
    by_cases hparts : HasParts env keys
    · rw [Exec.bind_ok (readFields_ok hparts c), Exec.bind_ok (readFields_ok hparts d)]
      rcases hbuild : Table.buildKeys (fieldsOf env keys) Segment.empty with ⟨fault | _, seg⟩
      · have hnew : ∀ e : Call, Exec.zoom (·.fs) (fun fs c => { c with fs := fs })
            (Table.new env name (fieldsOf env keys)) e = (.error fault, e) := by
          intro e
          rw [Exec.zoom_apply, Table.new, hbuild]
          rfl
        rw [Exec.bind_error (hnew c), Exec.bind_error (hnew d)]
        exact ⟨rfl, h⟩
      · have hnew : ∀ e : Call, Exec.zoom (·.fs) (fun fs c => { c with fs := fs })
            (Table.new env name (fieldsOf env keys)) e =
              (.ok (Table.initial env name (fieldsOf env keys) seg),
                { e with fs := e.fs.append (logPath env name) [] }) := by
          intro e
          rw [Exec.zoom_apply, Table.new, hbuild]
          rfl
        rw [Exec.bind_ok (hnew c), Exec.bind_ok (hnew d)]
        exact ⟨rfl, h.withTable hne (ownFiles_initial env name (fieldsOf env keys) seg)⟩
    · rw [Exec.bind_error (readFields_error hparts c), Exec.bind_error (readFields_error hparts d)]
      exact ⟨rfl, h⟩

theorem get_call_respects
    (hstatement : (splitString env statement (ascii " "))[1]? ≠ some tableName)
    (hforeign : ∀ name, (splitString env statement (ascii " "))[1]? = some name →
      Foreign env name (logPath env tableName)) :
    Exec.Respects (Isolated env tableName) (Tablet.get env statement) := by
  intro c d h
  cases hname : (splitString env statement (ascii " "))[1]? with
  | none =>
    rw [Tablet.get, Exec.bind_error (vectorAt_of_none hname c),
      Exec.bind_error (vectorAt_of_none hname d)]
    exact ⟨rfl, h⟩
  | some name =>
    have hne : name ≠ tableName := fun heq => hstatement (heq ▸ hname)
    rw [Tablet.get, Exec.bind_ok (vectorAt_of_some hname c), Exec.bind_ok (Exec.get_apply c),
      Exec.bind_ok (vectorAt_of_some hname d), Exec.bind_ok (Exec.get_apply d), h.tables name hne]
    cases htable : c.tablet.tableMap[name]? with
    | none => exact ⟨rfl, h.withResponse (by rfl)⟩
    | some table =>
      refine Exec.Respects.bind_at
        (h.onTable hne htable (get_respects (hforeign name hname) statement)) fun message => ?_
      refine (Exec.Respects.modify fun s t hst => ?_).bind fun _ =>
        (Exec.Respects.modify fun s t hst => ?_).bind fun _ => .pure _ true
      · exact hst.withResponse (by rw [hst.response])
      · exact hst.withResponse (by rw [hst.response])

end Statement

theorem getStatements_respects {name : Bytes} (hne : name ≠ tableName)
    (hforeign : Foreign env name (logPath env tableName)) (startOffset endOffset : ℕ) :
    Exec.Respects (Isolated env tableName)
      (Tablet.getStatements env name startOffset endOffset) := by
  intro c d h
  rw [Tablet.getStatements, Exec.bind_ok (Exec.get_apply c), Exec.bind_ok (Exec.get_apply d),
    h.tables name hne]
  cases htable : c.tablet.tableMap[name]? with
  | none => exact ⟨rfl, h⟩
  | some table =>
    exact Exec.Respects.bind_at
      (h.onTable hne htable (getBatchData_respects hforeign startOffset endOffset))
      fun data => .pure _ data.2

theorem Isolated.flush {c d : Call} (h : Isolated env tableName c d) {name : Bytes}
    (hne : name ≠ tableName) (k : ℕ) :
    Isolated env tableName (c.flush name k) (d.flush name k) := by
  unfold Call.flush
  rw [h.tables name hne]
  cases htable : c.tablet.tableMap[name]? with
  | none => exact h
  | some table => exact (h.onTable hne htable (drain_respects env name _ k)).2

end Both

/-! A call on the table in the first run alone. -/

/-- Between the states nothing changed but the table, its manifest, its log and the response. -/
structure Touches (env : Env) (tableName : Bytes) (c c' : Call) : Prop where
  fs : ∀ q, q ≠ logPath env tableName → c'.fs q = c.fs q
  tables : ∀ name : Bytes, name ≠ tableName → c'.tablet.tableMap[name]? = c.tablet.tableMap[name]?
  manifests : ∀ name : Bytes, name ≠ tableName →
    c'.tablet.tableManifestMap[name]? = c.tablet.tableManifestMap[name]?
  writer : WritesOwn env tableName c'

section One
variable {env : Env} {tableName : Bytes} {c d c' : Call}

theorem Isolated.touches (h : Isolated env tableName c d) (ht : Touches env tableName c c') :
    Isolated env tableName c'.unset d.unset := by
  refine ⟨rfl, ?_, ?_, ?_, h.absent, ?_, ht.writer⟩
  · intro q hq
    exact (h.fs q hq).trans (ht.fs q hq).symm
  · intro name hname
    exact (h.tables name hname).trans (ht.tables name hname).symm
  · intro name hname
    exact (h.manifests name hname).trans (ht.manifests name hname).symm
  · intro name table hname htable
    exact h.own name table hname ((ht.tables name hname).symm.trans htable)

theorem WritesOwn.withResponse (h : WritesOwn env tableName c) (response : Response) :
    Touches env tableName c { c with response := response } :=
  ⟨fun _ _ => rfl, fun _ _ => rfl, fun _ _ => rfl, h⟩

theorem WritesOwn.onTable (h : WritesOwn env tableName c) {table : Table}
    (htable : c.tablet.tableMap[tableName]? = some table)
    {α : Type} {x : TableM α} (hx : Exec.Keeps TableState.elsewhere x) :
    Touches env tableName c (onTable tableName table x c).2 := by
  have hpath := h table htable
  obtain ⟨hwrites, hothers⟩ := Prod.mk.inj (hx ⟨c.fs, table⟩)
  refine ⟨?_, ?_, fun _ _ => rfl, ?_⟩
  · intro q hq
    have hat := congrFun hothers q
    simp only at hat
    rw [hwrites, hpath, if_neg hq, if_neg hq] at hat
    exact hat
  · intro name hname
    exact getElem?_insert_of_ne c.tablet.tableMap tableName name _ hname
  · intro table' htable'
    change (c.tablet.tableMap.insert tableName _)[tableName]? = some table' at htable'
    rw [ExtTreeMap.getElem?_insert_self] at htable'
    cases htable'
    exact hwrites.trans hpath

theorem WritesOwn.create (h : WritesOwn env tableName c) {statement : Bytes}
    (hname : (splitString env statement (ascii " "))[1]? = some tableName) :
    Touches env tableName c (Tablet.create env statement c).2 := by
  obtain ⟨result, c', hcall, houtcome⟩ := create_outcome env statement c
  have hrefl : Touches env tableName c c := h.withResponse c.response
  rw [hcall]
  rcases houtcome with ⟨fault, -, rfl⟩ | ⟨name, hname', ⟨-, -, rfl⟩ |
    ⟨-, -, schema, table, fs, hnew, rfl⟩⟩
  · exact hrefl
  · exact hrefl
  · cases hname.symm.trans hname'
    obtain ⟨hpath, -, -, -, rfl⟩ := new_ok hnew
    refine ⟨?_, ?_, ?_, ?_⟩
    · intro q hq
      exact Function.update_of_ne hq _ _
    · intro name hne
      exact getElem?_insertIfNew_of_ne c.tablet.tableMap tableName name table hne
    · intro name hne
      exact getElem?_insertIfNew_of_ne c.tablet.tableManifestMap tableName name _ hne
    · intro table' htable'
      rcases getElem?_withTable htable' with ⟨-, rfl⟩ | htable
      · exact hpath
      · exact h table' htable

theorem WritesOwn.ran (h : WritesOwn env tableName c) {α : Type} {x : TableM α}
    (hx : Exec.Keeps TableState.elsewhere x) (hran : Ran (some tableName) x c c') :
    Touches env tableName c c' := by
  cases hran with
  | missing response => exact h.withResponse response
  | ran response hname htable =>
    cases hname
    have hnext := h.onTable htable hx
    exact ⟨hnext.fs, hnext.tables, hnext.manifests, hnext.writer⟩

theorem WritesOwn.putWith (h : WritesOwn env tableName c) {statement : Bytes}
    (hname : (splitString env statement (ascii " "))[1]? = some tableName)
    (answer : Bytes → RpcCode → Response → Response) (io : DiskCalls) :
    Touches env tableName c (Tablet.putWith answer env io statement c).2 := by
  obtain ⟨d, hran, hcounted⟩ := putWith_ran answer env io statement c
  rw [hname] at hran hcounted
  have hnext := h.ran (put_elsewhere env io statement) hran
  generalize (Tablet.putWith answer env io statement c).2 = c' at hcounted ⊢
  cases hcounted with
  | same => exact hnext
  | counted manifest response hname' =>
    cases hname'
    refine ⟨hnext.fs, hnext.tables, ?_, hnext.writer⟩
    intro name hne
    exact (getElem?_insert_of_ne d.tablet.tableManifestMap tableName name _ hne).trans
      (hnext.manifests name hne)

/-- Every call on the table touches it alone. -/
theorem Isolated.call (h : Isolated env tableName c.unset d) {op : TabletOp}
    (hnames : op.names env = some tableName) (hcall : op.call env c = some c') :
    Touches env tableName c.unset c' := by
  cases op with
  | create statement =>
    rw [afterCall_eq hcall]
    exact h.writer.create hnames
  | put io statement =>
    rw [afterCall_eq hcall]
    exact h.writer.putWith hnames _ io
  | putResponse io statement =>
    rw [afterCall_eq hcall]
    exact h.writer.putWith hnames _ io
  | get statement =>
    rw [afterCall_eq hcall]
    have hran := get_ran env statement c.unset
    rw [show (splitString env statement (ascii " "))[1]? = some tableName from hnames] at hran
    exact h.writer.ran (elsewhere_of_files (get_keeps files_blindToReads env statement)) hran
  | getStatements name startOffset endOffset =>
    rw [afterCall_eq hcall]
    cases hnames
    have hkeeps := getBatchData_keeps files_blindToReads env startOffset endOffset
    exact h.writer.ran (elsewhere_of_files hkeeps)
      (getStatements_ran env tableName startOffset endOffset c.unset)
  | flush name k =>
    cases hcall
    cases hnames
    exact h.writer.ran (.modify (elsewhere_drain k)) (flush_ran tableName k c.unset)

/-- In the second run there is no table to read. -/
theorem Isolated.call_absent (h : Isolated env tableName c d.unset) {op : TabletOp}
    (hnames : op.names env = some tableName) (hwrites : ¬ op.Writes env tableName) :
    ∃ d', op.call env d = some d' ∧ d'.unset = d.unset := by
  cases op with
  | create statement => exact absurd hnames hwrites
  | put io statement => exact absurd hnames hwrites
  | putResponse io statement => exact absurd hnames hwrites
  | get statement =>
    have hcall : Tablet.get env statement d.unset = (.ok false,
        { d with response := ⟨some .errorNotFound, some (ascii "table is not found")⟩ }) := by
      rw [Tablet.get, Exec.bind_ok (vectorAt_of_some hnames _), Exec.bind_ok (Exec.get_apply _)]
      simp only [h.absent]
      rfl
    refine ⟨{ d with response := ⟨some .errorNotFound, some (ascii "table is not found")⟩ }, ?_,
      rfl⟩
    rw [TabletOp.call, TabletOp.step, hcall]
    rfl
  | getStatements name startOffset endOffset =>
    obtain rfl : name = tableName := Option.some.inj hnames
    have hcall : Tablet.getStatements env name startOffset endOffset d.unset =
        (.ok [], d.unset) := by
      rw [Tablet.getStatements, Exec.bind_ok (Exec.get_apply _)]
      simp only [h.absent]
      rfl
    refine ⟨d.unset, ?_, rfl⟩
    rw [TabletOp.call, TabletOp.step, hcall]
    rfl
  | flush name k =>
    obtain rfl : name = tableName := Option.some.inj hnames
    refine ⟨d.unset, ?_, rfl⟩
    rw [TabletOp.call, TabletOp.step, Call.flush]
    simp only [h.absent]

end One

end Ibdb.Cluster
