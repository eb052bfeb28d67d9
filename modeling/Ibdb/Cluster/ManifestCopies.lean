import Ibdb.Cluster.TabletNode
import Ibdb.Storage.Frames

/-! The copies of a table's manifest that a tablet keeps, against the log of the table. -/
namespace Ibdb.Cluster
open Base Log Storage
open Std (ExtTreeMap)

namespace Tablet

/-- `GetTableManifest(table_name)`; `none` is the null pointer. -/
def getTableManifest (tablet : Tablet) (tableName : Bytes) : Option TableManifest :=
  tablet.tableManifestMap[tableName]?

def getTabletManifest (tablet : Tablet) : TabletManifest := tablet.tabletManifest

end Tablet

def recordCount (env : Env) (content : Bytes) : ℕ := (walk env content content.length 0).length

/-- The log of a table, written out or held back by stdio. -/
def Call.log (c : Call) (table : Table) : Bytes := TableState.logContents ⟨c.fs, table⟩

/-- For each table the two copies of its manifest have the offset that is the number of records in
its log. -/
def ManifestsAgree (env : Env) (c : Call) : Prop :=
  ∀ (name : Bytes) table, c.tablet.tableMap[name]? = some table →
    ∃ manifest entry, c.tablet.getTableManifest name = some manifest ∧
      entry ∈ c.tablet.getTabletManifest.tableManifest ∧ entry.name = name ∧
      entry.currentOffset = manifest.currentOffset ∧
      manifest.currentOffset = recordCount env (c.log table)

/-- The statement names a table that is not there yet, each of its columns has its three parts, and
the names of the key columns make slices. -/
def CreatesTable (env : Env) (statement : Bytes) (c : Call) (name : Bytes) : Prop :=
  (splitString env statement (ascii " "))[1]? = some name ∧ name ∉ c.tablet.tableMap ∧
    ∃ schema, (Tablet.readFields env ((splitString env statement (ascii " ")).drop 2) c).1 =
      .ok schema ∧ (Table.buildKeys schema Segment.empty).1 = .ok ()

/-- The step makes no table over a log with records in it and puts into no table. -/
def Quiet (env : Env) : TabletOp → Call → Prop
  | .create statement, c => ∀ name, CreatesTable env statement c name →
      recordCount env ((c.fs (logPath env name)).getD []) = 0
  | .put _ statement, c => tableOf env statement c = none
  | .putResponse _ statement, c => tableOf env statement c = none
  | _, _ => True

/-- No `fwrite` of the step is short; its `Sync` may fail. -/
def TabletOp.WritesComplete : TabletOp → Prop
  | .put io statement => Complete io statement
  | .putResponse io statement => Complete io statement
  | _ => True

theorem recordCount_eq_zero_iff {env : Env} {content : Bytes} :
    recordCount env content = 0 ↔ content.length < 12 := by
  have hread : (pread content 4 (0 + 8)).length = min 4 (content.length - 8) := by simp [pread]
  unfold recordCount
  rcases Nat.lt_or_ge content.length 12 with hlt | hge
  · refine iff_of_true ?_ hlt
    cases content.length with
    | zero => rfl
    | succ n =>
      have hne : (pread content 4 (0 + 8)).length ≠ 4 := by omega
      simp [walk, RandomAccessFileHandle.getMessageSize, hne]
  · refine iff_of_false ?_ (by omega)
    obtain ⟨n, hn⟩ := Nat.exists_eq_add_of_le' (show 1 ≤ content.length by omega)
    have heq : (pread content 4 (0 + 8)).length = 4 := by omega
    rw [hn, walk, RandomAccessFileHandle.getMessageSize, if_neg (by simp [heq])]
    simp

/-- What holds of a tablet whatever is put: its own manifest has an entry for each table, and these
entries stay as they were when the table was created. -/
structure EntriesZero (c : Call) : Prop where
  same : SameTables c
  entry : ∀ name ∈ c.tablet.tableMap,
    ∃ entry ∈ c.tablet.tabletManifest.tableManifest, entry.name = name
  zero : ∀ entry ∈ c.tablet.tabletManifest.tableManifest, entry.currentOffset = 0

structure NothingPut (c : Call) : Prop where
  manifest : ∀ (name : Bytes) manifest, c.tablet.tableManifestMap[name]? = some manifest →
    manifest.currentOffset = 0
  buffer : ∀ (name : Bytes) table, c.tablet.tableMap[name]? = some table →
    table.wf.fileHandle.buffer = []
  file : ∀ (name : Bytes) table, c.tablet.tableMap[name]? = some table →
    ((c.fs table.wf.fileHandle.path).getD []).length < 12

section Copies
variable {env : Env} {c c' : Call}

theorem NothingPut.log (h : NothingPut c) {name : Bytes} {table : Table}
    (htable : c.tablet.tableMap[name]? = some table) : (c.log table).length < 12 := by
  have hbuffer := h.buffer name table htable
  have hfile := h.file name table htable
  simp only [Call.log, TableState.logContents, TableState.flushed, TableState.pending, hbuffer,
    List.append_nil]
  exact hfile

theorem NothingPut.agree (h : NothingPut c) (hentries : EntriesZero c) : ManifestsAgree env c := by
  intro name table htable
  have hmem := mem_of_getElem? htable
  obtain ⟨manifest, hmanifest⟩ := Option.isSome_iff_exists.mp
    (ExtTreeMap.mem_iff_isSome_getElem?.mp ((hentries.same name).mp hmem))
  obtain ⟨entry, hentry, hname⟩ := hentries.entry name hmem
  have hzero := h.manifest name manifest hmanifest
  exact ⟨manifest, entry, hmanifest, hentry, hname, (hentries.zero entry hentry).trans hzero.symm,
    hzero.trans (recordCount_eq_zero_iff.mpr (h.log htable)).symm⟩

/-- A log with a record in it disagrees with the entry of its table. -/
theorem EntriesZero.not_agree (h : EntriesZero c) {name : Bytes} {table : Table}
    (htable : c.tablet.tableMap[name]? = some table) (hlog : 12 ≤ (c.log table).length) :
    ¬ ManifestsAgree env c := by
  intro hagree
  obtain ⟨manifest, entry, -, hentry, -, hoffset, hcount⟩ := hagree name table htable
  have hzero : recordCount env (c.log table) = 0 := by
    rw [← hcount, ← hoffset, h.zero entry hentry]
  exact absurd (recordCount_eq_zero_iff.mp hzero) (by omega)

/-- Between the states nothing was written to a log or to a copy of a manifest. -/
structure SameCopies (c c' : Call) : Prop where
  tabletManifest : c'.tablet.tabletManifest = c.tablet.tabletManifest
  tableManifestMap : c'.tablet.tableManifestMap = c.tablet.tableManifestMap
  tables : ∀ (name : Bytes) table', c'.tablet.tableMap[name]? = some table' →
    ∃ table, c.tablet.tableMap[name]? = some table ∧ table'.wf = table.wf
  files : ∀ path, (c'.fs path).getD [] = (c.fs path).getD []

theorem SameCopies.response (c : Call) (response : Response) :
    SameCopies c { c with response := response } :=
  ⟨rfl, rfl, fun _ table htable => ⟨table, htable, rfl⟩, fun _ => rfl⟩

theorem SameCopies.refl (c : Call) : SameCopies c c := .response c c.response

theorem SameCopies.withResponse (h : SameCopies c c') (response : Response) :
    SameCopies c { c' with response := response } :=
  ⟨h.tabletManifest, h.tableManifestMap, h.tables, h.files⟩

theorem NothingPut.of_same (h : NothingPut c) (hsame : SameCopies c c') : NothingPut c' := by
  refine ⟨?_, ?_, ?_⟩
  · intro name manifest hmanifest
    rw [hsame.tableManifestMap] at hmanifest
    exact h.manifest name manifest hmanifest
  · intro name table' htable'
    obtain ⟨table, htable, hwf⟩ := hsame.tables name table' htable'
    rw [hwf]
    exact h.buffer name table htable
  · intro name table' htable'
    obtain ⟨table, htable, hwf⟩ := hsame.tables name table' htable'
    rw [hwf, hsame.files]
    exact h.file name table htable

theorem EntriesZero.of_same (h : EntriesZero c) (hsame : SameCopies c c')
    (htables : SameTables c') : EntriesZero c' := by
  refine ⟨htables, ?_, ?_⟩
  · intro name hmem
    obtain ⟨table', htable'⟩ := Option.isSome_iff_exists.mp
      (ExtTreeMap.mem_iff_isSome_getElem?.mp hmem)
    obtain ⟨table, htable, -⟩ := hsame.tables name table' htable'
    rw [hsame.tabletManifest]
    exact h.entry name (mem_of_getElem? htable)
  · rw [hsame.tabletManifest]
    exact h.zero

/-- An operation that leaves the file system and the writer of its table as they were, for all that
readers of files can tell. -/
theorem SameCopies.onTable {α : Type} {name : Bytes} {table : Table}
    (htable : c.tablet.tableMap[name]? = some table) {x : TableM α}
    (hwf : (x ⟨c.fs, table⟩).2.table.wf = table.wf)
    (hfs : ∀ path, ((x ⟨c.fs, table⟩).2.fs path).getD [] = (c.fs path).getD []) :
    SameCopies c (onTable name table x c).2 := by
  refine ⟨rfl, rfl, ?_, hfs⟩
  intro name' table' htable'
  change (c.tablet.tableMap.insert name (x ⟨c.fs, table⟩).2.table)[name']? = some table' at htable'
  rw [ExtTreeMap.getElem?_insert] at htable'
  split_ifs at htable' with heq
  · obtain rfl := Std.compare_eq_iff_eq.mp heq
    exact ⟨table, htable, (Option.some.inj htable') ▸ hwf⟩
  · exact ⟨table', htable', rfl⟩

theorem SameCopies.onTable_of_keeps {α : Type} {name : Bytes} {table : Table}
    (htable : c.tablet.tableMap[name]? = some table) {x : TableM α}
    (hx : Exec.Keeps TableState.files x) : SameCopies c (Cluster.onTable name table x c).2 := by
  have hfiles := hx ⟨c.fs, table⟩
  refine .onTable htable (congrArg Prod.snd hfiles) fun path => ?_
  rw [show (x ⟨c.fs, table⟩).2.fs = c.fs from congrArg Prod.fst hfiles]

theorem SameCopies.ran {α : Type} {name : Option Bytes} {x : TableM α}
    (hx : Exec.Keeps TableState.files x) (h : Ran name x c c') : SameCopies c c' := by
  cases h with
  | missing response => exact .response c response
  | ran response _ htable => exact (onTable_of_keeps htable hx).withResponse response

/-! The operations one by one. -/

/-- Opening a file for appending changes no bytes. -/
theorem getD_append_nil (fs : FileSystem) (p q : Path) :
    (fs.append p [] q).getD [] = (fs q).getD [] := by
  unfold FileSystem.append
  by_cases heq : q = p
  · rw [heq, Function.update_self, List.append_nil, Option.getD_some]
  · rw [Function.update_of_ne heq]

theorem NothingPut.flush (h : NothingPut c) (tableName : Bytes) (k : ℕ) :
    SameCopies c (c.flush tableName k) := by
  unfold Call.flush
  cases htable : c.tablet.tableMap[tableName]? with
  | none => exact .refl c
  | some table =>
    have hbuffer := h.buffer tableName table htable
    refine .onTable htable ?_ fun path => ?_
    · change { table.wf with fileHandle := { table.wf.fileHandle with
        buffer := table.wf.fileHandle.buffer.drop k } } = table.wf
      rw [hbuffer, List.drop_nil, ← hbuffer]
    · change (c.fs.append table.wf.fileHandle.path (table.wf.fileHandle.buffer.take k) path).getD []
        = _
      rw [hbuffer, List.take_nil, getD_append_nil]

theorem SameCopies.putWith (answer : Bytes → RpcCode → Response → Response) (io : DiskCalls)
    {statement : Bytes} (h : tableOf env statement c = none) :
    SameCopies c (Tablet.putWith answer env io statement c).2 := by
  cases hname : (splitString env statement (ascii " "))[1]? with
  | none =>
    rw [Tablet.putWith, Exec.bind_error (vectorAt_of_none hname c)]
    exact .refl c
  | some name =>
    rw [putWith_of_missing hname (tableOf_eq_none hname h)]
    exact .response c _

/-- A `Put` into a table keeps the tablet's own manifest, and its table is where it was. -/
theorem putWith_into (answer : Bytes → RpcCode → Response → Response) (io : DiskCalls)
    {statement name : Bytes} {table : Table} (h : tableOf env statement c = some (name, table)) :
    let s := (Table.put env io statement ⟨c.fs, table⟩).2
    let c' := (Tablet.putWith answer env io statement c).2
    c'.tablet.tabletManifest = c.tablet.tabletManifest ∧ c'.fs = s.fs ∧
      c'.tablet.tableMap = c.tablet.tableMap.insert name s.table := by
  intro s c'
  obtain ⟨hname, htable⟩ := tableOf_eq_some.mp h
  obtain ⟨d, hran, hcounted⟩ := putWith_ran answer env io statement c
  cases hran with
  | missing _ hnone => cases htable.symm.trans (hnone name hname)
  | ran _ hname' htable' =>
    cases hname.symm.trans hname'
    cases htable.symm.trans htable'
    change Counted _ _ c' at hcounted
    generalize c' = e at hcounted
    cases hcounted <;> exact ⟨rfl, rfl, rfl⟩

/-- A `Put` that comes back with its writes complete leaves a record in the log. -/
theorem put_log_length {io : DiskCalls} {statement : Bytes} {s : TableState}
    (hio : Complete io statement)
    (hback : ∀ fault, (Table.put env io statement s).1 = .error fault → fault.isException = true) :
    12 ≤ (Table.put env io statement s).2.logContents.length := by
  obtain ⟨hf, hs⟩ := stream_and_length_of_put hback
  have hframe : 12 ≤ (frame io s.table.currentOffset statement).length := by
    rw [frame_complete hio, record_length]
    omega
  by_cases hsync : s.table.SyncDue → io.sync = none
  · obtain ⟨t, ht, hcontents, -⟩ := putDisk_written env io hf hs hsync
    rw [put_of_putDisk ht]
    change 12 ≤ t.logContents.length
    rw [hcontents, List.length_append]
    omega
  · have hfailed : s.table.SyncDue ∧ io.sync ≠ none := by tauto
    obtain ⟨k, hk⟩ := Option.ne_none_iff_exists'.mp hfailed.2
    obtain ⟨t, ht, hcontents, -⟩ := putDisk_sync_failed env io hf hs hfailed.1 hk
    rw [put_of_putDisk_false ht, hcontents, List.length_append]
    omega

/-- A `Put` into a table breaks the agreement. -/
theorem EntriesZero.not_agree_of_put (h : EntriesZero c)
    {answer : Bytes → RpcCode → Response → Response} {io : DiskCalls} {statement : Bytes}
    (htable : tableOf env statement c ≠ none)
    (hstep : afterCall (Tablet.putWith answer env io statement c) = some c') :
    EntriesZero c' ∧ (Complete io statement → ¬ ManifestsAgree env c') := by
  obtain ⟨⟨name, table⟩, hfound⟩ := Option.ne_none_iff_exists'.mp htable
  obtain ⟨hmanifest, hfs, hmap⟩ := putWith_into answer io hfound
  have hback : ∀ fault, (Table.put env io statement ⟨c.fs, table⟩).1 = .error fault →
      fault.isException = true := by
    intro fault hfault
    refine isException_of_afterCall hstep fault ?_
    rw [putWith_of_error hfound hfault]
  obtain ⟨result, d, hcall, hsame, -⟩ := putWith_cases env answer io statement h.same
  rw [hcall] at hmanifest hfs hmap hstep
  obtain rfl : c' = d := afterCall_eq hstep
  have hget : c'.tablet.tableMap[name]? =
      some (Table.put env io statement ⟨c.fs, table⟩).2.table := by
    rw [hmap, ExtTreeMap.getElem?_insert_self]
  have hentries : EntriesZero c' := by
    refine ⟨hsame, fun name' hmem => ?_, by rw [hmanifest]; exact h.zero⟩
    rw [hmap, ExtTreeMap.mem_insert] at hmem
    rw [hmanifest]
    rcases hmem with heq | hmem
    · obtain rfl := Std.compare_eq_iff_eq.mp heq
      exact h.entry name (mem_of_getElem? (tableOf_eq_some.mp hfound).2)
    · exact h.entry name' hmem
  refine ⟨hentries, fun hio => hentries.not_agree hget ?_⟩
  rw [Call.log, hfs]
  exact put_log_length hio hback

theorem NothingPut.putWith (h : NothingPut c) (hentries : EntriesZero c)
    {answer : Bytes → RpcCode → Response → Response} {io : DiskCalls} {statement : Bytes}
    (hstep : afterCall (Tablet.putWith answer env io statement c) = some c') :
    EntriesZero c' ∧ (tableOf env statement c = none → NothingPut c') ∧
      (Complete io statement → tableOf env statement c ≠ none → ¬ ManifestsAgree env c') := by
  by_cases htable : tableOf env statement c = none
  · have hsame := SameCopies.putWith answer io htable
    obtain ⟨_, d, hcall, htables, -⟩ := putWith_cases env answer io statement hentries.same
    rw [hcall] at hstep hsame
    obtain rfl : c' = d := afterCall_eq hstep
    exact ⟨hentries.of_same hsame htables, fun _ => h.of_same hsame, fun _ hne => absurd htable hne⟩
  · obtain ⟨hnext, hnot⟩ := hentries.not_agree_of_put htable hstep
    exact ⟨hnext, fun hnone => absurd hnone htable, fun hio _ => hnot hio⟩

/-- `Create` answers true when it makes the table. -/
theorem create_true_iff {statement : Bytes} :
    (Tablet.create env statement c).1 = .ok true ↔ ∃ name, CreatesTable env statement c name := by
  unfold CreatesTable
  cases hname : (splitString env statement (ascii " "))[1]? with
  | none =>
    rw [Tablet.create, Exec.bind_error (vectorAt_of_none hname c)]
    simp
  | some name =>
    rw [Tablet.create, Exec.bind_ok (vectorAt_of_some hname c), Exec.bind_ok (Exec.get_apply c)]
    by_cases hmem : c.tablet.tableMap.contains name = true
    · have hmem' : name ∈ c.tablet.tableMap := hmem
      simp [hmem']
    · have hmem' : name ∉ c.tablet.tableMap := hmem
      have hkeeps := readFields_keeps env
        ((splitString env statement (ascii " ")).drop 2) c
      simp only [hmem, Bool.false_eq_true, if_false]
      rcases hfields : Tablet.readFields env ((splitString env statement (ascii " ")).drop 2) c
        with ⟨fault | schema, d⟩ <;> rw [hfields] at hkeeps <;> obtain rfl : d = c := hkeeps
      · rw [Exec.bind_error hfields]
        simp
      · rw [Exec.bind_ok hfields]
        have hnew := @new_returns_iff env name schema d.fs
        rcases hcall : Table.new env name schema d.fs with ⟨fault | table, fs⟩ <;>
          rw [hcall] at hnew
        · have hzoom : Exec.zoom (·.fs) (fun fs c => { c with fs := fs })
              (Table.new env name schema) d = (.error fault, { d with fs := fs }) := by
            rw [Exec.zoom_apply, hcall]
          rw [Exec.bind_error hzoom]
          refine iff_of_false (fun heq => by cases heq) ?_
          rintro ⟨name', -, -, schema', hschema', hbuild⟩
          obtain rfl : schema = schema' := Except.ok.inj hschema'
          obtain ⟨table, htable⟩ := hnew.mpr hbuild
          cases htable
        · have hzoom : Exec.zoom (·.fs) (fun fs c => { c with fs := fs })
              (Table.new env name schema) d = (.ok table, { d with fs := fs }) := by
            rw [Exec.zoom_apply, hcall]
          rw [Exec.bind_ok hzoom]
          exact iff_of_true rfl ⟨name, rfl, hmem', schema, rfl, hnew.mp ⟨table, rfl⟩⟩

section WithTable
variable {name : Bytes} {schema : List Field} {table : Table} {fs : FileSystem}

theorem EntriesZero.withTable (h : EntriesZero c)
    (hnew : Table.new env name schema c.fs = (.ok table, fs)) :
    EntriesZero { c with fs := fs, tablet := c.tablet.withTable name table } := by
  obtain ⟨-, -, hname, hoffset, -⟩ := new_ok hnew
  refine ⟨h.same.withTable fs name table, ?_, ?_⟩
  · intro name' hmem
    change name' ∈ c.tablet.tableMap.insertIfNew name table at hmem
    rw [ExtTreeMap.mem_insertIfNew] at hmem
    rcases hmem with heq | hmem
    · obtain rfl := Std.compare_eq_iff_eq.mp heq
      exact ⟨table.tableManifest, by simp [Tablet.withTable], hname⟩
    · obtain ⟨entry, hentry, hname'⟩ := h.entry name' hmem
      exact ⟨entry, by simp [Tablet.withTable, hentry], hname'⟩
  · intro entry hentry
    rcases List.mem_append.mp hentry with hentry | hentry
    · exact h.zero entry hentry
    · rw [List.mem_singleton.mp hentry, hoffset]

theorem NothingPut.withTable (h : NothingPut c)
    (hnew : Table.new env name schema c.fs = (.ok table, fs))
    (hlog : recordCount env ((c.fs (logPath env name)).getD []) = 0) :
    NothingPut { c with fs := fs, tablet := c.tablet.withTable name table } := by
  obtain ⟨hpath, hbuffer, -, hoffset, rfl⟩ := new_ok hnew
  refine ⟨?_, ?_, ?_⟩
  · intro name' manifest hmanifest
    change (c.tablet.tableManifestMap.insertIfNew name table.tableManifest)[name']? =
      some manifest at hmanifest
    rw [ExtTreeMap.getElem?_insertIfNew] at hmanifest
    split_ifs at hmanifest
    · rw [← Option.some.inj hmanifest, hoffset]
    · exact h.manifest name' manifest hmanifest
  · intro name' table' htable'
    rcases getElem?_withTable htable' with ⟨-, rfl⟩ | htable
    · exact hbuffer
    · exact h.buffer name' table' htable
  · intro name' table' htable'
    simp only [getD_append_nil]
    rcases getElem?_withTable htable' with ⟨-, rfl⟩ | htable
    · rw [hpath]
      exact recordCount_eq_zero_iff.mp hlog
    · exact h.file name' table' htable

end WithTable

/-- A step of a tablet into which nothing was put: when it is quiet it leaves the tablet so, and
otherwise it breaks the agreement. -/
theorem NothingPut.step (h : NothingPut c) (hentries : EntriesZero c) {op : TabletOp}
    (hstep : TabletOp.step env op c = some c') :
    EntriesZero c' ∧ (Quiet env op c → NothingPut c') ∧
      (op.WritesComplete → ¬ Quiet env op c → ¬ ManifestsAgree env c') := by
  cases op with
  | create statement =>
    obtain ⟨result, d, hcall, houtcome⟩ := create_outcome env statement c
    rw [TabletOp.step, hcall] at hstep
    obtain rfl : c' = d := afterCall_eq hstep
    have hcreates := @create_true_iff env c statement
    rw [hcall] at hcreates
    rcases houtcome with ⟨fault, hr, rfl⟩ | ⟨name, hname, ⟨hmem, hr, rfl⟩ |
      ⟨hmem, hr, schema, table, fs, hnew, rfl⟩⟩
    · refine ⟨hentries, fun _ => h, fun _ hnot => absurd ?_ hnot⟩
      intro name hname
      have htrue := hcreates.mpr ⟨name, hname⟩
      rw [hr] at htrue
      cases htrue
    · refine ⟨hentries, fun _ => h, fun _ hnot => absurd ?_ hnot⟩
      intro name hname
      have htrue := hcreates.mpr ⟨name, hname⟩
      rw [hr] at htrue
      cases htrue
    · have hnext := hentries.withTable hnew
      refine ⟨hnext, fun hquiet => ?_, fun _ hnot => ?_⟩
      · obtain ⟨name', hcreate⟩ := hcreates.mp hr
        obtain rfl : name' = name := Option.some.inj (hcreate.1.symm.trans hname)
        exact h.withTable hnew (hquiet name' hcreate)
      · have hget : (c.tablet.withTable name table).tableMap[name]? = some table := by
          change (c.tablet.tableMap.insertIfNew name table)[name]? = some table
          rw [ExtTreeMap.getElem?_insertIfNew, if_pos ⟨Std.ReflCmp.compare_self, hmem⟩]
        obtain ⟨hpath, hbuffer, -, -, rfl⟩ := new_ok hnew
        refine hnext.not_agree hget (Nat.not_lt.mp fun hlt => hnot ?_)
        intro name' hcreate
        obtain rfl : name = name' := Option.some.inj (hname.symm.trans hcreate.1)
        rw [recordCount_eq_zero_iff]
        simpa [Call.log, TableState.logContents, TableState.flushed, TableState.pending, hbuffer,
          hpath, getD_append_nil] using hlt
  | put io statement => exact h.putWith hentries hstep
  | putResponse io statement => exact h.putWith hentries hstep
  | get statement =>
    have hsame := SameCopies.ran (get_keeps files_blindToReads env statement)
      (get_ran env statement c)
    rw [← afterCall_eq hstep] at hsame
    exact ⟨hentries.of_same hsame (hentries.same.step hstep), fun _ => h.of_same hsame,
      fun _ hnot => absurd trivial hnot⟩
  | getStatements tableName startOffset endOffset =>
    have hsame := SameCopies.ran (getBatchData_keeps files_blindToReads env startOffset endOffset)
      (getStatements_ran env tableName startOffset endOffset c)
    rw [← afterCall_eq hstep] at hsame
    exact ⟨hentries.of_same hsame (hentries.same.step hstep), fun _ => h.of_same hsame,
      fun _ hnot => absurd trivial hnot⟩
  | flush tableName k =>
    have hsame := h.flush tableName k
    have htables := hentries.same.ran (flush_ran tableName k c)
    rw [← Option.some.inj hstep]
    exact ⟨hentries.of_same hsame htables, fun _ => h.of_same hsame,
      fun _ hnot => absurd trivial hnot⟩

theorem EntriesZero.init (endpoint : Bytes) (isLeader : Bool) (fs : FileSystem)
    (response : Response) : EntriesZero ⟨fs, Tablet.init endpoint isLeader, response⟩ := by
  refine ⟨fun name => ?_, fun name hmem => ?_, fun entry hentry => ?_⟩
  · simp [Tablet.init]
  · simp [Tablet.init] at hmem
  · simp [Tablet.init] at hentry

theorem NothingPut.init (endpoint : Bytes) (isLeader : Bool) (fs : FileSystem)
    (response : Response) : NothingPut ⟨fs, Tablet.init endpoint isLeader, response⟩ := by
  refine ⟨fun name manifest h => ?_, fun name table h => ?_, fun name table h => ?_⟩
  · simp [Tablet.init] at h
  · simp [Tablet.init] at h
  · simp [Tablet.init] at h

/-- Along a run of a new tablet whose steps are quiet, nothing is put into any table. -/
theorem nothingPut_of_quiet {c₀ : Call} (hentries : EntriesZero c₀) (hput : NothingPut c₀)
    {ops : List TabletOp} (h : Run.Along (TabletOp.step env) (Quiet env) ops c₀) :
    Run.Always (TabletOp.step env) (fun c => EntriesZero c ∧ NothingPut c) ops c₀ := by
  refine Run.always_of_along ⟨hentries, hput⟩ ?_ h
  intro op c c' hw hquiet hstep
  obtain ⟨hnext, hkeeps, -⟩ := hw.2.step hw.1 hstep
  exact ⟨hnext, hkeeps hquiet⟩

/-- The copies of the manifests agree with the logs in every state of a run whose steps are quiet;
and when no write is short, they do so in no other run. -/
theorem manifestsAgree_run (endpoint : Bytes) (isLeader : Bool) (fs : FileSystem)
    (response : Response) {ops : List TabletOp} {c : Call}
    (hrun : run (TabletOp.step env) ops ⟨fs, Tablet.init endpoint isLeader, response⟩ = some c) :
    (Run.Along (TabletOp.step env) (Quiet env) ops
        ⟨fs, Tablet.init endpoint isLeader, response⟩ →
      Run.Always (TabletOp.step env) (ManifestsAgree env) ops
        ⟨fs, Tablet.init endpoint isLeader, response⟩) ∧
    ((∀ op ∈ ops, op.WritesComplete) →
      Run.Always (TabletOp.step env) (ManifestsAgree env) ops
        ⟨fs, Tablet.init endpoint isLeader, response⟩ →
      Run.Along (TabletOp.step env) (Quiet env) ops
        ⟨fs, Tablet.init endpoint isLeader, response⟩) := by
  have hentries := EntriesZero.init endpoint isLeader fs response
  have hput := NothingPut.init endpoint isLeader fs response
  generalize (⟨fs, Tablet.init endpoint isLeader, response⟩ : Call) = c₀ at *
  constructor
  · intro hquiet pre t hpre ht
    obtain ⟨hnext, hnothing⟩ := nothingPut_of_quiet hentries hput hquiet pre t hpre ht
    exact hnothing.agree hnext
  · induction ops using List.reverseRecOn generalizing c with
    | nil => exact fun _ _ => Run.along_nil _ _
    | append_singleton ops op ih =>
      intro hio hagree
      obtain ⟨t, ht, hstep⟩ := Run.run_concat.mp hrun
      have hquiet := ih ht (fun op' hop => hio op' (List.mem_append_left _ hop))
        (hagree.of_prefix (List.prefix_append _ _))
      refine Run.along_concat.mpr ⟨hquiet, fun u hu => ?_⟩
      obtain rfl : t = u := Option.some.inj (ht.symm.trans hu)
      obtain ⟨hnext, hnothing⟩ :=
        nothingPut_of_quiet hentries hput hquiet ops t List.prefix_rfl ht
      obtain ⟨-, -, hbreaks⟩ := hnothing.step hnext hstep
      by_contra hnot
      exact hbreaks (hio op (by simp)) hnot (hagree _ c List.prefix_rfl hrun)

end Copies

theorem quiet_create (statement : Bytes) : Quiet Env.default (.create statement) newNode :=
  fun _ _ => recordCount_eq_zero_iff.mpr (show 0 < 12 by decide)

theorem manifestsAgree_run_create :
    Run.Always (TabletOp.step Env.default) (ManifestsAgree Env.default)
      [.create (ascii "create t c,string,true timestamp,uint64_t,false")] newNode := by
  refine (manifestsAgree_run _ _ _ _ run_nodeWithTable).1 ?_
  refine Run.along_concat.mpr ⟨Run.along_nil _ _, fun c hc => ?_⟩
  obtain rfl : newNode = c := Option.some.inj hc
  exact quiet_create _

def nodeAfterPut : Call :=
  (Tablet.put Env.default .ok (ascii "insert t c,timestamp 1,7") nodeWithTable).2

theorem step_nodeAfterPut :
    TabletOp.step Env.default (.put .ok (ascii "insert t c,timestamp 1,7")) nodeWithTable =
      some nodeAfterPut := by
  have hput : (Tablet.put Env.default .ok (ascii "insert t c,timestamp 1,7") nodeWithTable).1 =
      .ok true := by
    decide +kernel
  unfold nodeAfterPut
  generalize nodeWithTable = c at *
  rw [TabletOp.step]
  exact afterCall_of_ok hput

/-- After one `Put` the copy in the map has the offset 1 and the entry of the tablet's own manifest
still has the offset 0. -/
theorem copies_differ_after_put :
    run (TabletOp.step Env.default)
        [.create (ascii "create t c,string,true timestamp,uint64_t,false"),
          .put .ok (ascii "insert t c,timestamp 1,7")] newNode = some nodeAfterPut ∧
      (nodeAfterPut.tablet.getTableManifest (ascii "t")).map (·.currentOffset) = some 1 ∧
      nodeAfterPut.tablet.getTabletManifest.tableManifest.map (·.currentOffset) = [0] ∧
      ¬ ManifestsAgree Env.default nodeAfterPut := by
  have hnew : EntriesZero newNode := .init _ _ _ _
  have hput : NothingPut newNode := .init _ _ _ _
  obtain ⟨hnode, hquiet, -⟩ := hput.step hnew step_nodeWithTable
  obtain ⟨-, -, hbreaks⟩ := (hquiet (quiet_create _)).step hnode step_nodeAfterPut
  refine ⟨?_, by decide +kernel, by decide +kernel, hbreaks (Complete.ok _) fun hnone => ?_⟩
  · rw [run, step_nodeWithTable, Option.bind_some, run, step_nodeAfterPut, Option.bind_some, run]
  · have hfound : (tableOf Env.default (ascii "insert t c,timestamp 1,7") nodeWithTable).isSome =
        true := by
      decide +kernel
    change tableOf _ _ _ = none at hnone
    rw [hnone] at hfound
    cases hfound

end Ibdb.Cluster
