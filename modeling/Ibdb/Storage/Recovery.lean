import Ibdb.Storage.Answers
import Ibdb.Storage.DiskRun

/-! The table that is rebuilt from a manifest: the offset it starts from, and its first `Put`. -/
namespace Ibdb.Storage
open Base Log

/-- The members that `Table(const TableManifest&)` leaves out: pointers and a number without an
initialiser. `rf_` is one more, but `FindMessage` sets it before each use. -/
structure Table.Members where
  segmentIndex : Segment
  wf : WritableFileHandle
  diskCacheThreshold : ℕ

/-- An object of class `Table`, by either constructor. `none` stands for members whose values are
indeterminate; the containers have constructors of their own and are empty at first. -/
structure TableObject where
  tableManifest : TableManifest
  currentOffset : ℕ
  members : Option Table.Members
  logReaderMap : Std.ExtTreeMap Bytes RandomAccessFileHandle compare
  offsetPosMap : OffsetPosMap
  offsetMessage : Std.ExtTreeMap ℕ Bytes compare

namespace Table

/-- The object that the first constructor and the calls after it make. -/
def object (t : Table) : TableObject where
  tableManifest := t.tableManifest
  currentOffset := t.currentOffset
  members := some ⟨t.segmentIndex, t.wf, t.diskCacheThreshold⟩
  logReaderMap := t.logReaderMap
  offsetPosMap := t.offsetPosMap
  offsetMessage := t.offsetMessage

/-- `Table(const TableManifest&)`. -/
def recover (tmanifest : TableManifest) : TableObject where
  tableManifest := tmanifest
  currentOffset := tmanifest.currentOffset
  members := none
  logReaderMap := ∅
  offsetPosMap := ∅
  offsetMessage := ∅

/-- `GetTableManifest()`; `GetTableManifestString()` is the same in serialised form. -/
def getTableManifest (t : Table) : TableManifest := t.tableManifest

end Table

namespace TableObject

/-- The table, once all members have values. -/
def table? (o : TableObject) : Option Table :=
  o.members.map fun members =>
    ⟨o.tableManifest, o.currentOffset, members.segmentIndex, members.wf, o.logReaderMap,
      members.diskCacheThreshold, o.offsetPosMap, o.offsetMessage⟩

/-- Code that goes through `wf_` or `segment_index_`; an indeterminate pointer must not be read. -/
def onMembers {α : Type} (x : TableM α) : Exec Fault (FileSystem × TableObject) α :=
  fun (fs, o) =>
    match o.table? with
    | none => (.error .undefined, fs, o)
    | some table =>
      let (result, s) := x ⟨fs, table⟩
      (result, s.fs, s.table.object)

/-- The first thing `PutDisk` does is `wf_->GetCurrentPos()`. -/
def putDisk (env : Env) (io : DiskCalls) (statement : Bytes) :
    Exec Fault (FileSystem × TableObject) Bool :=
  onMembers (Table.putDisk env io statement)

def put (env : Env) (io : DiskCalls) (statement : Bytes) :
    Exec Fault (FileSystem × TableObject) Bool := do
  let result := splitString env statement (ascii " ")
  let currentOffset := (← Exec.get).2.currentOffset
  if !(← putDisk env io statement) then return false else
  onMembers (Table.indexStatement env result currentOffset)

/-- The log file with what waits in the buffer of the writer. -/
def logContents (fs : FileSystem) (o : TableObject) : Bytes :=
  (o.table?.map fun table => TableState.logContents ⟨fs, table⟩).getD []

/-- A `Put` that comes back and has written its record with this offset. -/
def PutAssigns (env : Env) (io : DiskCalls) (statement : Bytes) (fs : FileSystem) (o : TableObject)
    (offset : ℕ) : Prop :=
  ∃ fs' o', afterCall (put env io statement (fs, o)) = some (fs', o') ∧
    o'.logContents fs' = o.logContents fs ++ record offset (stored statement)

end TableObject

section Object
variable {env : Env} {io : DiskCalls} {statement : Bytes}

theorem onMembers_object {α : Type} (x : TableM α) (s : TableState) :
    TableObject.onMembers x (s.fs, s.table.object) =
      ((x s).1, (x s).2.fs, (x s).2.table.object) := rfl

theorem onMembers_none {α : Type} (x : TableM α) (fs : FileSystem) {o : TableObject}
    (h : o.members = none) : TableObject.onMembers x (fs, o) = (.error .undefined, fs, o) := by
  simp [TableObject.onMembers, TableObject.table?, h]

/-- On an object that the first constructor made, `Put` is the `Put` of the table. -/
theorem put_object (s : TableState) :
    TableObject.put env io statement (s.fs, s.table.object) =
      ((Table.put env io statement s).1, (Table.put env io statement s).2.fs,
        (Table.put env io statement s).2.table.object) := by
  have hdisk : TableObject.putDisk env io statement (s.fs, s.table.object) = _ :=
    onMembers_object (Table.putDisk env io statement) s
  rcases hput : Table.putDisk env io statement s with ⟨fault | done, t⟩
  · rw [hput] at hdisk
    have htable : Table.put env io statement s = (.error fault, t) := by
      rw [Table.put, Exec.bind_ok (Exec.get_apply s), Exec.bind_error hput]
    rw [TableObject.put, Exec.bind_ok (Exec.get_apply _), Exec.bind_error hdisk, htable]
  · rw [hput] at hdisk
    have htable : Table.put env io statement s =
        (if !done then pure false else Table.indexStatement env
          (splitString env statement (ascii " ")) s.table.currentOffset) t := by
      rw [Table.put, Exec.bind_ok (Exec.get_apply s), Exec.bind_ok hput]
    rw [TableObject.put, Exec.bind_ok (Exec.get_apply _), Exec.bind_ok hdisk, htable]
    cases done with
    | false => rfl
    | true => exact onMembers_object (Table.indexStatement env _ _) t

theorem putAssigns_object_iff (s : TableState) (offset : ℕ) :
    s.table.object.PutAssigns env io statement s.fs offset ↔
      ∃ t, afterCall (Table.put env io statement s) = some t ∧
        t.logContents = s.logContents ++ record offset (stored statement) := by
  unfold TableObject.PutAssigns
  rw [put_object]
  constructor
  · rintro ⟨fs', o', hcall, hcontents⟩
    obtain ⟨rfl, rfl⟩ := Prod.mk.inj (afterCall_eq hcall)
    exact ⟨_, afterCall_congr (by rfl) hcall, hcontents⟩
  · rintro ⟨t, hcall, hcontents⟩
    obtain rfl := afterCall_eq hcall
    exact ⟨_, _, afterCall_congr (by rfl) hcall, hcontents⟩

/-- A `Put` goes through `wf_` before it has written anything. -/
theorem put_none (fs : FileSystem) {o : TableObject} (h : o.members = none) :
    TableObject.put env io statement (fs, o) = (.error .undefined, fs, o) := by
  rw [TableObject.put, Exec.bind_ok (Exec.get_apply _), TableObject.putDisk,
    Exec.bind_error (onMembers_none _ fs h)]

theorem not_putAssigns_none (fs : FileSystem) {o : TableObject} (h : o.members = none)
    (offset : ℕ) : ¬ o.PutAssigns env io statement fs offset := by
  rintro ⟨fs', o', hcall, -⟩
  rw [put_none fs h] at hcall
  cases hcall

theorem record_offset_congr {i j : ℕ} {m : Bytes} (h : record i m = record j m) (m' : Bytes) :
    record i m' = record j m' := by
  unfold record at h ⊢
  simp only [List.append_assoc] at h ⊢
  rw [(List.append_inj h (by simp)).1]

/-- Without I/O failure the record of a `Put` that comes back has the offset of the counter. -/
theorem logContents_put {s t : TableState} (hio : Complete io statement) (hsync : io.sync = none)
    (h : afterCall (Table.put env io statement s) = some t) :
    t.logContents = s.logContents ++ record s.table.currentOffset (stored statement) := by
  obtain ⟨hf, hs⟩ := stream_and_length_of_put (isException_of_afterCall h)
  obtain ⟨u, hu, hcontents, -⟩ := putDisk_written env io hf hs fun _ => hsync
  rw [put_of_putDisk hu] at h
  rw [afterCall_eq h, ← frame_complete hio]
  exact hcontents

/-- Whatever values the members have, the record gets the offset of the manifest. -/
theorem record_of_putAssigns {tmanifest : TableManifest} {members : Option Table.Members}
    {fs : FileSystem} {offset : ℕ} (hio : Complete io statement) (hsync : io.sync = none)
    (h : { Table.recover tmanifest with members := members }.PutAssigns env io statement fs offset)
    (m : Bytes) : record offset m = record tmanifest.currentOffset m := by
  cases members with
  | none => exact absurd h (not_putAssigns_none fs rfl offset)
  | some members =>
    let table : Table := ⟨tmanifest, tmanifest.currentOffset, members.segmentIndex, members.wf, ∅,
      members.diskCacheThreshold, ∅, ∅⟩
    obtain ⟨t, hcall, hcontents⟩ := (putAssigns_object_iff ⟨fs, table⟩ offset).mp h
    rw [logContents_put hio hsync hcall] at hcontents
    exact record_offset_congr (List.append_cancel_left hcontents).symm m

end Object

inductive WriteOp
  | putDisk (io : DiskCalls) (statement : Bytes)
  | put (io : DiskCalls) (statement : Bytes)
  | flush (k : ℕ)

namespace WriteOp

def step (env : Env) : WriteOp → TableState → Option TableState
  | putDisk io statement, s => afterCall (Table.putDisk env io statement s)
  | put io statement, s => afterCall (Table.put env io statement s)
  | flush k, s => some (s.drain k)

def statement? : WriteOp → Option Bytes
  | putDisk _ statement => some statement
  | put _ statement => some statement
  | flush _ => none

/-- The statements given to `PutDisk`, directly or by `Put`, in order. -/
def statements (ops : List WriteOp) : List Bytes := ops.filterMap statement?

def Succeeds : WriteOp → Prop
  | putDisk io statement => Complete io statement ∧ io.sync = none
  | put io statement => Complete io statement ∧ io.sync = none
  | flush _ => True

theorem statements_concat (ops : List WriteOp) (op : WriteOp) :
    statements (ops ++ [op]) = statements ops ++ op.statement?.toList := by
  cases h : op.statement? <;> simp [statements, h]

end WriteOp

/-- The record with this offset is in the log, after whole records. -/
def InLog (content : Bytes) (offset : ℕ) : Prop :=
  ∃ before m after, content = logBytes before ++ record offset m ++ after

/-- The manifest carries the number of the `n` records written, as the live counter does, and to
its first `Put` a table rebuilt from it assigns an offset that is not in the log. -/
structure RecoversNext (env : Env) (n : ℕ) (s : TableState) : Prop where
  manifest : s.table.getTableManifest.currentOffset = s.table.currentOffset
  live : s.table.currentOffset = n
  fresh : ∀ io statement, Complete io statement → io.sync = none → statement.length < 2 ^ 31 →
    ∃ offset, (Table.recover s.table.getTableManifest).PutAssigns env io statement s.fs offset ∧
      ¬ InLog s.logContents offset

structure ManifestInv (env : Env) (tableName : Bytes) (ms : List Bytes) (s : TableState) :
    Prop where
  log : LogInv env tableName ms s
  manifest : s.table.tableManifest.currentOffset = (ms.length - 1) % 2 ^ 64

section Recovery
variable {env : Env} {tableName : Bytes} {schema : List Field} {ms : List Bytes}
  {s₀ s t : TableState} {ops : List WriteOp}

theorem ManifestInv.created (h : Created env tableName schema [] s) :
    ManifestInv env tableName [] s := by
  refine ⟨.created h, ?_⟩
  obtain ⟨fs, seg, -, -, rfl⟩ := created_iff.mp h
  rfl

theorem ManifestInv.drain (h : ManifestInv env tableName ms s) (k : ℕ) :
    ManifestInv env tableName ms (s.drain k) := ⟨h.log.drain k, h.manifest⟩

/-- `PutDisk` stores the offset of the record it wrote, not that of the next one. -/
theorem ManifestInv.putDisk (h : ManifestInv env tableName ms s) {io : DiskCalls} {m : Bytes}
    (hm : m.length % 2 ^ 32 < 2 ^ 31) (hio : Complete io m) (hsync : io.sync = none) :
    ∃ t, Table.putDisk env io m s = (.ok true, t) ∧
      ManifestInv env tableName (ms ++ [stored m]) t := by
  obtain ⟨t, ht, hlog, -, -⟩ := h.log.putDisk hm hio fun _ => hsync
  refine ⟨t, ht, hlog, ?_⟩
  have hput := putDisk_ok env io h.log.filestream hm fun _ => hsync
  obtain ⟨fs, buffer, heq, -⟩ := synced_frame io m s
  rw [ht, heq] at hput
  cases hput
  change s.table.currentOffset = _
  rw [h.log.currentOffset, List.length_append, List.length_singleton, Nat.add_sub_cancel]

/-- Without a stream, or with a length that is negative as an `int`, there is no next call. -/
theorem afterCall_putDisk_error {io : DiskCalls} {m : Bytes} {α : Type}
    {r : Except Fault α × TableState} (hm : 2 ^ 31 ≤ m.length % 2 ^ 32)
    (hr : ∀ fault, (Table.putDisk env io m s).1 = .error fault → r.1 = .error fault) :
    afterCall r = none := by
  obtain ⟨fault, hfault, hkind⟩ := putDisk_error env io (s := s) (.inr hm)
  obtain ⟨r₁, u⟩ := r
  obtain rfl : r₁ = .error fault := hr fault hfault
  rcases hkind with rfl | rfl <;> rfl

theorem ManifestInv.step (h : ManifestInv env tableName ms s) {op : WriteOp}
    (hop : op.Succeeds) (hstep : WriteOp.step env op s = some t) :
    ManifestInv env tableName (ms ++ op.statement?.toList.map stored) t := by
  cases op with
  | flush k =>
    cases hstep
    simpa [WriteOp.statement?] using h.drain k
  | putDisk io m =>
    have hm : m.length % 2 ^ 32 < 2 ^ 31 := by
      by_contra hlen
      rw [WriteOp.step, afterCall_putDisk_error (Nat.not_lt.mp hlen) fun _ h => h] at hstep
      cases hstep
    obtain ⟨u, hu, hinv⟩ := h.putDisk hm hop.1 hop.2
    rw [WriteOp.step, hu] at hstep
    cases hstep
    exact hinv
  | put io m =>
    have hm : m.length % 2 ^ 32 < 2 ^ 31 := by
      by_contra hlen
      rw [WriteOp.step, afterCall_putDisk_error (Nat.not_lt.mp hlen)
        fun _ h => put_of_putDisk_error h] at hstep
      cases hstep
    obtain ⟨u, hu, hinv⟩ := h.putDisk hm hop.1 hop.2
    rw [WriteOp.step, put_of_putDisk hu] at hstep
    rw [afterCall_eq hstep]
    exact ⟨{ hinv.log with }, hinv.manifest⟩

theorem ManifestInv.of_run (hcreated : Created env tableName schema [] s₀)
    (hrun : run (WriteOp.step env) ops s₀ = some s) (hok : ∀ op ∈ ops, op.Succeeds) :
    ManifestInv env tableName ((WriteOp.statements ops).map stored) s := by
  refine Run.induct_of (C := fun ops => ∀ op ∈ ops, op.Succeeds)
    (P := fun ops s => ManifestInv env tableName ((WriteOp.statements ops).map stored) s)
    ?_ (.created hcreated) ?_ hok hrun
  · intro es e hall op hop
    exact hall op (List.mem_append_left _ hop)
  · intro es e t u hall ht hstep
    rw [WriteOp.statements_concat, List.map_append]
    exact ht.step (hall e (by simp)) hstep

/-- Once there is a record, the offset in the manifest is that of the last one. -/
theorem ManifestInv.inLog (h : ManifestInv env tableName ms s) (hne : ms ≠ []) :
    InLog s.logContents s.table.getTableManifest.currentOffset := by
  obtain ⟨before, m, rfl⟩ := (List.eq_nil_or_concat' ms).resolve_left hne
  have hmod : LittleEndian.encode 8 (before.length % 2 ^ 64) =
      LittleEndian.encode 8 before.length := LittleEndian.encode_mod 8 before.length
  refine ⟨before, m, [], ?_⟩
  change s.logContents = logBytes before ++ record s.table.tableManifest.currentOffset m ++ []
  rw [h.manifest, h.log.contents, logBytes_concat, List.length_append, List.length_singleton,
    Nat.add_sub_cancel, record, record, hmod, List.append_nil]

theorem not_inLog_nil (offset : ℕ) : ¬ InLog [] offset := by
  rintro ⟨before, m, after, heq⟩
  have hlen := congrArg List.length heq
  simp only [List.length_nil, List.length_append, record_length] at hlen
  omega

theorem ManifestInv.inLog_iff (h : ManifestInv env tableName ms s) {offset : ℕ}
    (hoffset : ∀ m, record offset m = record s.table.getTableManifest.currentOffset m) :
    InLog s.logContents offset ↔ ms.length ≠ 0 := by
  constructor
  · intro hlog hzero
    rw [h.log.contents, List.length_eq_zero_iff.mp hzero] at hlog
    exact not_inLog_nil _ hlog
  · intro hne
    obtain ⟨before, m, after, heq⟩ := h.inLog (fun hnil => hne (hnil ▸ rfl))
    exact ⟨before, m, after, by rw [heq, hoffset]⟩

/-- No `Put` on a rebuilt table comes back, since the constructor leaves `wf_` without a value. Nor
would its offset be free: the manifest is one behind the live counter from the first record on, so
that with any values of the members a `Put` repeats the offset of the last record. -/
theorem not_recoversNext (hcreated : Created env tableName schema [] s₀)
    (hrun : run (WriteOp.step env) ops s₀ = some s) (hok : ∀ op ∈ ops, op.Succeeds) (n : ℕ)
    (hn : (WriteOp.statements ops).length = n) :
    ¬ RecoversNext env n s ∧
      (s.table.getTableManifest.currentOffset = s.table.currentOffset ↔ n = 0) ∧
      ∀ members io statement fs offset, Complete io statement → io.sync = none →
        { Table.recover s.table.getTableManifest with members := members }.PutAssigns env io
          statement fs offset →
        (InLog s.logContents offset ↔ n ≠ 0) := by
  have hinv := ManifestInv.of_run hcreated hrun hok
  have hlength : ((WriteOp.statements ops).map stored).length = n := by rw [List.length_map, hn]
  refine ⟨?_, ?_, ?_⟩
  · intro h
    obtain ⟨offset, hassigns, -⟩ := h.fresh .ok [] (Complete.ok []) rfl (by decide)
    exact not_putAssigns_none s.fs rfl offset hassigns
  · rw [Table.getTableManifest, hinv.manifest, hinv.log.currentOffset, hlength]
    omega
  · intro members io statement fs offset hio hsync hassigns
    rw [← hlength]
    exact hinv.inLog_iff (record_of_putAssigns hio hsync hassigns)

theorem not_recoversNext_two_puts :
    ∃ s, run (WriteOp.step Env.default)
        [.put .ok (ascii "insert t c,timestamp 1,7"), .flush 30, .putDisk .ok (ascii "m")]
        (emptyTable Env.default (ascii "t") keySchema) = some s ∧
      ¬ RecoversNext Env.default 2 s ∧
      (s.table.getTableManifest.currentOffset = s.table.currentOffset ↔ 2 = 0) ∧
      ∀ members io statement fs offset, Complete io statement → io.sync = none →
        { Table.recover s.table.getTableManifest with members := members }.PutAssigns Env.default
          io statement fs offset →
        (InLog s.logContents offset ↔ 2 ≠ 0) := by
  have hsome : (run (WriteOp.step Env.default)
      [.put .ok (ascii "insert t c,timestamp 1,7"), .flush 30, .putDisk .ok (ascii "m")]
      (emptyTable Env.default (ascii "t") keySchema)).isSome = true := by decide +kernel
  obtain ⟨s, hs⟩ := Option.isSome_iff_exists.mp hsome
  exact ⟨s, hs, not_recoversNext (created_emptyTable _ _ _ rfl) hs
    (by simpa [WriteOp.Succeeds] using ⟨⟨Complete.ok _, rfl⟩, Complete.ok _, rfl⟩) 2 rfl⟩

/-- After one record the manifest still says 0, which is in the log, and `Put` on the table that is
rebuilt from it does not get that far. -/
theorem not_recoversNext_one_putDisk :
    ∃ s, run (WriteOp.step Env.default) [.putDisk .ok (ascii "m")]
        (emptyTable Env.default (ascii "t") keySchema) = some s ∧
      s.table.currentOffset = 1 ∧ s.table.getTableManifest.currentOffset = 0 ∧
      InLog s.logContents 0 ∧
      (TableObject.put Env.default .ok (ascii "insert t c,timestamp 1,7")
        (s.fs, Table.recover s.table.getTableManifest)).1 = .error .undefined ∧
      ¬ RecoversNext Env.default 1 s := by
  obtain ⟨s, hs, hinv⟩ := (ManifestInv.created (created_emptyTable Env.default (ascii "t")
    keySchema rfl)).putDisk (by decide) (Complete.ok (ascii "m")) rfl
  have hlog := hinv.inLog (by simp)
  rw [show s.table.getTableManifest.currentOffset = 0 from hinv.manifest] at hlog
  refine ⟨s, ?_, hinv.log.currentOffset, hinv.manifest, hlog, by rw [put_none s.fs rfl], ?_⟩
  · rw [run, WriteOp.step, hs]
    rfl
  · intro h
    have hcurrent := h.manifest
    rw [hinv.log.currentOffset] at hcurrent
    cases hcurrent.symm.trans hinv.manifest

end Recovery
end Ibdb.Storage
