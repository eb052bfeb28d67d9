import Ibdb.Storage.CacheInv

/-! What a crash leaves of a table's log. The bytes that stdio holds back are lost with the process,
and those that no `fsync` has covered may be lost with the machine. -/
namespace Ibdb.Storage
open Base Log

structure Crashable where
  state : TableState
  durable : Bytes

namespace TableOp

def Fsyncs (s : TableState) : TableOp → Prop
  | put _ _ => s.table.SyncDue
  | sync _ => True
  | _ => False

instance (s : TableState) (op : TableOp) : Decidable (op.Fsyncs s) :=
  match op with
  | put _ _ => inferInstanceAs (Decidable s.table.SyncDue)
  | sync _ => .isTrue trivial
  | get _ => .isFalse not_false
  | getBatchData _ _ => .isFalse not_false
  | flush _ => .isFalse not_false

/-- Nothing writes to the log between the `fsync` of an operation and its end. -/
def crashStep (env : Env) (op : TableOp) (c : Crashable) : Option Crashable :=
  (op.step env c.state).map fun t => ⟨t, if op.Fsyncs c.state then t.flushed else c.durable⟩

/-- The number of records, and how many of them there were at the last `fsync`. -/
def tally : ℕ × ℕ → TableOp → ℕ × ℕ
  | (n, k), put _ _ => (n + 1, if n % 1000 = 0 then n + 1 else k)
  | (n, _), sync _ => (n, n)
  | count, _ => count

/-- How many records the last `fsync` of the operations covered. -/
def covered (ops : List TableOp) : ℕ := (ops.foldl tally (0, 0)).2

theorem tally_concat (ops : List TableOp) (op : TableOp) :
    (ops ++ [op]).foldl tally (0, 0) = tally (ops.foldl tally (0, 0)) op := by
  rw [List.foldl_append]
  rfl

theorem tally_fst (ops : List TableOp) :
    (ops.foldl tally (0, 0)).1 = (statements ops).length := by
  induction ops using List.reverseRecOn with
  | nil => rfl
  | append_singleton ops op ih =>
    rw [tally_concat, statements_concat, List.length_append, ← ih]
    cases op <;> rfl

theorem covered_concat (ops : List TableOp) (op : TableOp) : covered (ops ++ [op]) =
    (tally ((statements ops).length, covered ops) op).2 := by
  rw [covered, tally_concat, ← tally_fst]
  rfl

private theorem last_thousand {n k : ℕ} (hn : ¬ n % 1000 = 0) (h : (n - 1) / 1000 * 1000 < k) :
    (n + 1 - 1) / 1000 * 1000 < k := by
  have heq : n / 1000 = (n - 1) / 1000 := by omega
  rwa [Nat.add_sub_cancel, heq]

/-- The last record that a `Put` synced and those in front of it are covered. -/
theorem covered_bounds (ops : List TableOp) : covered ops ≤ (statements ops).length ∧
    (statements ops ≠ [] → ((statements ops).length - 1) / 1000 * 1000 < covered ops) := by
  induction ops using List.reverseRecOn with
  | nil => exact ⟨le_rfl, fun h => absurd rfl h⟩
  | append_singleton ops op ih =>
    obtain ⟨hle, hlt⟩ := ih
    rw [covered_concat, statements_concat]
    cases op with
    | put io m =>
      rw [show (put io m).statement?.toList = [m] from rfl, List.length_append,
        List.length_singleton, tally]
      refine ⟨by dsimp only; split_ifs <;> omega, fun _ => ?_⟩
      dsimp only
      split_ifs with hdue
      · omega
      · have hne : statements ops ≠ [] := by
          intro hnil
          rw [hnil] at hdue
          exact hdue (Nat.zero_mod 1000)
        exact last_thousand hdue (hlt hne)
    | sync result =>
      rw [show (sync result).statement?.toList = [] from rfl, List.append_nil, tally]
      refine ⟨le_rfl, fun hne => ?_⟩
      have hpos := List.length_pos_iff.mpr hne
      omega
    | get statement => simpa [statement?, tally] using ⟨hle, hlt⟩
    | getBatchData startOffset endOffset => simpa [statement?, tally] using ⟨hle, hlt⟩
    | flush k => simpa [statement?, tally] using ⟨hle, hlt⟩

end TableOp

/-- What an `fsync` has covered are whole records, and the file has them. -/
structure DurableInv (env : Env) (tableName : Bytes) (isKey : Bytes → Bool) (ops : List TableOp)
    (c : Crashable) : Prop where
  table : TableInv env tableName isKey (TableOp.statements ops) c.state
  durable : c.durable = logBytes ((TableOp.statements ops).take (TableOp.covered ops))
  flushed : c.durable <+: c.state.flushed

section DurableInv
variable {env : Env} {tableName : Bytes} {isKey : Bytes → Bool} {ms : List Bytes}
  {s t : TableState} {c d : Crashable} {ops : List TableOp}

theorem flushed_of_pending (h : TableInv env tableName isKey ms s) (hnone : s.pending = []) :
    s.flushed = logBytes ms := by
  rw [← h.log.contents, TableState.logContents, hnone, List.append_nil]

/-- A `Put` at which a `Sync` is due leaves nothing in the buffer. -/
theorem pending_put {io : DiskCalls} {m : Bytes} (hf : s.table.wf.fileHandle.filestream = true)
    (hm : m.length % 2 ^ 32 < 2 ^ 31) (hsync : io.sync = none) (hdue : s.table.SyncDue) :
    (Table.put env io m s).2.pending = [] := by
  have hpending : (s.synced io m).pending = [] := by
    rw [TableState.synced, if_pos hdue, TableState.pending_drain, List.drop_length]
  obtain ⟨fs, buffer, heq, -⟩ := synced_frame io m s
  rw [put_of_putDisk (putDisk_ok env io hf hm fun _ => hsync)]
  rw [heq] at hpending ⊢
  exact hpending

/-- An operation without an `fsync` takes nothing out of the file, and one with it leaves nothing
in the buffer. -/
theorem TableInv.file_step (h : TableInv env tableName isKey ms s) {op : TableOp}
    (hop : op.Succeeds) (hb : InBounds (ms ++ op.statement?.toList))
    (hstep : TableOp.step env op s = some t) :
    if op.Fsyncs s then t.pending = [] else s.flushed <+: t.flushed := by
  cases op with
  | put io m =>
    obtain ⟨hf, hm⟩ := stream_and_length_of_put (isException_of_afterCall hstep)
    rw [afterCall_eq hstep]
    split_ifs with hdue
    · exact pending_put hf hm hop.2 hdue
    · obtain ⟨data, hflushed⟩ : ∃ data, (Table.put env io m s).2.flushed = s.flushed ++ data :=
        (put_grows hf hm fun _ => hop.2).1
      exact ⟨data, hflushed.symm⟩
  | get statement =>
    have hno : ¬ (TableOp.get statement).Fsyncs s := not_false
    rw [if_neg hno, afterCall_eq hstep]
    obtain ⟨-, readers, cache, heq⟩ := h.get_keeps hb.of_append statement
    rw [heq]
    exact List.prefix_refl _
  | getBatchData startOffset endOffset =>
    have hno : ¬ (TableOp.getBatchData startOffset endOffset).Fsyncs s := not_false
    rw [if_neg hno, afterCall_eq hstep]
    obtain ⟨-, readers, heq⟩ := h.log.getBatchLoop_keeps (endOffset - startOffset) startOffset []
    rw [Table.getBatchData, heq]
    exact List.prefix_refl _
  | sync result =>
    have heq : result = none := hop
    subst heq
    rw [TableOp.step, h.log.sync] at hstep
    cases hstep
    have hyes : (TableOp.sync none).Fsyncs s := trivial
    rw [if_pos hyes, TableState.pending_drain, List.drop_length]
  | flush k =>
    cases hstep
    have hno : ¬ (TableOp.flush k).Fsyncs s := not_false
    rw [if_neg hno, TableState.flushed_drain]
    exact List.prefix_append _ _

/-- A `Put` syncs at every thousandth record. -/
theorem LogInv.fsyncs_iff (h : LogInv env tableName ms s) (hn : ms.length < 2 ^ 64)
    (op : TableOp) (k : ℕ) : (TableOp.tally (ms.length, k) op).2 =
      if op.Fsyncs s then (ms ++ op.statement?.toList).length else k := by
  cases op with
  | put io m =>
    have hdue : (TableOp.put io m).Fsyncs s ↔ ms.length % 1000 = 0 := by
      change s.table.currentOffset % s.table.diskCacheThreshold = 0 ↔ _
      rw [h.currentOffset, h.diskCacheThreshold, Nat.mod_eq_of_lt hn]
    simp only [TableOp.tally, hdue, TableOp.statement?, Option.toList_some, List.length_append,
      List.length_singleton]
  | sync result => simp [TableOp.tally, TableOp.Fsyncs, TableOp.statement?]
  | get statement => simp [TableOp.tally, TableOp.Fsyncs]
  | getBatchData startOffset endOffset => simp [TableOp.tally, TableOp.Fsyncs]
  | flush k => simp [TableOp.tally, TableOp.Fsyncs]

theorem DurableInv.step (h : DurableInv env tableName isKey ops c) {op : TableOp}
    (hop : op.Succeeds) (hb : InBounds (TableOp.statements (ops ++ [op])))
    (hstep : TableOp.crashStep env op c = some d) :
    DurableInv env tableName isKey (ops ++ [op]) d := by
  obtain ⟨t, ht, rfl⟩ := Option.map_eq_some_iff.mp hstep
  rw [TableOp.statements_concat] at hb
  have htable := h.table.step hop hb ht
  have hfile := h.table.file_step hop hb ht
  have hcovered := TableOp.covered_concat ops op
  rw [h.table.log.fsyncs_iff (hb.of_append.length_lt.trans (by norm_num))] at hcovered
  rw [← TableOp.statements_concat] at htable hcovered
  split_ifs at hfile hcovered with hsyncs
  · have hall := flushed_of_pending htable hfile
    have hdurable : (if op.Fsyncs c.state then t.flushed else c.durable) = t.flushed :=
      if_pos hsyncs
    exact {
      table := htable
      durable := by rw [hdurable, hall, hcovered, List.take_length]
      flushed := by rw [hdurable] }
  · have hdurable : (if op.Fsyncs c.state then t.flushed else c.durable) = c.durable :=
      if_neg hsyncs
    exact {
      table := htable
      durable := by
        rw [hdurable, h.durable, hcovered, TableOp.statements_concat,
          List.take_append_of_le_length (TableOp.covered_bounds ops).1]
      flushed := by
        rw [hdurable]
        exact h.flushed.trans hfile }

theorem DurableInv.of_run {tableName : Bytes} {schema : List Field} {s₀ : TableState}
    (hcreated : Created env tableName schema [] s₀)
    (hrun : run (TableOp.crashStep env) ops ⟨s₀, []⟩ = some c) (hok : ∀ op ∈ ops, op.Succeeds)
    (hb : InBounds (TableOp.statements ops)) :
    DurableInv env tableName s₀.table.segmentIndex.contains ops c := by
  have hstart : DurableInv env tableName s₀.table.segmentIndex.contains [] ⟨s₀, []⟩ :=
    ⟨.created hcreated, rfl, List.nil_prefix⟩
  refine Run.induct_of
    (C := fun ops => (∀ op ∈ ops, op.Succeeds) ∧ InBounds (TableOp.statements ops))
    (P := fun ops c => DurableInv env tableName s₀.table.segmentIndex.contains ops c)
    ?_ hstart ?_ ⟨hok, hb⟩ hrun
  · rintro es e ⟨hall, hbounds⟩
    rw [TableOp.statements_concat] at hbounds
    exact ⟨fun op hop => hall op (List.mem_append_left _ hop), hbounds.of_append⟩
  · intro es e t u hw ht hstep
    exact ht.step (hw.1 e (by simp)) hw.2 hstep

end DurableInv

/-- What is left of the log, a prefix of it, gives back the records it has, and no others. -/
theorem scan_survived (env : Env) {ms : List Bytes} (hb : InBounds ms) {survived : Bytes}
    (h : survived <+: logBytes ms) (i : ℕ) :
    Table.scanMessages env survived i (Table.scanBound i 0) 0 0 =
      some (readRecord ms survived.length i) := by
  have hscan := scanMessages_eq env (f := survived.length) (hb.position_lt (min i ms.length))
    hb.message (le_refl (Table.scanBound i 0)) (Nat.zero_le i) (Nat.zero_le ms.length)
  rwa [position_zero, ← List.prefix_iff_eq_take.mp h] at hscan

/-- At any moment of a run without I/O failure the disk has the records up to the last `fsync`,
whole, so that a crash costs at most the 999 last ones. Whatever more is left, a scan of it finds
each covered record, and never another one than was put under the offset. -/
theorem crash_keeps {env : Env} {tableName : Bytes} {schema : List Field} {s₀ : TableState}
    {ops : List TableOp} {c : Crashable} (hcreated : Created env tableName schema [] s₀)
    (hrun : run (TableOp.crashStep env) ops ⟨s₀, []⟩ = some c) (hok : ∀ op ∈ ops, op.Succeeds)
    (hlen : ∀ m ∈ TableOp.statements ops, m.length < 2 ^ 31 - 1)
    (htotal : ((TableOp.statements ops).map fun m => 12 + m.length).sum < 2 ^ 32) :
    c.durable = logBytes ((TableOp.statements ops).take (TableOp.covered ops)) ∧
      c.durable <+: c.state.flushed ∧ c.state.flushed <+: logBytes (TableOp.statements ops) ∧
      TableOp.covered ops ≤ (TableOp.statements ops).length ∧
      (TableOp.statements ops).length < TableOp.covered ops + 1000 ∧
      ∀ survived, c.durable <+: survived → survived <+: logBytes (TableOp.statements ops) →
        (∀ i < TableOp.covered ops, Table.scanMessages env survived i (Table.scanBound i 0) 0 0 =
          some (.ok (TableOp.statements ops)[i]?)) ∧
        ∀ i m, Table.scanMessages env survived i (Table.scanBound i 0) 0 0 = some (.ok (some m)) →
          (TableOp.statements ops)[i]? = some m := by
  have hb := InBounds.of_short hlen htotal
  obtain ⟨htable, hdurable, hflushed⟩ := DurableInv.of_run hcreated hrun hok hb
  obtain ⟨hle, hlt⟩ := TableOp.covered_bounds ops
  refine ⟨hdurable, hflushed, ⟨_, htable.log.contents⟩, hle, ?_, fun survived hleft hprefix => ?_⟩
  · by_cases hnil : TableOp.statements ops = []
    · rw [hnil]
      exact Nat.succ_pos _
    · have hlast := hlt hnil
      omega
  have hscan := scan_survived env hb hprefix
  refine ⟨fun i hi => ?_, fun i m hm => ?_⟩
  · have hin : i < (TableOp.statements ops).length := hi.trans_le hle
    have hend : position (TableOp.statements ops) (i + 1) ≤ survived.length := by
      refine (position_mono _ hi).trans ?_
      rw [position_eq_length_take hle, ← hdurable]
      exact hleft.length_le
    rw [hscan, readRecord_of_short hin (hlen _ (List.getElem_mem hin)), if_pos hend,
      List.getElem?_eq_getElem hin]
  · rw [hscan] at hm
    exact (readRecord_eq_some (Option.some.inj hm)).1

/-- Two statements before a `Sync` and a third after it, of which stdio has written out a part. -/
def thirdUncovered : List TableOp :=
  [.put .ok (ascii "insert t c,timestamp 1,7"), .put .ok (ascii "insert t c,timestamp 2,8"),
    .sync none, .put .ok (ascii "insert t c,timestamp 3,9"), .flush 20]

theorem crash_keeps_two_of_three :
    let ms := [ascii "insert t c,timestamp 1,7", ascii "insert t c,timestamp 2,8",
      ascii "insert t c,timestamp 3,9"]
    ∃ c, run (TableOp.crashStep Env.default) thirdUncovered
        ⟨emptyTable Env.default (ascii "t") keySchema, []⟩ = some c ∧
      c.durable = logBytes (ms.take 2) ∧
      ∀ survived, c.durable <+: survived → survived <+: logBytes ms →
        Table.scanMessages Env.default survived 1 (Table.scanBound 1 0) 0 0 =
            some (.ok (some (ascii "insert t c,timestamp 2,8"))) ∧
          ∀ m, Table.scanMessages Env.default survived 2 (Table.scanBound 2 0) 0 0 =
              some (.ok (some m)) →
            m = ascii "insert t c,timestamp 3,9" := by
  have hsome : (run (TableOp.crashStep Env.default) thirdUncovered
      ⟨emptyTable Env.default (ascii "t") keySchema, []⟩).isSome = true := by decide +kernel
  obtain ⟨c, hrun⟩ := Option.isSome_iff_exists.mp hsome
  obtain ⟨hdurable, -, -, -, -, hscan⟩ := crash_keeps
    (created_emptyTable Env.default (ascii "t") keySchema rfl) hrun
    (by simpa [thirdUncovered, TableOp.Succeeds] using
      ⟨⟨Complete.ok _, rfl⟩, ⟨Complete.ok _, rfl⟩, Complete.ok _, rfl⟩)
    (by decide +kernel) (by decide +kernel)
  refine ⟨c, hrun, hdurable, fun survived hleft hprefix => ?_⟩
  obtain ⟨hcovered, hothers⟩ := hscan survived hleft hprefix
  exact ⟨hcovered 1 (by decide), fun m hm => (Option.some.inj (hothers 2 m hm)).symm⟩

end Ibdb.Storage
