import Ibdb.Lib.Run
import Ibdb.Storage.LogRead

/-! Runs of the disk layer: appends, and stdio writing bytes out at any moment between them. -/
namespace Ibdb.Storage
open Base Log

inductive DiskOp
  | putDisk (io : DiskCalls) (message : Bytes)
  | flush (k : ℕ)

namespace DiskOp

def step (env : Env) : DiskOp → TableState → Option TableState
  | putDisk io message, s => afterCall (Table.putDisk env io message s)
  | flush k, s => some (s.drain k)

def message? : DiskOp → Option Bytes
  | putDisk _ message => some message
  | flush _ => none

def messages (ops : List DiskOp) : List Bytes := ops.filterMap message?

/-- `n` records into the log: every write succeeds, and so does the `Sync` when there is one. -/
def Succeeds (n : ℕ) : DiskOp → Prop
  | putDisk io message => Complete io message ∧ (n % 2 ^ 64 % 1000 = 0 → io.sync = none)
  | flush _ => True

/-- Every operation succeeds where the run gets to it. -/
def AllSucceed (ops : List DiskOp) : Prop :=
  ∀ pre op post, ops = pre ++ op :: post → op.Succeeds (messages pre).length

theorem messages_concat (ops : List DiskOp) (op : DiskOp) :
    messages (ops ++ [op]) = messages ops ++ op.message?.toList := by
  cases h : op.message? <;> simp [messages, h]

theorem AllSucceed.concat {ops : List DiskOp} {op : DiskOp} (h : AllSucceed (ops ++ [op])) :
    AllSucceed ops ∧ op.Succeeds (messages ops).length := by
  refine ⟨?_, h ops op [] rfl⟩
  intro pre op' post heq
  subst heq
  exact h pre op' (post ++ [op]) (by simp)

theorem AllSucceed.of_prefix {pre post : List DiskOp} (h : AllSucceed (pre ++ post)) :
    AllSucceed pre := by
  intro before op after heq
  subst heq
  exact h before op (after ++ post) (by simp)

theorem AllSucceed.snoc {ops : List DiskOp} {op : DiskOp} (h : AllSucceed ops)
    (hop : op.Succeeds (messages ops).length) : AllSucceed (ops ++ [op]) := by
  intro pre op' post heq
  rcases List.eq_nil_or_concat post with rfl | ⟨rest, last, rfl⟩
  · obtain ⟨rfl, hlast⟩ := List.append_inj' heq rfl
    rwa [← List.singleton_inj.mp hlast]
  · have heq' : ops ++ [op] = (pre ++ op' :: rest) ++ [last] := by simpa using heq
    exact h pre op' rest (List.append_inj' heq' rfl).1

end DiskOp

section Run
variable {env : Env} {tableName : Bytes} {schema : List Field} {s₀ s : TableState}
  {ops : List DiskOp}

/-- A `PutDisk` that comes back from a live stream had a length that is not negative. -/
theorem putDisk_length_of_step {io : DiskCalls} {m : Bytes} {t : TableState}
    (h : DiskOp.step env (.putDisk io m) s = some t) : m.length % 2 ^ 32 < 2 ^ 31 := by
  by_contra hlen
  obtain ⟨fault, hfault, hkind⟩ := putDisk_error env io (s := s) (.inr (Nat.not_lt.mp hlen))
  rw [DiskOp.step, show Table.putDisk env io m s = (.error fault, _) from Prod.ext hfault rfl] at h
  rcases hkind with rfl | rfl <;> simp [afterCall, Fault.isException] at h

/-- The `Sync` of the next `PutDisk` is due by the number of messages. -/
theorem LogInv.syncDue_imp {ms : List Bytes} {p : Prop}
    (h : LogInv env tableName (ms.map stored) s) (hp : ms.length % 2 ^ 64 % 1000 = 0 → p) :
    s.table.SyncDue → p := by
  rw [Table.SyncDue, h.currentOffset, h.diskCacheThreshold, List.length_map]
  exact hp

/-- Along a run whose writes succeed the log is the messages put, as their lengths let them be
stored. -/
theorem LogInv.of_run (hcreated : Created env tableName schema [] s₀)
    (hrun : run (DiskOp.step env) ops s₀ = some s) (hok : DiskOp.AllSucceed ops) :
    LogInv env tableName ((DiskOp.messages ops).map stored) s := by
  refine Run.induct_of (P := fun ops s => LogInv env tableName ((DiskOp.messages ops).map stored) s)
    (fun _ _ hall => hall.concat.1) (LogInv.created hcreated) ?_ hok hrun
  intro es op t u hall ht hstep
  rw [DiskOp.messages_concat, List.map_append]
  cases op with
  | flush k =>
    cases hstep
    simpa [DiskOp.message?] using ht.drain k
  | putDisk io m =>
    obtain ⟨hio, hsync⟩ := hall.concat.2
    obtain ⟨v, hv, hinv, -, -⟩ :=
      ht.putDisk (putDisk_length_of_step hstep) hio (ht.syncDue_imp hsync)
    rw [DiskOp.step, hv] at hstep
    cases hstep
    exact hinv

theorem exists_run_of_succeed (hcreated : Created env tableName schema [] s₀)
    (hok : DiskOp.AllSucceed ops)
    (hlen : ∀ m ∈ DiskOp.messages ops, m.length % 2 ^ 32 < 2 ^ 31) :
    ∃ s, run (DiskOp.step env) ops s₀ = some s := by
  have hmain : ∃ s, run (DiskOp.step env) ops s₀ = some s ∧
      LogInv env tableName ((DiskOp.messages ops).map stored) s := by
    refine Run.exists_run
      (P := fun pre s => LogInv env tableName ((DiskOp.messages pre).map stored) s)
      (LogInv.created hcreated) ?_
    intro pre op post t heq hinv
    subst heq
    rw [DiskOp.messages_concat, List.map_append]
    cases op with
    | flush k => exact ⟨_, rfl, by simpa [DiskOp.message?] using hinv.drain k⟩
    | putDisk io m =>
      obtain ⟨hio, hsync⟩ := hok pre _ post rfl
      have hm := hlen m (by simp [DiskOp.messages, DiskOp.message?])
      obtain ⟨u, hu, hnext, -⟩ := hinv.putDisk hm hio (hinv.syncDue_imp hsync)
      exact ⟨u, by rw [DiskOp.step, hu]; rfl, hnext⟩
  obtain ⟨s, hs, -⟩ := hmain
  exact ⟨s, hs⟩

/-- After a run of short messages, all written out, every offset leads through the last indexed
record at or before it to its own record, or past the end of the log. -/
theorem findOffsetPosition_findMessage (hcreated : Created env tableName schema [] s₀)
    (hrun : run (DiskOp.step env) ops s₀ = some s) (hok : DiskOp.AllSucceed ops)
    (ms : List Bytes) (hms : DiskOp.messages ops = ms) (hne : ms ≠ [])
    (hlen : ∀ m ∈ ms, m.length < 2 ^ 31 - 1) (htotal : (ms.map fun m => 12 + m.length).sum < 2 ^ 32)
    (hflushed : s.pending = []) (i : ℕ) :
    s.flushed = logBytes ms ∧ ∃ start pos,
      Table.findOffsetPosition s.table.offsetPosMap i = (Table.logName, start, pos) ∧
      IsGreatest {j | j ≤ i ∧ ∃ file p, Indexed s.table.offsetPosMap file j p} start ∧
      start < ms.length ∧ pos = position ms start ∧
      (Table.findMessage env i start pos Table.logName s).1 =
        .ok (if h : i < ms.length then some ms[i] else none) := by
  have hinv := LogInv.of_run hcreated hrun hok
  rw [hms, map_stored_of_lt fun m hm => (hlen m hm).trans (by norm_num)] at hinv
  have hb := InBounds.of_short hlen htotal
  have hfile : s.flushed = logBytes ms := by
    rw [← hinv.contents, TableState.logContents, hflushed, List.append_nil]
  obtain ⟨start, pos, hfound, hindexed, hle, hmax⟩ := findOffsetPosition_spec hinv.index hne i
  obtain ⟨-, hstart, -, hpos⟩ := hinv.index.indexed_iff.mp hindexed
  rw [Nat.mod_eq_of_lt (hb.position_lt start)] at hpos
  refine ⟨hfile, start, pos, hfound, ⟨⟨hle, _, _, hindexed⟩, ?_⟩, hstart.1, hpos, ?_⟩
  · rintro j ⟨hj, file, p, hp⟩
    obtain ⟨rfl, -⟩ := hinv.index.indexed_iff.mp hp
    exact hmax j p hp hj
  · rw [hpos, hinv.findMessage (hb.position_lt _) hb.message hle hstart.1.le, hfile]
    split_ifs with hi
    · have hread := readRecord_of_short (f := (logBytes ms).length) hi
        (hlen _ (List.getElem_mem hi))
      rwa [if_pos (position_le_length ms (i + 1))] at hread
    · exact readRecord_of_length_le (Nat.not_lt.mp hi)

/-- Every other record has an entry in the sparse index. -/
def sparseEnv : Env :=
  { Env.default with logIndexSparseThreshold := 2, logIndexSparseThreshold_pos := by decide }

/-- Four messages, the last three written out in two parts. -/
def fourPuts : List DiskOp :=
  [.putDisk .ok (ascii "l"), .putDisk .ok (ascii "m"), .flush 20, .putDisk .ok (ascii "n"),
    .putDisk .ok (ascii "o"), .flush 39]

theorem allSucceed_fourPuts : DiskOp.AllSucceed fourPuts := by
  rintro pre op post hsplit
  have hmem : op ∈ fourPuts := hsplit ▸ List.mem_append_right pre List.mem_cons_self
  cases op with
  | flush k => trivial
  | putDisk io m =>
    have hok : io = .ok := by
      simp only [fourPuts, List.mem_cons, DiskOp.putDisk.injEq, List.not_mem_nil, or_false] at hmem
      tauto
    exact hok ▸ ⟨Complete.ok m, fun _ => rfl⟩

theorem findOffsetPosition_findMessage_fourth :
    let ms := [ascii "l", ascii "m", ascii "n", ascii "o"]
    ∃ s, run (DiskOp.step sparseEnv) fourPuts (emptyTable sparseEnv (ascii "t") []) = some s ∧
      s.flushed = logBytes ms ∧ ∃ start pos,
        Table.findOffsetPosition s.table.offsetPosMap 3 = (Table.logName, start, pos) ∧
        IsGreatest {j | j ≤ 3 ∧ ∃ file p, Indexed s.table.offsetPosMap file j p} start ∧
        start < 4 ∧ pos = position ms start ∧
        (Table.findMessage sparseEnv 3 start pos Table.logName s).1 = .ok (some (ascii "o")) := by
  have hflushed : (run (DiskOp.step sparseEnv) fourPuts
      (emptyTable sparseEnv (ascii "t") [])).map TableState.pending = some [] := by decide +kernel
  obtain ⟨s, hs, hpending⟩ := Option.map_eq_some_iff.mp hflushed
  exact ⟨s, hs, findOffsetPosition_findMessage (created_emptyTable _ _ _ rfl) hs allSucceed_fourPuts
    [ascii "l", ascii "m", ascii "n", ascii "o"] rfl (by simp) (by simp [ascii]) (by simp [ascii])
    hpending 3⟩

/-! The log under I/O failure. -/

/-- The log is whole records, numbered from 0 by an offset counter that is their number, and the
position counter is their length. -/
def Dense (s : TableState) : Prop :=
  ∃ ms, s.logContents = logBytes ms ∧ s.table.currentOffset = ms.length ∧
    s.table.wf.currentPos = (logBytes ms).length

/-- Every state between the calls of a run is dense, and a `PutDisk` that returned `false` added
nothing. -/
structure DenseRun (env : Env) (s₀ : TableState) (ops : List DiskOp) : Prop where
  dense : ∀ pre t, pre <+: ops → run (DiskOp.step env) pre s₀ = some t → Dense t
  failed : ∀ pre io m t u, pre ++ [.putDisk io m] <+: ops →
    run (DiskOp.step env) pre s₀ = some t → Table.putDisk env io m t = (.ok false, u) →
    u.logContents = t.logContents

def DiskOp.size (ops : List DiskOp) : ℕ :=
  ((DiskOp.messages ops).map fun m => 12 + (stored m).length).sum

theorem DiskOp.size_eq (ops : List DiskOp) :
    DiskOp.size ops = (logBytes ((DiskOp.messages ops).map stored)).length := by
  rw [logBytes_length, List.map_map]
  rfl

theorem DiskOp.size_concat (ops : List DiskOp) (op : DiskOp) :
    DiskOp.size (ops ++ [op]) =
      DiskOp.size ops + (op.message?.toList.map fun m => 12 + (stored m).length).sum := by
  rw [DiskOp.size, DiskOp.messages_concat, List.map_append, List.sum_append, DiskOp.size]

theorem LogInv.dense {ms : List Bytes} (h : LogInv env tableName ms s)
    (htotal : (logBytes ms).length < 2 ^ 32) : Dense s := by
  have hn := le_position (le_refl ms.length)
  rw [position_length] at hn
  refine ⟨ms, h.contents, ?_, ?_⟩
  · rw [h.currentOffset, Nat.mod_eq_of_lt (by omega)]
  · rw [h.currentPos, Nat.mod_eq_of_lt htotal]

theorem denseRun_of_succeed (hcreated : Created env tableName schema [] s₀)
    (hok : DiskOp.AllSucceed ops) (htotal : DiskOp.size ops < 2 ^ 32) :
    DenseRun env s₀ ops where
  dense := by
    intro pre t hw hrun
    obtain ⟨post, rfl⟩ := hw
    have hle : DiskOp.size pre ≤ DiskOp.size (pre ++ post) := by
      simp [DiskOp.size, DiskOp.messages]
    refine (LogInv.of_run hcreated hrun hok.of_prefix).dense ?_
    rw [← DiskOp.size_eq]
    omega
  failed := by
    intro pre io m t u hw hrun hput
    obtain ⟨post, rfl⟩ := hw
    have hinv := LogInv.of_run hcreated hrun hok.of_prefix.of_prefix
    obtain ⟨hio, hsync⟩ := hok.of_prefix.concat.2
    by_cases hlen : m.length % 2 ^ 32 < 2 ^ 31
    · obtain ⟨v, hv, -⟩ := hinv.putDisk hlen hio (hinv.syncDue_imp hsync)
      simp [hv] at hput
    · obtain ⟨fault, hfault, -⟩ :=
        putDisk_error env io (s := t) (.inr (Nat.not_lt.mp hlen))
      simp [hput] at hfault

/-- One `PutDisk` that keeps a log dense wrote all of its record and stayed within 32 bits. -/
theorem LogInv.succeeds_of_dense {ms : List Bytes} {t : TableState} {io : DiskCalls} {m : Bytes}
    (h : LogInv env tableName ms s) (htotal : (logBytes ms).length < 2 ^ 32)
    (hstep : DiskOp.step env (.putDisk io m) s = some t) (hdense : Dense t)
    (hfailed : Table.putDisk env io m s = (.ok false, t) → t.logContents = s.logContents) :
    Complete io m ∧ (s.table.SyncDue → io.sync = none) ∧
      (logBytes ms).length + (12 + (stored m).length) < 2 ^ 32 := by
  have hlen := putDisk_length_of_step hstep
  have hstored := stored_length m
  obtain ⟨ns, hns, -, hpos⟩ := hdense
  rw [← hns] at hpos
  by_cases hsync : s.table.SyncDue → io.sync = none
  · obtain ⟨u, hu, hcontents, hcurrent, -⟩ := putDisk_written env io h.filestream hlen hsync
    rw [DiskOp.step, hu] at hstep
    cases hstep
    have hframe := frame_length_le io s.table.currentOffset m
    rw [hcurrent, h.currentPos, hcontents, h.contents, List.length_append] at hpos
    exact ⟨complete_of_length s.table.currentOffset (by omega), hsync, by omega⟩
  · -- the failed `Sync` left the position past the record
    push Not at hsync
    obtain ⟨hdue, hne⟩ := hsync
    obtain ⟨k, hk⟩ := Option.ne_none_iff_exists'.mp hne
    obtain ⟨u, hu, hcontents, hcurrent, -⟩ := putDisk_sync_failed env io h.filestream hlen hdue hk
    have hstep' := hstep
    rw [DiskOp.step, hu] at hstep'
    cases hstep'
    rw [hcurrent, h.currentPos, hfailed hu, h.contents] at hpos
    omega

/-- The log stays a dense sequence exactly when no write is short, every `Sync` that is due
succeeds and the positions fit in 32 bits. -/
theorem denseRun_iff (hcreated : Created env tableName schema [] s₀)
    (hrun : run (DiskOp.step env) ops s₀ = some s) :
    DenseRun env s₀ ops ↔ DiskOp.AllSucceed ops ∧ DiskOp.size ops < 2 ^ 32 := by
  refine ⟨?_, fun h => denseRun_of_succeed hcreated h.1 h.2⟩
  induction ops using List.reverseRecOn generalizing s with
  | nil =>
    intro _
    exact ⟨fun pre op post h => by simp at h, by simp [DiskOp.size, DiskOp.messages]⟩
  | append_singleton ops op ih =>
    intro h
    obtain ⟨t, ht, hstep⟩ := Run.run_concat.mp hrun
    have hprefix : ops <+: ops ++ [op] := List.prefix_append _ _
    obtain ⟨hok, htotal⟩ := ih ht
      ⟨fun pre u hp => h.dense pre u (hp.trans hprefix),
        fun pre io m u v hp => h.failed pre io m u v (hp.trans hprefix)⟩
    have hinv := LogInv.of_run hcreated ht hok
    cases op with
    | flush k =>
      exact ⟨hok.snoc trivial, (DiskOp.size_concat ops _).trans_lt htotal⟩
    | putDisk io m =>
      obtain ⟨hio, hsync, hsize⟩ := hinv.succeeds_of_dense (by rwa [← DiskOp.size_eq]) hstep
        (h.dense _ s List.prefix_rfl hrun) (h.failed ops io m t s List.prefix_rfl ht)
      rw [Table.SyncDue, hinv.currentOffset, hinv.diskCacheThreshold, List.length_map] at hsync
      rw [← DiskOp.size_eq] at hsize
      exact ⟨hok.snoc ⟨hio, hsync⟩, (DiskOp.size_concat ops _).trans_lt hsize⟩

theorem denseRun_iff_four_puts :
    ∃ s, run (DiskOp.step Env.default) fourPuts (emptyTable Env.default (ascii "t") []) = some s ∧
      (DenseRun Env.default (emptyTable Env.default (ascii "t") []) fourPuts ↔
        DiskOp.AllSucceed fourPuts ∧ DiskOp.size fourPuts < 2 ^ 32) := by
  have hcreated := created_emptyTable Env.default (ascii "t") [] rfl
  obtain ⟨s, hs⟩ := exists_run_of_succeed hcreated allSucceed_fourPuts (by decide)
  exact ⟨s, hs, denseRun_iff hcreated hs⟩

/-- The first `PutDisk`, whose `Sync` fails, returns `false` and leaves its record in the log. -/
theorem not_denseRun_sync_failed :
    ∃ s, run (DiskOp.step Env.default) [.putDisk ⟨none, none, none, some 0⟩ (ascii "m")]
        (emptyTable Env.default (ascii "t") []) = some s ∧
      ¬ DenseRun Env.default (emptyTable Env.default (ascii "t") [])
        [.putDisk ⟨none, none, none, some 0⟩ (ascii "m")] := by
  obtain ⟨s, hs, hcontents, -⟩ := @putDisk_sync_failed Env.default ⟨none, none, none, some 0⟩
    (ascii "m") (emptyTable Env.default (ascii "t") []) rfl (by simp [ascii]) rfl 0 rfl
  refine ⟨s, by rw [run, DiskOp.step, hs]; rfl, ?_⟩
  intro h
  have hsame := h.failed [] _ _ _ s List.prefix_rfl rfl hs
  rw [hcontents, List.append_right_eq_self] at hsame
  simp [frame, written, LittleEndian.encode] at hsame

end Run
end Ibdb.Storage
