import Ibdb.Storage.Redelivery

/-! Batch reads within the log, across its end and past it. -/
namespace Ibdb.Storage
open Base Log
open Std (ExtTreeMap)

/-- The call returns `true` when all of the range is in the log, and appends what is. -/
def BatchReads (env : Env) (ms : List Bytes) (startOffset endOffset : ℕ) (s : TableState) : Prop :=
  (Table.getBatchData env startOffset endOffset s).1 =
    .ok (decide (endOffset ≤ startOffset ∨ endOffset ≤ ms.length),
      ((ms.drop startOffset).take (endOffset - startOffset)).map cString)

section ReadBatch
variable {ms : List Bytes} {count i : ℕ}

theorem readBatch_all (hms : ∀ m ∈ (ms.drop i).take count, m.length ≠ 2 ^ 31 - 1)
    (data : List Bytes) :
    readBatch ms (logBytes ms).length count i data =
      .ok (decide (count = 0 ∨ i + count ≤ ms.length),
        data ++ ((ms.drop i).take count).map cString) := by
  induction count generalizing i data with
  | zero => simp [readBatch]
  | succ count ih =>
    rw [readBatch]
    by_cases hi : i < ms.length
    · rw [List.drop_eq_getElem_cons hi, List.take_succ_cons] at hms ⊢
      have hshort := hms ms[i] List.mem_cons_self
      have hsucc := position_succ hi
      have hend := position_le_length ms (i + 1)
      have hread : readRecord ms (logBytes ms).length i = .ok (some ms[i]) := by
        simp only [readRecord, List.getElem?_eq_getElem hi]
        rw [if_neg (by omega), if_neg hshort, if_pos hend]
      simp only [hread]
      rw [ih fun m hm => hms m (List.mem_cons_of_mem _ hm)]
      have hall : (count = 0 ∨ i + 1 + count ≤ ms.length) ↔
          (count + 1 = 0 ∨ i + (count + 1) ≤ ms.length) := by omega
      simp only [hall, List.map_cons, List.append_assoc, List.singleton_append]
    · have hpast : ms.length < i + (count + 1) := by omega
      rw [readRecord_of_length_le (Nat.not_lt.mp hi), List.drop_of_length_le (Nat.not_lt.mp hi)]
      simp [hpast]

/-- The first statement of `2 ^ 31 - 1` bytes ends the call. -/
theorem readBatch_long (hms : ∃ m ∈ (ms.drop i).take count, m.length = 2 ^ 31 - 1)
    (data : List Bytes) :
    readBatch ms (logBytes ms).length count i data = .error .badAlloc := by
  induction count generalizing i data with
  | zero => simp at hms
  | succ count ih =>
    have hi : i < ms.length := by
      by_contra hge
      simp [List.drop_of_length_le (Nat.not_lt.mp hge)] at hms
    rw [List.drop_eq_getElem_cons hi, List.take_succ_cons] at hms
    have hsucc := position_succ hi
    have hend := position_le_length ms (i + 1)
    rw [readBatch]
    by_cases hlong : ms[i].length = 2 ^ 31 - 1
    · have hread : readRecord ms (logBytes ms).length i = .error .badAlloc := by
        simp only [readRecord, List.getElem?_eq_getElem hi]
        rw [if_neg (by omega), if_pos hlong]
      simp only [hread]
    · have hread : readRecord ms (logBytes ms).length i = .ok (some ms[i]) := by
        simp only [readRecord, List.getElem?_eq_getElem hi]
        rw [if_neg (by omega), if_neg hlong, if_pos hend]
      simp only [hread]
      obtain ⟨m, hm, hlength⟩ := hms
      rcases List.mem_cons.mp hm with rfl | hm
      · exact absurd hlength hlong
      · exact ih ⟨m, hm, hlength⟩ _

end ReadBatch

/-! A table without statements has no entry in its sparse index, and reads open the directory. -/

/-- The path that stands for the directory of the log. -/
def logDirectory (env : Env) (tableName : Bytes) : Path :=
  resolve env.workingDirectory (Table.logDir env tableName ++ ascii "/")

section Unread
variable {env : Env} {tableName : Bytes} {isKey : Bytes → Bool} {s t : TableState}

structure Unread (env : Env) (tableName : Bytes) (isKey : Bytes → Bool) (s : TableState) :
    Prop where
  inv : TableInv env tableName isKey [] s
  readers : s.table.logReaderMap = ∅
  directory : s.fs (logDirectory env tableName) = none

/-- The constructor of the file handle asserts. -/
theorem Unread.findMessage (h : Unread env tableName isKey s) (offset start pos : ℕ) :
    (Table.findMessage env offset start pos [] s).1 = .error .assertFailed := by
  have hnew : RandomAccessFileHandle.new env s.fs (Table.logDir env tableName ++ ascii "/") =
      .error .assertFailed := by
    have hnone : s.fs (resolve env.workingDirectory (Table.logDir env tableName ++ ascii "/")) =
        none := h.directory
    simp [RandomAccessFileHandle.new, hnone]
  have hreader : Table.reader env (Table.logDir env tableName ++ ascii "/") s =
      (.error .assertFailed, s) := by
    rw [Table.reader, Exec.bind_ok (Exec.get_apply s)]
    simp only [h.readers, ExtTreeMap.getElem?_empty, hnew]
    rfl
  rw [Table.findMessage, Exec.bind_ok (Exec.get_apply s), h.inv.log.name]
  simp only [List.append_nil]
  rw [Exec.bind_error hreader]

theorem Unread.getBatchData (h : Unread env tableName isKey s) {startOffset endOffset : ℕ}
    (hlt : startOffset < endOffset) :
    (Table.getBatchData env startOffset endOffset s).1 = .error .assertFailed := by
  have hindex : s.table.offsetPosMap = ∅ := by
    rcases h.inv.log.index with ⟨-, hindex⟩ | ⟨hne, -⟩
    · exact hindex
    · exact absurd rfl hne
  obtain ⟨count, hcount⟩ : ∃ count, endOffset - startOffset = count + 1 :=
    ⟨endOffset - startOffset - 1, by omega⟩
  have hfile : Table.findOffsetPosition ∅ startOffset = ([], 0, 0) := by
    have hempty : (∅ : OffsetPosMap).toList = [] := ExtTreeMap.toList_eq_nil_iff.mpr rfl
    rw [Table.findOffsetPosition, hempty]
    rfl
  rw [Table.getBatchData, hcount, Table.getBatchLoop, Exec.bind_ok (Exec.get_apply s), hindex,
    hfile]
  dsimp only
  rw [Exec.bind_error (Prod.ext (h.findMessage startOffset 0 0) rfl)]

theorem Unread.drain (h : Unread env tableName isKey s) (k : ℕ) :
    Unread env tableName isKey (s.drain k) := by
  refine ⟨h.inv.drain k, h.readers, ?_⟩
  have hne : logDirectory env tableName ≠ s.table.wf.fileHandle.path := by
    intro heq
    have hopened := h.inv.log.opened
    rw [← h.inv.log.path, ← heq, h.directory] at hopened
    cases hopened
  simp only [TableState.drain, FileSystem.append]
  rw [Function.update_of_ne hne]
  exact h.directory

theorem Unread.step (h : Unread env tableName isKey s) {op : TableOp} (hop : op.Succeeds)
    (hnone : op.statement? = none) (hstep : TableOp.step env op s = some t) :
    Unread env tableName isKey t := by
  cases op with
  | put io m => cases hnone
  | get statement =>
    have hsame : (Table.get env statement s).2 = s := by
      rw [get_eq]
      rcases query env statement with _ | ⟨column, timestamp, value⟩
      · rfl
      simp only
      cases hget : s.table.segmentIndex.get column timestamp value with
      | none => rfl
      | some offset => cases (h.inv.index.get_eq_some hget).2
    rw [afterCall_eq hstep, hsame]
    exact h
  | getBatchData startOffset endOffset =>
    by_cases hlt : startOffset < endOffset
    · have hexc := isException_of_afterCall hstep _ (h.getBatchData hlt)
      cases hexc
    · have hcount : endOffset - startOffset = 0 := by omega
      rw [afterCall_eq hstep, Table.getBatchData, hcount]
      exact h
  | sync result =>
    have heq : result = none := hop
    subst heq
    rw [TableOp.step, h.inv.log.sync] at hstep
    cases hstep
    exact h.drain _
  | flush k =>
    cases hstep
    exact h.drain k

end Unread

section Run
variable {env : Env} {tableName : Bytes} {schema : List Field} {s₀ s : TableState}
  {ops : List TableOp}

theorem Unread.of_run (hcreated : Created env tableName schema [] s₀)
    (hdirectory : s₀.fs (logDirectory env tableName) = none)
    (hrun : run (TableOp.step env) ops s₀ = some s) (hok : ∀ op ∈ ops, op.Succeeds)
    (hnone : TableOp.statements ops = []) :
    Unread env tableName s₀.table.segmentIndex.contains s := by
  refine Run.induct_of
    (C := fun ops => (∀ op ∈ ops, op.Succeeds) ∧ TableOp.statements ops = [])
    (P := fun _ s => Unread env tableName s₀.table.segmentIndex.contains s) ?_ ?_ ?_
    ⟨hok, hnone⟩ hrun
  · rintro es e ⟨hall, hstatements⟩
    rw [TableOp.statements_concat] at hstatements
    exact ⟨fun op hop => hall op (List.mem_append_left _ hop),
      (List.append_eq_nil_iff.mp hstatements).1⟩
  · refine ⟨.created hcreated, ?_, hdirectory⟩
    obtain ⟨fs, seg, -, -, rfl⟩ := created_iff.mp hcreated
    rfl
  · intro es e t u hw ht hstep
    obtain ⟨hall, hstatements⟩ := hw
    rw [TableOp.statements_concat] at hstatements
    have he : e.statement? = none := by simpa using (List.append_eq_nil_iff.mp hstatements).2
    exact ht.step (hall e (by simp)) he hstep

/-- A batch read of a log that is written out does as it should exactly when the range is empty, or
there is a record and no statement in the range has `2 ^ 31 - 1` bytes. -/
theorem batchReads_iff (hcreated : Created env tableName schema [] s₀)
    (hdirectory : s₀.fs (logDirectory env tableName) = none)
    (hrun : run (TableOp.step env) ops s₀ = some s) (hok : ∀ op ∈ ops, op.Succeeds)
    (htotal : (logBytes (TableOp.statements ops)).length < 2 ^ 32) (hflushed : s.pending = [])
    (startOffset endOffset : ℕ) :
    BatchReads env (TableOp.statements ops) startOffset endOffset s ↔
      endOffset ≤ startOffset ∨ TableOp.statements ops ≠ [] ∧
        ∀ m ∈ ((TableOp.statements ops).drop startOffset).take (endOffset - startOffset),
          m.length ≠ 2 ^ 31 - 1 := by
  have hb := InBounds.of_run hrun rfl (by rwa [logBytes_length] at htotal)
  unfold BatchReads
  by_cases hle : endOffset ≤ startOffset
  · have hcount : endOffset - startOffset = 0 := by omega
    simp [Table.getBatchData, hcount, Table.getBatchLoop, hle]
  by_cases hnone : TableOp.statements ops = []
  · have hunread := Unread.of_run hcreated hdirectory hrun hok hnone
    rw [hunread.getBatchData (Nat.not_le.mp hle)]
    simp [hle, hnone]
  · have hinv := TableInv.of_run hcreated hrun hok hb
    obtain ⟨t, ht, -⟩ := hinv.log.getBatchLoop hb hnone (endOffset - startOffset) startOffset []
    have hrange : (endOffset - startOffset = 0 ∨
          startOffset + (endOffset - startOffset) ≤ (TableOp.statements ops).length) ↔
        endOffset ≤ startOffset ∨ endOffset ≤ (TableOp.statements ops).length := by omega
    rw [Table.getBatchData, ht, hinv.log.flushed_eq hflushed]
    by_cases hlong : ∃ m ∈ ((TableOp.statements ops).drop startOffset).take
        (endOffset - startOffset), m.length = 2 ^ 31 - 1
    · rw [readBatch_long hlong]
      obtain ⟨m, hm, hlength⟩ := hlong
      constructor
      · intro h
        cases h
      · rintro (h | ⟨-, h⟩)
        · exact absurd h hle
        · exact absurd hlength (h m hm)
    · have hshort : ∀ m ∈ ((TableOp.statements ops).drop startOffset).take
          (endOffset - startOffset), m.length ≠ 2 ^ 31 - 1 :=
        fun m hm hlength => hlong ⟨m, hm, hlength⟩
      rw [readBatch_all hshort]
      simp only [hrange, List.nil_append, true_iff]
      exact Or.inr ⟨hnone, hshort⟩

theorem batchReads_iff_two_puts :
    let ms := [ascii "insert t c,timestamp 1,7", ascii "insert t c,timestamp 2,8"]
    ∃ s, run (TableOp.step Env.default) twoStatements
        (emptyTable Env.default (ascii "t") keySchema) = some s ∧
      (BatchReads Env.default ms 1 3 s ↔
        3 ≤ 1 ∨ ms ≠ [] ∧ ∀ m ∈ (ms.drop 1).take (3 - 1), m.length ≠ 2 ^ 31 - 1) := by
  have hflushed : (run (TableOp.step Env.default) twoStatements
      (emptyTable Env.default (ascii "t") keySchema)).map TableState.pending = some [] := by
    decide +kernel
  obtain ⟨s, hs, hpending⟩ := Option.map_eq_some_iff.mp hflushed
  exact ⟨s, hs, batchReads_iff (created_emptyTable Env.default (ascii "t") keySchema rfl)
    (by decide +kernel) hs
    (by simpa [twoStatements, TableOp.Succeeds] using ⟨⟨Complete.ok _, rfl⟩, Complete.ok _, rfl⟩)
    (by decide +kernel) hpending 1 3⟩

/-- Before the first `Put` a batch read of a record that is not there ends the process. -/
theorem batch_read_asserts :
    (Table.getBatchData Env.default 0 1 (emptyTable Env.default (ascii "t") keySchema)).1 =
        .error .assertFailed ∧
      ¬ BatchReads Env.default [] 0 1 (emptyTable Env.default (ascii "t") keySchema) := by
  have hasserts : (Table.getBatchData Env.default 0 1
      (emptyTable Env.default (ascii "t") keySchema)).1 = .error .assertFailed := by
    decide +kernel
  refine ⟨hasserts, ?_⟩
  unfold BatchReads
  rw [hasserts]
  exact nofun

end Run
end Ibdb.Storage
