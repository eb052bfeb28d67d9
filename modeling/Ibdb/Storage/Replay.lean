import Ibdb.Storage.Answers
import Ibdb.Storage.Positions

/-! A batch read of the whole log, put into another new table, rebuilds the table. -/
namespace Ibdb.Storage
open Base Log
open Std (ExtTreeMap)

/-- The sparse index is a function of the messages. -/
theorem SparseIndex.unique {s : ℕ} {ms : List Bytes} {m m' : OffsetPosMap}
    (h : SparseIndex s ms m) (h' : SparseIndex s ms m') : m = m' := by
  rcases h with ⟨rfl, rfl⟩ | ⟨hne, entries, rfl, hentries⟩
  · rcases h' with ⟨-, rfl⟩ | ⟨hne, -⟩
    · rfl
    · exact absurd rfl hne
  · rcases h' with ⟨rfl, -⟩ | ⟨-, entries', rfl, hentries'⟩
    · exact absurd rfl hne
    · have heq : entries = entries' := by
        apply ExtTreeMap.ext_getElem?
        intro j
        apply Option.ext
        intro p
        rw [hentries, hentries']
      rw [heq]

theorem Created.segmentIndex_eq {env : Env} {tableName : Bytes} {schema : List Field}
    {content : Bytes} {s : TableState} (h : Created env tableName schema content s) :
    s.table.segmentIndex = (Table.buildKeys schema Segment.empty).2 := by
  obtain ⟨fs, seg, -, hbuild, rfl⟩ := created_iff.mp h
  rw [hbuild]
  rfl

section Replay
variable {env : Env} {tableName tableName' : Bytes} {schema : List Field}
  {s₀ s₀' s t : TableState} {ms : List Bytes}

/-- A batch read that comes through has read every one of its records. -/
theorem length_of_readBatch {f count i : ℕ} {data data' : List Bytes}
    (h : readBatch ms f count i data = .ok (true, data')) {j : ℕ} {m : Bytes} (hi : i ≤ j)
    (hj : j < i + count) (hm : ms[j]? = some m) : m.length ≠ 2 ^ 31 - 1 := by
  induction count generalizing i data with
  | zero => omega
  | succ count ih =>
    rw [readBatch] at h
    rcases hread : readRecord ms f i with fault | _ | found <;> rw [hread] at h
    · cases h
    · cases h
    · by_cases hij : i = j
      · subst hij
        have heq : found = m := Option.some.inj ((readRecord_eq_some hread).1.symm.trans hm)
        subst heq
        exact readRecord_length_ne hread
      · exact ih h (by omega) (by omega)

/-- The puts of statements in order, where libc fails nowhere. -/
def replay (data : List Bytes) : List TableOp := data.map (TableOp.put .ok)

theorem statements_replay (data : List Bytes) : TableOp.statements (replay data) = data := by
  simp [TableOp.statements, replay, List.filterMap_map, Function.comp_def, TableOp.statement?]

/-- A log of these messages can be put into a new table, whether or not each can be indexed. -/
theorem exists_replay (hcreated : Created env tableName schema [] s₀) (hb : InBounds ms) :
    ∃ t, run (TableOp.step env) (replay ms) s₀ = some t ∧
      TableInv env tableName s₀.table.segmentIndex.contains ms t := by
  have hall := statements_replay ms
  suffices hrun : ∃ t, run (TableOp.step env) (replay ms) s₀ = some t ∧
      TableInv env tableName s₀.table.segmentIndex.contains (TableOp.statements (replay ms)) t by
    rwa [hall] at hrun
  apply Run.exists_run (P := fun ops t =>
    TableInv env tableName s₀.table.segmentIndex.contains (TableOp.statements ops) t)
    (.created hcreated)
  intro pre op post u hes hinv
  have hmem : op ∈ replay ms := by simp [hes]
  obtain ⟨m, hm, rfl⟩ := List.mem_map.mp hmem
  have hbefore : InBounds (TableOp.statements pre) := by
    rw [← hall, hes, TableOp.statements, List.filterMap_append] at hb
    exact hb.of_append
  obtain ⟨result, t, ht, hfault, -, hnext, -⟩ := hinv.put (Complete.ok m) rfl
    (hb.message m hm) (hbefore.length_lt.trans (by norm_num))
  refine ⟨t, ?_, ?_⟩
  · rw [TableOp.step, ht]
    exact afterCall_put hfault
  · rw [TableOp.statements_concat]
    exact hnext

/-- Neither the log, the counter, the sparse index nor any `Get` tells the tables apart, once
the second log is written out too. -/
structure Rebuilt (env : Env) (s t : TableState) : Prop where
  logContents : t.logContents = s.logContents
  currentOffset : t.table.currentOffset = s.table.currentOffset
  offsetPosMap : t.table.offsetPosMap = s.table.offsetPosMap
  get : ∀ statement, (Table.get env statement (t.drain t.pending.length)).1 =
    (Table.get env statement s).1

/-- `GetBatchData(0, n)` of the first table, put into the second, rebuilds the first. -/
def Replays (env : Env) (n : ℕ) (s s₀' : TableState) : Prop :=
  ∃ data t, (Table.getBatchData env 0 n s).1 = .ok (true, data) ∧
    run (TableOp.step env) (replay data) s₀' = some t ∧ Rebuilt env s t

theorem TableInv.rebuilt {isKey : Bytes → Bool} (h : TableInv env tableName isKey ms s)
    (h' : TableInv env tableName' isKey ms t) (hb : InBounds ms)
    (hlen : ∀ m ∈ ms, m.length < 2 ^ 31 - 1) (hflushed : s.pending = []) : Rebuilt env s t where
  logContents := h'.log.contents.trans h.log.contents.symm
  currentOffset := h'.log.currentOffset.trans h.log.currentOffset.symm
  offsetPosMap := h'.log.index.unique h.log.index
  get := by
    intro statement
    have hdrained : (t.drain t.pending.length).pending = [] := by simp
    rw [h.get_flushed hb hlen hflushed, (h'.drain _).get_flushed hb hlen hdrained]

/-- The log of NUL-free statements below `2 ^ 32` bytes rebuilds its table exactly when every
statement is shorter than `2 ^ 31 - 1` bytes. Statements that were not indexed are replayed with
the others. -/
theorem replays_iff (hcreated : Created env tableName schema [] s₀)
    (hcreated' : Created env tableName' schema [] s₀') {ops : List TableOp}
    (hrun : run (TableOp.step env) ops s₀ = some s) (hok : ∀ op ∈ ops, op.Succeeds)
    (hms : TableOp.statements ops = ms) (hnul : ∀ m ∈ ms, 0 ∉ m)
    (htotal : (ms.map fun m => 12 + m.length).sum < 2 ^ 32) (hflushed : s.pending = []) :
    Replays env ms.length s s₀' ↔ ∀ m ∈ ms, m.length < 2 ^ 31 - 1 := by
  have hb := InBounds.of_run hrun hms htotal
  have hinv := TableInv.of_run hcreated hrun hok (hms ▸ hb)
  rw [hms] at hinv
  constructor
  · intro hw m hm
    obtain ⟨data, t, hread, -, -⟩ := hw
    obtain ⟨u, hu, -⟩ := hinv.log.getBatchLoop hb (List.ne_nil_of_mem hm) (ms.length - 0) 0 []
    rw [Table.getBatchData, hu] at hread
    obtain ⟨j, hj, rfl⟩ := List.getElem_of_mem hm
    have hne := length_of_readBatch hread (Nat.zero_le j) (by omega) (List.getElem?_eq_getElem hj)
    have hlt := hb.message _ hm
    omega
  · intro hlen
    obtain ⟨t, ht, hinv'⟩ := exists_replay hcreated' hb
    rw [hcreated'.segmentIndex_eq, ← hcreated.segmentIndex_eq] at hinv'
    refine ⟨ms, t, ?_, ht, hinv.rebuilt hinv' hb hlen hflushed⟩
    have hcut : ms.map cString = ms :=
      (List.map_congr_left fun m hm => cString_of_nul_free (hnul m hm)).trans (List.map_id' ms)
    rw [hinv.getBatchData_flushed hb hlen hflushed (Nat.zero_le _) le_rfl, Nat.sub_zero,
      List.drop_zero, List.take_length, hcut]

theorem replays_iff_two_puts :
    ∃ s, run (TableOp.step Env.default)
        (replay [ascii "insert t c,timestamp 1,7", ascii "insert t c,timestamp 1,x"] ++
          [.sync none]) (emptyTable Env.default (ascii "t") keySchema) = some s ∧
      (Replays Env.default 2 s (emptyTable Env.default (ascii "u") keySchema) ↔
        ∀ m ∈ [ascii "insert t c,timestamp 1,7", ascii "insert t c,timestamp 1,x"],
          m.length < 2 ^ 31 - 1) := by
  have hcreated (name : Bytes) := created_emptyTable Env.default name keySchema rfl
  have hshort : ∀ m ∈ [ascii "insert t c,timestamp 1,7", ascii "insert t c,timestamp 1,x"],
      m.length < 2 ^ 31 - 1 := by simp [ascii]
  obtain ⟨t, ht, hinv⟩ := exists_replay (hcreated (ascii "t"))
    (InBounds.of_short hshort (by simp [ascii]))
  have hrun := Run.run_concat.mpr ⟨t, ht,
    show TableOp.step Env.default (.sync none) t = some (t.drain t.pending.length) by
      rw [TableOp.step, hinv.log.sync]
      rfl⟩
  have hstatements := TableOp.statements_concat
    (replay [ascii "insert t c,timestamp 1,7", ascii "insert t c,timestamp 1,x"]) (.sync none)
  rw [statements_replay] at hstatements
  refine ⟨_, hrun, replays_iff (hcreated (ascii "t")) (hcreated (ascii "u")) hrun ?_ hstatements
    (by simp [ascii, TableOp.statement?]) (by simp [ascii, TableOp.statement?]) (by simp)⟩
  simpa [replay, TableOp.Succeeds] using ⟨⟨Complete.ok _, rfl⟩, Complete.ok _, rfl⟩

end Replay

theorem getBatchData_longStatement {body : Bytes}
    (hlen : (longStatement body).length = 2 ^ 31 - 1) {tableName : Bytes} {isKey : Bytes → Bool}
    {s : TableState} (h : TableInv Env.default tableName isKey [longStatement body] s)
    (hflushed : s.pending = []) :
    (Table.getBatchData Env.default 0 1 s).1 = .error .badAlloc := by
  obtain ⟨t, ht, -⟩ := h.log.getBatchLoop (inBounds_longStatement hlen) (by simp) (1 - 0) 0 []
  rw [Table.getBatchData, ht, h.log.flushed_eq hflushed, readBatch,
    readRecord_longStatement hlen]

/-- `Put` took a statement of `2 ^ 31 - 1` bytes; the batch read of the log throws
`bad_array_new_length` on it. -/
theorem not_replays_longStatement :
    (longStatement longBody).length = 2 ^ 31 - 1 ∧ 0 ∉ longStatement longBody ∧
      ∃ t s, Table.put Env.default .ok (longStatement longBody)
          (emptyTable Env.default (ascii "t") keySchema) = (.ok true, t) ∧
        run (TableOp.step Env.default) [.put .ok (longStatement longBody), .flush (2 ^ 32)]
          (emptyTable Env.default (ascii "t") keySchema) = some s ∧ s.pending = [] ∧
        (Table.getBatchData Env.default 0 1 s).1 = .error .badAlloc ∧
        ¬ Replays Env.default 1 s (emptyTable Env.default (ascii "u") keySchema) := by
  obtain ⟨t, s, ht, hs, hinv, hpending, -⟩ :=
    run_longStatement no_separator_longBody length_longStatement
  have hthrow := getBatchData_longStatement length_longStatement hinv hpending
  refine ⟨length_longStatement, nul_free_longStatement, t, s, ht, hs, hpending, hthrow, ?_⟩
  rintro ⟨data, u, hread, -, -⟩
  rw [hthrow] at hread
  cases hread

end Ibdb.Storage
