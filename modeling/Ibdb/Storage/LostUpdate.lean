import Ibdb.Storage.Answers
import Ibdb.Storage.Outcomes

/-! Collisions in the index: a statement whose column, timestamp and value have an offset already. -/
namespace Ibdb.Storage
open Base Log

/-- The entries that the statement makes in the index: its key columns with their values, at its
timestamp. -/
def Enters (env : Env) (statement : Bytes) (s : TableState) (column : Bytes) (timestamp : UInt64)
    (value : Bytes) : Prop :=
  s.table.segmentIndex.contains column = true ∧ posts env column timestamp value statement = true

/-- No entry of the statement is in the index yet. -/
def Untaken (env : Env) (statement : Bytes) (s : TableState) : Prop :=
  ∀ column timestamp value, Enters env statement s column timestamp value →
    s.table.segmentIndex.get column timestamp value = none

/-- `Put` reports success only when each entry of the statement has the offset it assigned, and
not when one was taken. -/
structure NoLostUpdate (env : Env) (io : DiskCalls) (statement : Bytes) (s : TableState) :
    Prop where
  holds : (Table.put env io statement s).1 = .ok true →
    ∀ column timestamp value, Enters env statement s column timestamp value →
      (Table.put env io statement s).2.table.segmentIndex.get column timestamp value =
        some s.table.currentOffset
  refuses : (∃ column timestamp value, Enters env statement s column timestamp value ∧
      s.table.segmentIndex.get column timestamp value ≠ none) →
    (Table.put env io statement s).1 ≠ .ok true

section LostUpdate
variable {env : Env} {io : DiskCalls} {statement : Bytes} {s : TableState}

theorem NoLostUpdate.of_not_true (h : (Table.put env io statement s).1 ≠ .ok true) :
    NoLostUpdate env io statement s := ⟨fun htrue => absurd htrue h, fun _ => h⟩

/-- A `Put` that reports success has added every entry that was not there, and no other. -/
theorem put_adds (hs : statement.length < 2 ^ 31)
    (htrue : (Table.put env io statement s).1 = .ok true) :
    Segment.Adds s.table.currentOffset (Enters env statement s) s.table.segmentIndex
      (Table.put env io statement s).2.table.segmentIndex := by
  have hback : ∀ fault, (Table.put env io statement s).1 = .error fault →
      fault.isException = true := by
    rw [htrue]
    exact nofun
  have hsync := ((put_true_iff hback).mp htrue).1
  obtain ⟨hf, hmod⟩ := stream_and_length_of_put hback
  obtain ⟨t, ht, -, -, -, hsegment⟩ := putDisk_written env io hf hmod hsync
  obtain ⟨result, seg, hput, -, -, hadds⟩ := put_spec ht hs
  rw [hsegment] at hadds
  rw [hput]
  exact hadds

theorem noLostUpdate_of_true (hs : statement.length < 2 ^ 31)
    (htrue : (Table.put env io statement s).1 = .ok true) :
    NoLostUpdate env io statement s ↔ Untaken env statement s := by
  have hadds := put_adds hs htrue
  constructor
  · intro h column timestamp value henters
    by_contra htaken
    exact h.refuses ⟨column, timestamp, value, henters, htaken⟩ htrue
  · intro h
    refine ⟨fun _ column timestamp value henters => ?_, ?_⟩
    · rw [hadds.added column timestamp value henters, h column timestamp value henters,
        Option.getD_none]
    · rintro ⟨column, timestamp, value, henters, htaken⟩
      exact absurd (h column timestamp value henters) htaken

/-- A `Put` that comes back loses no update silently exactly when it fails anyway, its `Sync` or
the statement being bad, or when no entry of the statement is taken. -/
theorem noLostUpdate_iff (env : Env) (io : DiskCalls) (statement : Bytes) (s : TableState)
    (hs : statement.length < 2 ^ 31)
    (hback : ∀ fault, (Table.put env io statement s).1 = .error fault → fault.isException = true) :
    NoLostUpdate env io statement s ↔
      (s.table.SyncDue ∧ io.sync ≠ none) ∨ ¬ Indexable env s.table.segmentIndex statement ∨
        Untaken env statement s := by
  by_cases htrue : (Table.put env io statement s).1 = .ok true
  · obtain ⟨hsync, hindexable⟩ := (put_true_iff hback).mp htrue
    rw [noLostUpdate_of_true hs htrue]
    tauto
  · have hfails := fun h => htrue ((put_true_iff hback).mpr h)
    refine iff_of_true (.of_not_true htrue) ?_
    tauto

theorem noLostUpdate_iff_second_put :
    let s := (Table.put Env.default .ok (ascii "insert t c,timestamp 1,7")
      (emptyTable Env.default (ascii "t") keySchema)).2
    NoLostUpdate Env.default .ok (ascii "insert t c,timestamp 2,8") s ↔
      (s.table.SyncDue ∧ DiskCalls.ok.sync ≠ none) ∨
        ¬ Indexable Env.default s.table.segmentIndex (ascii "insert t c,timestamp 2,8") ∨
        Untaken Env.default (ascii "insert t c,timestamp 2,8") s := by
  intro s
  have htrue : (Table.put Env.default .ok (ascii "insert t c,timestamp 2,8") s).1 = .ok true := by
    decide +kernel
  refine noLostUpdate_iff _ _ _ _ (by decide) fun fault h => ?_
  rw [htrue] at h
  cases h

/-- A second statement with the same value and timestamp: `Put` reports success and the entry
keeps the offset of the first. -/
theorem put_true_on_taken_entry :
    ∃ s, run (TableOp.step Env.default) [.put .ok (ascii "insert t c,timestamp 1,7")]
        (emptyTable Env.default (ascii "t") keySchema) = some s ∧
      s.table.currentOffset = 1 ∧
      (Table.put Env.default .ok (ascii "insert t c,timestamp,d 1,7,x") s).1 = .ok true ∧
      (Table.put Env.default .ok (ascii "insert t c,timestamp,d 1,7,x") s).2.table.segmentIndex.get
        (ascii "c") 7 (ascii "1") = some 0 ∧
      ¬ NoLostUpdate Env.default .ok (ascii "insert t c,timestamp,d 1,7,x") s := by
  have htrue : (Table.put Env.default .ok (ascii "insert t c,timestamp,d 1,7,x")
      (Table.put Env.default .ok (ascii "insert t c,timestamp 1,7")
        (emptyTable Env.default (ascii "t") keySchema)).2).1 = .ok true := by decide +kernel
  refine ⟨(Table.put Env.default .ok (ascii "insert t c,timestamp 1,7")
    (emptyTable Env.default (ascii "t") keySchema)).2, ?_, by decide +kernel, htrue,
    by decide +kernel, ?_⟩
  · rw [run, step_put put_first_statement]
    rfl
  · intro h
    refine h.refuses ⟨ascii "c", 7, ascii "1", ⟨?_, ?_⟩, ?_⟩ htrue
    · decide +kernel
    · decide +kernel
    · decide +kernel

end LostUpdate
end Ibdb.Storage
