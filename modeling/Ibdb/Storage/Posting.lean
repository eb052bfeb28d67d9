import Ibdb.Storage.SegmentIndex
import Ibdb.Storage.LogRead

/-! What one statement adds to the index, and what `Put` does when it cannot be parsed. -/
namespace Ibdb.Storage
open Base Log

/-! The loop of `Put` touches the index alone. -/

namespace Segment

/-- `Table.putColumns` on the index. -/
def putColumns (timestamp : UInt64) (valueResult : List Bytes) (currentOffset : ℕ) :
    ℕ → List Bytes → Exec Fault Segment Bool
  | _, [] => return true
  | i, key :: rest => do
    if (← Exec.get).contains key then
      let value ← vectorAt valueResult i
      let _ ← put key timestamp value currentOffset
      putColumns timestamp valueResult currentOffset (i + 1) rest
    else putColumns timestamp valueResult currentOffset (i + 1) rest

/-- `Table.indexStatement` on the index. -/
def indexStatement (env : Env) (result : List Bytes) (currentOffset : ℕ) :
    Exec Fault Segment Bool := do
  let keyResult := splitString env (← vectorAt result 2) (ascii ",")
  let pos := keyResult.findIdx (· = env.tableTimestamp)
  let valueResult := splitString env (← vectorAt result 3) (ascii ",")
  match env.lexicalCast (← vectorAt valueResult pos) with
  | none => return false
  | some timestamp => putColumns timestamp valueResult currentOffset 0 keyResult

end Segment

theorem onSegment_pure {α : Type} (a : α) : Table.onSegment (pure a) = pure a :=
  Exec.zoom_pure (fun _ => rfl) a

theorem onSegment_bind {α β : Type} (x : Exec Fault Segment α) (f : α → Exec Fault Segment β) :
    Table.onSegment (x >>= f) = Table.onSegment x >>= fun a => Table.onSegment (f a) := by
  unfold Table.onSegment
  refine Exec.zoom_bind ?_ ?_ x f
  · intro t s
    rfl
  · intro t u s
    rfl

theorem onSegment_get (s : TableState) :
    Table.onSegment Exec.get s = (.ok s.table.segmentIndex, s) := rfl

theorem onSegment_vectorAt {α : Type} (xs : List α) (i : ℕ) :
    Table.onSegment (vectorAt xs i) = vectorAt xs i := by
  unfold vectorAt
  cases xs[i]? with
  | none => rfl
  | some x => exact onSegment_pure x

/-- `PutIndex` always returns `true`. -/
private theorem putIndex_bind (key : Bytes) (timestamp : UInt64) (value : Bytes) (offset : ℕ)
    (next : TableM Bool) :
    (do if !(← Table.putIndex key timestamp value offset) then return false else next) =
      Table.onSegment (Segment.put key timestamp value offset) >>= fun _ => next := by
  funext s
  rw [Table.putIndex]
  simp only [Exec.bind_apply]
  rcases Table.onSegment (Segment.put key timestamp value offset) s with ⟨_ | b, t⟩ <;> rfl

theorem putColumns_eq (timestamp : UInt64) (valueResult : List Bytes) (currentOffset i : ℕ)
    (keys : List Bytes) :
    Table.putColumns timestamp valueResult currentOffset i keys =
      Table.onSegment (Segment.putColumns timestamp valueResult currentOffset i keys) := by
  induction keys generalizing i with
  | nil => exact (onSegment_pure true).symm
  | cons key rest ih =>
    funext s
    rw [Table.putColumns, Segment.putColumns, Exec.bind_ok (Exec.get_apply s), onSegment_bind,
      Exec.bind_ok (onSegment_get s)]
    by_cases hkey : s.table.segmentIndex.contains key
    · simp only [hkey, if_true, onSegment_bind, onSegment_vectorAt, ← ih, putIndex_bind]
    · simp only [hkey, Bool.false_eq_true, if_false, ih]

theorem indexStatement_eq (env : Env) (result : List Bytes) (currentOffset : ℕ) :
    Table.indexStatement env result currentOffset =
      Table.onSegment (Segment.indexStatement env result currentOffset) := by
  unfold Table.indexStatement Segment.indexStatement
  simp only [onSegment_bind, onSegment_vectorAt]
  congr 1
  funext columns
  congr 1
  funext values
  congr 1
  funext text
  cases env.lexicalCast text with
  | none => exact (onSegment_pure false).symm
  | some timestamp => exact putColumns_eq timestamp _ _ 0 _

/-! Which statements the loop gets through. -/

/-- Every key column in the list, from place `i` on, has a value. -/
def Covered (seg : Segment) (keys valueResult : List Bytes) (i : ℕ) : Prop :=
  ∀ j key, keys[j]? = some key → seg.contains key = true → i + j < valueResult.length

theorem covered_cons {seg : Segment} {key : Bytes} {keys valueResult : List Bytes} {i : ℕ} :
    Covered seg (key :: keys) valueResult i ↔
      (seg.contains key = true → i < valueResult.length) ∧
        Covered seg keys valueResult (i + 1) := by
  constructor
  · intro h
    refine ⟨h 0 key rfl, fun j k hk hc => ?_⟩
    have hj := h (j + 1) k hk hc
    omega
  · intro hw j k hk hc
    obtain ⟨h0, h⟩ := hw
    cases j with
    | zero =>
      have heq : key = k := by simpa using hk
      subst heq
      exact h0 hc
    | succ j =>
      have hj := h j k hk hc
      omega

theorem covered_congr {seg seg' : Segment} (h : ∀ k, seg'.contains k = seg.contains k)
    {keys valueResult : List Bytes} {i : ℕ} :
    Covered seg' keys valueResult i ↔ Covered seg keys valueResult i := by
  simp only [Covered, h]

theorem vectorAt_of_some {σ α : Type} {xs : List α} {i : ℕ} {x : α} (h : xs[i]? = some x)
    (s : σ) : (vectorAt xs i : Exec Fault σ α) s = (.ok x, s) := by
  rw [vectorAt, h]
  rfl

theorem vectorAt_of_none {σ α : Type} {xs : List α} {i : ℕ} (h : xs[i]? = none) (s : σ) :
    (vectorAt xs i : Exec Fault σ α) s = (.error .outOfRange, s) := by
  rw [vectorAt, h]
  rfl

/-- The loop returns `true` when every key column has a value, throws when one has none, and
otherwise does not come back. -/
theorem putColumns_result (timestamp : UInt64) (valueResult : List Bytes) (offset i : ℕ)
    (keys : List Bytes) (seg : Segment) {result : Except Fault Bool}
    (h : (Segment.putColumns timestamp valueResult offset i keys seg).1 = result) :
    (result = .ok true ∧ Covered seg keys valueResult i) ∨
      (result = .error .outOfRange ∧ ¬ Covered seg keys valueResult i) ∨
        result = .error .undefined := by
  induction keys generalizing i seg with
  | nil => exact .inl ⟨h.symm, fun j key hkey => by simp at hkey⟩
  | cons key rest ih =>
    rw [Segment.putColumns, Exec.bind_ok (Exec.get_apply seg)] at h
    rw [covered_cons]
    by_cases hkey : seg.contains key = true
    · simp only [hkey, if_true] at h
      by_cases hi : i < valueResult.length
      · rw [Exec.bind_ok (vectorAt_of_some (List.getElem?_eq_getElem hi) seg), Exec.bind_apply] at h
        obtain ⟨hput, hcontains⟩ := Segment.put_result hkey timestamp valueResult[i] offset
        rcases hrun : Segment.put key timestamp valueResult[i] offset seg with ⟨_ | b, seg'⟩ <;>
          simp only [hrun] at h hput hcontains
        · refine .inr (.inr ?_)
          rw [← h]
          simpa using hput
        · rw [← covered_congr hcontains]
          simpa only [hkey, hi, forall_const, true_and] using ih (i + 1) seg' h
      · rw [Exec.bind_error (vectorAt_of_none (List.getElem?_eq_none (Nat.not_lt.mp hi)) seg)] at h
        exact .inr (.inl ⟨h.symm, fun hall => hi (hall.1 hkey)⟩)
    · simp only [hkey, Bool.false_eq_true, if_false] at h
      simpa only [hkey, Bool.false_eq_true, false_implies, true_and] using ih (i + 1) seg h

/-! A statement's fields. -/

/-- The columns, the values and the text of the timestamp. -/
def fields (env : Env) (statement : Bytes) : Option (List Bytes × List Bytes × Bytes) := do
  let result := splitString env statement (ascii " ")
  let keyResult := splitString env (← result[2]?) (ascii ",")
  let valueResult := splitString env (← result[3]?) (ascii ",")
  let text ← valueResult[keyResult.findIdx (· = env.tableTimestamp)]?
  return (keyResult, valueResult, text)

/-- `Put` indexes the statement: its fields are there, the timestamp parses, and every key
column among its columns has a value. -/
def Indexable (env : Env) (seg : Segment) (statement : Bytes) : Prop :=
  ∃ columns values text timestamp, fields env statement = some (columns, values, text) ∧
    env.lexicalCast text = some timestamp ∧ Covered seg columns values 0

theorem Segment.indexStatement_eq (env : Env) (statement : Bytes) (offset : ℕ) (seg : Segment) :
    Segment.indexStatement env (splitString env statement (ascii " ")) offset seg =
      match fields env statement with
      | none => (.error .outOfRange, seg)
      | some (columns, values, text) =>
        match env.lexicalCast text with
        | none => (.ok false, seg)
        | some timestamp => Segment.putColumns timestamp values offset 0 columns seg := by
  rw [Segment.indexStatement, fields]
  cases h2 : (splitString env statement (ascii " "))[2]? with
  | none =>
    rw [Exec.bind_error (vectorAt_of_none h2 seg)]
    rfl
  | some columns =>
    rw [Exec.bind_ok (vectorAt_of_some h2 seg)]
    cases h3 : (splitString env statement (ascii " "))[3]? with
    | none =>
      rw [Exec.bind_error (vectorAt_of_none h3 seg)]
      rfl
    | some values =>
      rw [Exec.bind_ok (vectorAt_of_some h3 seg)]
      cases htext : (splitString env values (ascii ","))[(splitString env columns
          (ascii ",")).findIdx (· = env.tableTimestamp)]? with
      | none =>
        rw [Exec.bind_error (vectorAt_of_none htext seg)]
        simp [htext]
      | some text =>
        rw [Exec.bind_ok (vectorAt_of_some htext seg)]
        simp only [Option.bind_eq_bind, Option.bind_some, htext, Option.pure_def]
        cases env.lexicalCast text <;> rfl

/-- Indexing ends with `true`, with `false` or `out_of_range`, or not at all. -/
theorem indexStatement_result (env : Env) (statement : Bytes) (offset : ℕ) (seg : Segment)
    {result : Except Fault Bool}
    (h : (Segment.indexStatement env (splitString env statement (ascii " ")) offset seg).1 =
      result) :
    (result = .ok true ∧ Indexable env seg statement) ∨
      ((result = .ok false ∨ result = .error .outOfRange) ∧ ¬ Indexable env seg statement) ∨
        result = .error .undefined := by
  rw [Segment.indexStatement_eq] at h
  unfold Indexable
  cases hfields : fields env statement with
  | none =>
    simp only [hfields] at h
    exact .inr (.inl ⟨.inr h.symm, by simp⟩)
  | some parsed =>
    obtain ⟨columns, values, text⟩ := parsed
    simp only [hfields] at h
    cases htime : env.lexicalCast text with
    | none =>
      simp only [htime] at h
      refine .inr (.inl ⟨.inl h.symm, ?_⟩)
      rintro ⟨_, _, _, _, heq, hcast, -⟩
      cases heq
      simp [htime] at hcast
    | some timestamp =>
      simp only [htime] at h
      rcases putColumns_result timestamp values offset 0 columns seg h with
        ⟨hr, hc⟩ | ⟨hr, hc⟩ | hr
      · exact .inl ⟨hr, columns, values, text, timestamp, rfl, htime, hc⟩
      · refine .inr (.inl ⟨.inr hr, ?_⟩)
        rintro ⟨_, _, _, _, heq, -, hcovered⟩
        cases heq
        exact hc hcovered
      · exact .inr (.inr hr)

/-! What a `Put` that does not return `true` leaves behind. -/

/-- The log, the offset, the sparse index, the manifest and the index are the same. -/
structure SameTable (s t : TableState) : Prop where
  logContents : t.logContents = s.logContents
  currentOffset : t.table.currentOffset = s.table.currentOffset
  offsetPosMap : t.table.offsetPosMap = s.table.offsetPosMap
  tableManifest : t.table.tableManifest = s.table.tableManifest
  segmentIndex : t.table.segmentIndex = s.table.segmentIndex

section Put
variable {env : Env} {io : DiskCalls} {statement : Bytes} {s : TableState}

theorem put_of_putDisk {t : TableState} (h : Table.putDisk env io statement s = (.ok true, t)) :
    Table.put env io statement s =
      Table.onSegment (Segment.indexStatement env (splitString env statement (ascii " "))
        s.table.currentOffset) t := by
  rw [Table.put, Exec.bind_ok (Exec.get_apply s), Exec.bind_ok h, ← indexStatement_eq]
  rfl

theorem put_of_putDisk_false {t : TableState}
    (h : Table.putDisk env io statement s = (.ok false, t)) :
    Table.put env io statement s = (.ok false, t) := by
  rw [Table.put, Exec.bind_ok (Exec.get_apply s), Exec.bind_ok h]
  rfl

theorem put_of_putDisk_error {fault : Fault}
    (h : (Table.putDisk env io statement s).1 = .error fault) :
    (Table.put env io statement s).1 = .error fault := by
  rw [Table.put, Exec.bind_ok (Exec.get_apply s), Exec.bind_error (Prod.ext h rfl)]

/-- A `Put` that comes back had a stream and a length that is not negative. -/
theorem stream_and_length_of_put
    (h : ∀ fault, (Table.put env io statement s).1 = .error fault → fault.isException = true) :
    s.table.wf.fileHandle.filestream = true ∧ statement.length % 2 ^ 32 < 2 ^ 31 := by
  by_contra hne
  have hor : s.table.wf.fileHandle.filestream = false ∨ 2 ^ 31 ≤ statement.length % 2 ^ 32 := by
    rw [not_and_or, Nat.not_lt] at hne
    exact hne.imp_left Bool.eq_false_of_not_eq_true
  obtain ⟨fault, hfault, hkind⟩ := putDisk_error env io hor
  have hexc := h fault (put_of_putDisk_error hfault)
  rcases hkind with rfl | rfl <;> simp [Fault.isException] at hexc

/-- Once the record is written the offset has moved on, whatever comes of the index. -/
theorem put_unchanged_of_sync
    (hback : ∀ fault, (Table.put env io statement s).1 = .error fault → fault.isException = true)
    (hsync : s.table.SyncDue → io.sync = none) :
    ((Table.put env io statement s).1 ≠ .ok true →
        SameTable s (Table.put env io statement s).2) ↔
      Indexable env s.table.segmentIndex statement := by
  obtain ⟨hf, hs⟩ := stream_and_length_of_put hback
  obtain ⟨t, ht, -, -, hoffset, hsegment⟩ := putDisk_written env io hf hs hsync
  have hput := put_of_putDisk ht
  have hrun : (Segment.indexStatement env (splitString env statement (ascii " "))
      s.table.currentOffset s.table.segmentIndex).1 = (Table.put env io statement s).1 := by
    rw [hput, ← hsegment]
    rfl
  have hchanged : ¬ SameTable s (Table.put env io statement s).2 := by
    intro hsame
    have hcurrent := hsame.currentOffset
    rw [hput] at hcurrent
    change t.table.currentOffset = s.table.currentOffset at hcurrent
    omega
  rcases indexStatement_result env statement _ _ hrun with ⟨hr, hi⟩ | ⟨hr, hi⟩ | hr
  · exact ⟨fun _ => hi, fun _ hne => absurd hr hne⟩
  · refine ⟨fun hsame => absurd (hsame ?_) hchanged, fun h => absurd h hi⟩
    rcases hr with hr | hr <;> simp [hr]
  · have hexc := hback _ hr
    simp [Fault.isException] at hexc

theorem put_unchanged_of_sync_failed
    (hback : ∀ fault, (Table.put env io statement s).1 = .error fault → fault.isException = true)
    (hdue : s.table.SyncDue) (hsync : io.sync ≠ none) :
    ((Table.put env io statement s).1 ≠ .ok true →
        SameTable s (Table.put env io statement s).2) ↔
      frame io s.table.currentOffset statement = [] := by
  obtain ⟨hf, hs⟩ := stream_and_length_of_put hback
  obtain ⟨k, hk⟩ := Option.ne_none_iff_exists'.mp hsync
  obtain ⟨t, ht, hcontents, -, wf, htable⟩ := putDisk_sync_failed env io hf hs hdue hk
  rw [put_of_putDisk_false ht]
  constructor
  · intro h
    have hsame := (h (by simp)).logContents
    rwa [hcontents, List.append_right_eq_self] at hsame
  · intro hframe _
    rw [hframe, List.append_nil] at hcontents
    exact ⟨hcontents, by rw [htable], by rw [htable], by rw [htable], by rw [htable]⟩

/-- A `Put` that comes back without `true` leaves the table as it was exactly when there is no
such `Put`: the statement can be indexed and the `Sync` that is due succeeds. The one exception
is a failed `Sync` after writes that wrote nothing. -/
theorem put_unchanged_iff (env : Env) (io : DiskCalls) (statement : Bytes) (s : TableState)
    (hback : ∀ fault, (Table.put env io statement s).1 = .error fault → fault.isException = true) :
    ((Table.put env io statement s).1 ≠ .ok true →
        SameTable s (Table.put env io statement s).2) ↔
      ((s.table.SyncDue → io.sync = none) ∧ Indexable env s.table.segmentIndex statement) ∨
        (s.table.SyncDue ∧ io.sync ≠ none ∧ frame io s.table.currentOffset statement = []) := by
  by_cases hsync : s.table.SyncDue → io.sync = none
  · rw [put_unchanged_of_sync hback hsync]
    tauto
  · have hfailed : s.table.SyncDue ∧ io.sync ≠ none := by tauto
    rw [put_unchanged_of_sync_failed hback hfailed.1 hfailed.2]
    tauto

/-- The first `Put`, of which nothing reached the buffer before its `Sync` failed. -/
theorem put_unchanged_iff_nothing_written :
    let io : DiskCalls := ⟨some 0, some 0, some 0, some 0⟩
    let s := emptyTable Env.default (ascii "t") []
    (Table.put Env.default io (ascii "insert t timestamp 7") s).1 = .ok false ∧
      (((Table.put Env.default io (ascii "insert t timestamp 7") s).1 ≠ .ok true →
          SameTable s (Table.put Env.default io (ascii "insert t timestamp 7") s).2) ↔
        ((s.table.SyncDue → io.sync = none) ∧
            Indexable Env.default s.table.segmentIndex (ascii "insert t timestamp 7")) ∨
          (s.table.SyncDue ∧ io.sync ≠ none ∧
            frame io s.table.currentOffset (ascii "insert t timestamp 7") = [])) := by
  intro io s
  have hfalse : (Table.put Env.default io (ascii "insert t timestamp 7") s).1 = .ok false := rfl
  refine ⟨hfalse, put_unchanged_iff _ _ _ _ fun fault h => ?_⟩
  rw [hfalse] at h
  cases h

/-- A timestamp that is no number: `Put` returns `false` and the log has a record more. -/
theorem put_changed_of_bad_timestamp :
    (Table.put Env.default .ok (ascii "insert t timestamp now")
        (emptyTable Env.default (ascii "t") [])).1 = .ok false ∧
      ¬ SameTable (emptyTable Env.default (ascii "t") [])
        (Table.put Env.default .ok (ascii "insert t timestamp now")
          (emptyTable Env.default (ascii "t") [])).2 := by
  refine ⟨rfl, fun h => ?_⟩
  have hoffset : 1 = 0 := h.currentOffset
  omega

end Put
end Ibdb.Storage
