import Ibdb.Lib.Chunks
import Ibdb.Storage.Table

/-! Records as bytes: where each one starts in the log, and what the reader makes of a log of
which only a prefix has reached the file. -/
namespace Ibdb.Storage
open Base Log

def record (offset : ℕ) (message : Bytes) : Bytes :=
  LittleEndian.encode 8 offset ++ LittleEndian.encode 4 message.length ++ message

def records (ms : List Bytes) : List Bytes := ms.mapIdx record

def logBytes (ms : List Bytes) : Bytes := (records ms).flatten

/-- The byte offset of record `k`; past the last record, the length of the log. -/
def position (ms : List Bytes) (k : ℕ) : ℕ := Chunks.start (records ms) k

@[simp] theorem record_length (offset : ℕ) (m : Bytes) :
    (record offset m).length = 12 + m.length := by
  simp [record]
  omega

theorem record_take_offset (k : ℕ) (m : Bytes) :
    (record k m).take 8 = LittleEndian.encode 8 k := by
  rw [record, List.append_assoc, List.take_left' (by simp)]

theorem record_take_size (k : ℕ) (m : Bytes) :
    ((record k m).drop 8).take 4 = LittleEndian.encode 4 m.length := by
  rw [record, List.append_assoc, List.drop_left' (by simp), List.take_left' (by simp)]

theorem record_drop_header (k : ℕ) (m : Bytes) : (record k m).drop 12 = m := by
  rw [record, List.drop_left' (by simp)]

@[simp] theorem records_length (ms : List Bytes) : (records ms).length = ms.length := by
  simp [records]

theorem records_append (ms ns : List Bytes) :
    records (ms ++ ns) = records ms ++ ns.mapIdx fun i => record (i + ms.length) := by
  simp [records, List.mapIdx_append]

@[simp] theorem logBytes_nil : logBytes [] = [] := rfl

theorem logBytes_concat (ms : List Bytes) (m : Bytes) :
    logBytes (ms ++ [m]) = logBytes ms ++ record ms.length m := by
  simp [logBytes, records_append]

@[simp] theorem position_zero (ms : List Bytes) : position ms 0 = 0 := Chunks.start_zero _

theorem position_of_length_le {ms : List Bytes} {k : ℕ} (h : ms.length ≤ k) :
    position ms k = (logBytes ms).length :=
  Chunks.start_of_length_le (by simpa using h)

theorem position_length (ms : List Bytes) : position ms ms.length = (logBytes ms).length :=
  position_of_length_le le_rfl

theorem position_succ {ms : List Bytes} {k : ℕ} (h : k < ms.length) :
    position ms (k + 1) = position ms k + 12 + ms[k].length := by
  rw [position, Chunks.start_succ (by simpa using h)]
  simp [records, position, Nat.add_assoc]

theorem position_mono (ms : List Bytes) {j k : ℕ} (h : j ≤ k) : position ms j ≤ position ms k :=
  Chunks.start_mono _ h

theorem position_append {ms ns : List Bytes} {k : ℕ} (h : k ≤ ms.length) :
    position (ms ++ ns) k = position ms k := by
  rw [position, records_append, Chunks.start_append (by simpa using h), position]

theorem position_le_length (ms : List Bytes) (k : ℕ) : position ms k ≤ (logBytes ms).length :=
  Chunks.start_le_length _ k

/-- Every record takes at least its header. -/
theorem le_position {ms : List Bytes} {k : ℕ} (h : k ≤ ms.length) : 12 * k ≤ position ms k := by
  induction k with
  | zero => simp
  | succ k ih =>
    have hk := ih (by omega)
    rw [position_succ (by omega)]
    omega

theorem logBytes_length (ms : List Bytes) :
    (logBytes ms).length = (ms.map fun m => 12 + m.length).sum := by
  induction ms using List.reverseRecOn with
  | nil => rfl
  | append_singleton ms m ih =>
    rw [logBytes_concat, List.length_append, record_length, ih, List.map_append, List.sum_append]
    simp

theorem position_eq_length_take {ms : List Bytes} {k : ℕ} (h : k ≤ ms.length) :
    position ms k = (logBytes (ms.take k)).length := by
  have hk : (ms.take k).length = k := List.length_take_of_le h
  have hp : position (ms.take k ++ ms.drop k) k = position (ms.take k) k :=
    position_append (by omega)
  rw [List.take_append_drop] at hp
  rw [hp, position_of_length_le (by omega)]

theorem drop_position {ms : List Bytes} {k : ℕ} (h : k < ms.length) :
    ∃ rest, (logBytes ms).drop (position ms k) = record k ms[k] ++ rest := by
  refine ⟨((records ms).drop (k + 1)).flatten, ?_⟩
  have hk : k < (records ms).length := by simpa using h
  have hd := Chunks.drop_start_add hk (Nat.zero_le _)
  simpa [records, position, logBytes] using hd

/-! Reads at the start of a record of which `g` bytes are in the file. -/

section Header
variable {content rest m : Bytes} {pos g k : ℕ}

theorem pread_record (h : content.drop pos = (record k m ++ rest).take g) (a b : ℕ) :
    pread content b (pos + a) = (((record k m ++ rest).take g).drop a).take b := by
  rw [pread, ← List.drop_drop, h]

private theorem pread_record_length (h : content.drop pos = (record k m ++ rest).take g)
    {a b : ℕ} (hab : a + b ≤ 12 + m.length) :
    (pread content b (pos + a)).length = min b (g - a) := by
  rw [pread_record h]
  simp only [List.length_take, List.length_drop, List.length_append, record_length]
  omega

private theorem pread_record_eq (h : content.drop pos = (record k m ++ rest).take g) {a b : ℕ}
    (hab : a + b ≤ 12 + m.length) (hg : a + b ≤ g) :
    pread content b (pos + a) = ((record k m).drop a).take b := by
  rw [pread_record h, List.drop_take, List.take_take, Nat.min_eq_left (by omega),
    List.drop_append_of_le_length (by simp; omega), List.take_append_of_le_length (by simp; omega)]

theorem getMessageOffset_record (env : Env)
    (h : content.drop pos = (record k m ++ rest).take g) (hk : k < 2 ^ 64) :
    RandomAccessFileHandle.getMessageOffset env content pos =
      if 8 ≤ g then .ok k
      else .error (.ioError (ascii "read_size is not equal offset_length")) := by
  have hl := pread_record_length h (show 0 + 8 ≤ 12 + m.length by omega)
  rw [Nat.add_zero] at hl
  unfold RandomAccessFileHandle.getMessageOffset
  split_ifs with h8
  · have he := pread_record_eq h (show 0 + 8 ≤ 12 + m.length by omega) (by omega)
    rw [Nat.add_zero, List.drop_zero, record_take_offset,
      ← encodeFixed64_eq env.kLittleEndian] at he
    simp [he, decodeFixed64_encodeFixed64 _ _ hk]
  · have hne : (pread content 8 pos).length ≠ 8 := by omega
    simp [hne]

theorem getMessageSize_record (env : Env)
    (h : content.drop pos = (record k m ++ rest).take g) (hm : m.length < 2 ^ 32) :
    RandomAccessFileHandle.getMessageSize env content pos =
      if 12 ≤ g then .ok m.length
      else .error (.ioError (ascii "read_size is not equal message_length")) := by
  have hl := pread_record_length h (show 8 + 4 ≤ 12 + m.length by omega)
  unfold RandomAccessFileHandle.getMessageSize
  split_ifs with h12
  · have he := pread_record_eq h (show 8 + 4 ≤ 12 + m.length by omega) h12
    rw [record_take_size, ← encodeFixed32_eq env.kLittleEndian] at he
    simp [he, decodeFixed32_encodeFixed32 _ _ hm]
  · have hne : (pread content 4 (pos + 8)).length ≠ 4 := by omega
    simp [hne]

/-- A message of `2 ^ 31 - 1` bytes is the one length below `2 ^ 31` that cannot be read. -/
theorem getMessage_record (env : Env)
    (h : content.drop pos = (record k m ++ rest).take g) (hm : m.length < 2 ^ 31) :
    RandomAccessFileHandle.getMessage env content pos =
      if g < 12 then .ok (.error (.ioError (ascii "read_size is not equal message_length")))
      else if m.length = 2 ^ 31 - 1 then .error .badAlloc
      else if 12 + m.length ≤ g then .ok (.ok m)
      else .ok (.error (.ioError (ascii "read_size is not equal message_size"))) := by
  have hl := pread_record_length h (show 8 + 4 ≤ 12 + m.length by omega)
  unfold RandomAccessFileHandle.getMessage
  by_cases h12 : g < 12
  · have hne : (pread content 4 (pos + 8)).length ≠ 4 := by omega
    simp [hne, h12]
  have he := pread_record_eq h (show 8 + 4 ≤ 12 + m.length by omega) (by omega)
  rw [record_take_size, ← encodeFixed32_eq env.kLittleEndian] at he
  have hd : decodeFixed32 env.kLittleEndian (encodeFixed32 env.kLittleEndian m.length) =
      m.length := decodeFixed32_encodeFixed32 _ _ (by omega)
  have hpay := pread_record_length h (show 12 + m.length ≤ 12 + m.length from le_rfl)
  have hneg : ((m.length : ℤ) + 1).bmod (2 ^ 32) < 0 ↔ m.length = 2 ^ 31 - 1 := by
    constructor
    · intro hlt
      by_contra hne
      rw [Int.bmod_eq_of_le (by omega) (by omega)] at hlt
      omega
    · intro heq
      rw [heq]
      decide
  have hm1 : ¬ (m.length : ℤ) = -1 := by omega
  simp only [he, encodeFixed32_length, ne_eq, not_true_eq_false, if_false, hd,
    toInt32_of_lt hm, h12, Int.toNat_natCast, hneg, hm1, hpay]
  by_cases hg : 12 + m.length ≤ g
  · have hfit : min m.length (g - 12) = m.length := by omega
    have hread := pread_record_eq h (show 12 + m.length ≤ 12 + m.length from le_rfl) hg
    rw [record_drop_header, List.take_length] at hread
    simp [hg, hfit, hread]
  · have hshort : ¬ min m.length (g - 12) = m.length := by omega
    simp only [hg, hshort, not_false_eq_true, if_true, if_false]

end Header
end Ibdb.Storage
