import Ibdb.Base.Slice
import Ibdb.Lib.LittleEndian

/-! Fixed-width integers on disk. `kLittleEndian` selects a raw copy of the machine's
own bytes or explicit shifts; both give little-endian bytes. -/
namespace Ibdb.Base

/-- Byte `i` of `value`: `(value >> 8 * i) & 0xff`. -/
def byteAt (value i : ℕ) : UInt8 := UInt8.ofNat ((value >>> (8 * i)) &&& 0xff)

/-- A machine with `kLittleEndian` set keeps `value` low byte first, so the copy of
`memcpy` is `LittleEndian.encode`. -/
def encodeFixed32 (kLittleEndian : Bool) (value : ℕ) : Bytes :=
  if kLittleEndian then LittleEndian.encode 4 value
  else [byteAt value 0, byteAt value 1, byteAt value 2, byteAt value 3]

def encodeFixed64 (kLittleEndian : Bool) (value : ℕ) : Bytes :=
  if kLittleEndian then LittleEndian.encode 8 value
  else [byteAt value 0, byteAt value 1, byteAt value 2, byteAt value 3,
    byteAt value 4, byteAt value 5, byteAt value 6, byteAt value 7]

def decodeFixed32 (kLittleEndian : Bool) (ptr : Bytes) : ℕ :=
  if kLittleEndian then LittleEndian.decode (ptr.take 4)
  else (ptr.getD 0 0).toNat ||| (ptr.getD 1 0).toNat <<< 8 |||
    (ptr.getD 2 0).toNat <<< 16 ||| (ptr.getD 3 0).toNat <<< 24

def decodeFixed64 (kLittleEndian : Bool) (ptr : Bytes) : ℕ :=
  if kLittleEndian then LittleEndian.decode (ptr.take 8)
  else
    let lo := decodeFixed32 false ptr
    let hi := decodeFixed32 false (ptr.drop 4)
    hi <<< 32 ||| lo

private theorem byteAt_eq (value i : ℕ) : byteAt value i = UInt8.ofNat (value / 256 ^ i) := by
  have hs : value >>> (8 * i) = value / 256 ^ i := by
    rw [Nat.shiftRight_eq_div_pow, pow_mul, show 2 ^ 8 = 256 from rfl]
  have hm : (value / 256 ^ i) &&& 0xff = value / 256 ^ i % 2 ^ 8 :=
    Nat.and_two_pow_sub_one_eq_mod _ 8
  rw [byteAt, hs, hm]
  apply UInt8.toNat_inj.mp
  simp

theorem encodeFixed32_eq (le : Bool) (value : ℕ) :
    encodeFixed32 le value = LittleEndian.encode 4 value := by
  cases le
  · simp [encodeFixed32, byteAt_eq, LittleEndian.encode, Nat.div_div_eq_div_mul]
  · rfl

theorem encodeFixed64_eq (le : Bool) (value : ℕ) :
    encodeFixed64 le value = LittleEndian.encode 8 value := by
  cases le
  · simp [encodeFixed64, byteAt_eq, LittleEndian.encode, Nat.div_div_eq_div_mul]
  · rfl

private theorem shiftLeft_or {a b i : ℕ} (h : b < 2 ^ i) : b ||| a <<< i = b + a * 2 ^ i := by
  rw [Nat.lor_comm, ← Nat.shiftLeft_add_eq_or_of_lt h, Nat.shiftLeft_eq, Nat.add_comm]

theorem decodeFixed32_eq (le : Bool) {ptr : Bytes} (h : 4 ≤ ptr.length) :
    decodeFixed32 le ptr = LittleEndian.decode (ptr.take 4) := by
  cases le
  · match ptr, h with
    | a :: b :: c :: d :: rest, _ =>
      have ha := a.toNat_lt
      have hb := b.toNat_lt
      have hc := c.toNat_lt
      have hd := d.toNat_lt
      simp only [decodeFixed32, Bool.false_eq_true, if_false, List.getD_cons_zero,
        List.getD_cons_succ, List.take_succ_cons, List.take_zero, LittleEndian.decode]
      have hab : a.toNat ||| b.toNat <<< 8 = a.toNat + b.toNat * 2 ^ 8 := shiftLeft_or ha
      rw [hab, shiftLeft_or (show a.toNat + b.toNat * 2 ^ 8 < 2 ^ 16 by omega),
        shiftLeft_or (show a.toNat + b.toNat * 2 ^ 8 + c.toNat * 2 ^ 16 < 2 ^ 24 by omega)]
      ring
  · rfl

theorem decodeFixed64_eq (le : Bool) {ptr : Bytes} (h : 8 ≤ ptr.length) :
    decodeFixed64 le ptr = LittleEndian.decode (ptr.take 8) := by
  cases le
  · have hlo := decodeFixed32_eq false (show 4 ≤ ptr.length by omega)
    have hhi := decodeFixed32_eq false (show 4 ≤ (ptr.drop 4).length by simp; omega)
    have hlt := LittleEndian.decode_lt (ptr.take 4)
    rw [List.length_take_of_le (by omega)] at hlt
    simp only [decodeFixed64, Bool.false_eq_true, if_false]
    rw [hlo, hhi, Nat.lor_comm, shiftLeft_or (by omega)]
    match ptr, h with
    | _ :: _ :: _ :: _ :: _ :: _ :: _ :: _ :: rest, _ =>
      simp only [List.drop_succ_cons, List.drop_zero, List.take_succ_cons, List.take_zero,
        LittleEndian.decode]
      ring
  · rfl

@[simp] theorem encodeFixed32_length (le : Bool) (value : ℕ) :
    (encodeFixed32 le value).length = 4 := by
  rw [encodeFixed32_eq, LittleEndian.encode_length]

@[simp] theorem encodeFixed64_length (le : Bool) (value : ℕ) :
    (encodeFixed64 le value).length = 8 := by
  rw [encodeFixed64_eq, LittleEndian.encode_length]

/-- What was encoded under one setting of `kLittleEndian` decodes under any other. -/
theorem decodeFixed32_encodeFixed32 (le le' : Bool) {value : ℕ} (h : value < 2 ^ 32) :
    decodeFixed32 le (encodeFixed32 le' value) = value := by
  rw [decodeFixed32_eq le (by simp), encodeFixed32_eq, List.take_of_length_le (by simp),
    LittleEndian.decode_encode, Nat.mod_eq_of_lt (by omega)]

theorem decodeFixed64_encodeFixed64 (le le' : Bool) {value : ℕ} (h : value < 2 ^ 64) :
    decodeFixed64 le (encodeFixed64 le' value) = value := by
  rw [decodeFixed64_eq le (by simp), encodeFixed64_eq, List.take_of_length_le (by simp),
    LittleEndian.decode_encode, Nat.mod_eq_of_lt (by omega)]

end Ibdb.Base
