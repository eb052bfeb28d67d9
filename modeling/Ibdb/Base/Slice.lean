import Mathlib

/-! Byte strings, the slices the index is keyed by, and the ways a call can fail to return. -/
namespace Ibdb.Base
open Std

abbrev Bytes := List UInt8

/-- The bytes of a literal; every literal of the source is ASCII. -/
def ascii (s : String) : Bytes := s.toList.map fun c => UInt8.ofNat c.toNat

/-- How a call ends when it does not return. The first two are C++ exceptions;
after the others there is no process left to speak of. -/
inductive Fault
  | outOfRange
  | badAlloc
  | assertFailed
  | nullStream
  | undefined
  deriving DecidableEq, Repr

def Fault.isException : Fault → Bool
  | outOfRange | badAlloc => true
  | assertFailed | nullStream | undefined => false

/-- The state that is left for the next call, if there is a process to make it. -/
def afterCall {α σ : Type} : Except Fault α × σ → Option σ
  | (.ok _, s) => some s
  | (.error fault, s) => if fault.isException then some s else none

/-- Why an operation does not come to its end: a fault, or the bound on the steps of its loop. -/
inductive Stop
  | fault (fault : Fault)
  | fuel
  deriving DecidableEq

/-- What a signed 32-bit variable holds after it is assigned the unsigned value `n`. -/
def toInt32 (n : ℕ) : ℤ := (n : ℤ).bmod (2 ^ 32)

theorem toInt32_of_lt {n : ℕ} (h : n < 2 ^ 31) : toInt32 n = n := by
  unfold toInt32
  rw [Int.bmod_eq_of_le] <;> omega

/-- `Slice(const char*, const int)` on a buffer `d` and a length `n`. A length that
comes out negative is a size far past the buffer. -/
def Slice.ofBuffer (d : Bytes) (n : ℕ) : Except Fault Bytes :=
  if 0 ≤ toInt32 n then .ok (d.take (toInt32 n).toNat) else .error .undefined

theorem toInt32_mod (n : ℕ) : toInt32 (n % 2 ^ 32) = toInt32 n := by
  have h := @Int.emod_bmod n (2 ^ 32)
  rwa [← Int.natCast_mod] at h

theorem toInt32_neg {n : ℕ} (h : 2 ^ 31 ≤ n % 2 ^ 32) : toInt32 n < 0 := by
  have hb := Int.bmod_def n (2 ^ 32)
  unfold toInt32
  omega

theorem toInt32_lt (n : ℕ) : toInt32 n < 2 ^ 31 := by
  have hb := Int.bmod_def n (2 ^ 32)
  unfold toInt32
  omega

theorem Slice.ofBuffer_eq (d : Bytes) (n : ℕ) :
    Slice.ofBuffer d n =
      if n % 2 ^ 32 < 2 ^ 31 then .ok (d.take (n % 2 ^ 32)) else .error .undefined := by
  unfold Slice.ofBuffer
  split_ifs with h0 h h
  · rw [← toInt32_mod, toInt32_of_lt h, Int.toNat_natCast]
  · exact absurd (toInt32_neg (Nat.not_lt.mp h)) (by omega)
  · rw [← toInt32_mod, toInt32_of_lt h] at h0
    omega
  · rfl

theorem Slice.ofBuffer_of_lt {d : Bytes} (h : d.length < 2 ^ 31) :
    Slice.ofBuffer d d.length = .ok d := by
  simp [Slice.ofBuffer, toInt32_of_lt h]

/-- `memcmp`: the first difference decides, bytes read as unsigned. -/
def memcmp : ℕ → Bytes → Bytes → Ordering
  | n + 1, a :: as, b :: bs =>
    match compare a b with
    | .eq => memcmp n as bs
    | o => o
  | _, _, _ => .eq

def Slice.compare (a b : Bytes) : Ordering :=
  let minLen := if a.length < b.length then a.length else b.length
  match memcmp minLen a b with
  | .eq => if a.length < b.length then .lt else if a.length > b.length then .gt else .eq
  | o => o

/-- The slice order is the lexicographic order of the byte strings. -/
theorem Slice.compare_eq (a b : Bytes) : Slice.compare a b = Ord.compare a b := by
  induction a generalizing b with
  | nil => cases b <;> rfl
  | cons x xs ih =>
    cases b with
    | nil => rfl
    | cons y ys =>
      have hc : Ord.compare (x :: xs) (y :: ys) =
          (Ord.compare x y).then (Ord.compare xs ys) := List.compareLex_cons_cons
      rw [hc, ← ih ys]
      unfold Slice.compare
      simp only [List.length_cons, Nat.add_lt_add_iff_right, gt_iff_lt]
      have hm : (if xs.length < ys.length then xs.length + 1 else ys.length + 1) =
          (if xs.length < ys.length then xs.length else ys.length) + 1 := by split <;> rfl
      rw [hm, memcmp]
      cases Ord.compare x y <;> rfl

theorem Slice.compare_eq_ord : Slice.compare = (Ord.compare : Bytes → Bytes → Ordering) :=
  funext₂ Slice.compare_eq

instance : TransCmp Slice.compare := by
  rw [Slice.compare_eq_ord]
  infer_instance

instance : LawfulEqCmp Slice.compare := by
  rw [Slice.compare_eq_ord]
  infer_instance

end Ibdb.Base
