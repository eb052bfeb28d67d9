import Mathlib.Logic.Function.Iterate
import Mathlib.Tactic.Ring

/-! The register of a cyclic redundancy check with its bits reflected. A step is linear in
exclusive or, so the register can take in many bits at a time. -/
namespace Crc
variable {w : ℕ}

/-- Shift the low bit out, and put the polynomial in if it was set. -/
def bitStep (P x : BitVec w) : BitVec w := x >>> 1 ^^^ if x.getLsbD 0 then P else 0#w

def steps (P : BitVec w) (n : ℕ) (x : BitVec w) : BitVec w := (bitStep P)^[n] x

section Linear
variable (P x y : BitVec w)

theorem bitStep_xor : bitStep P (x ^^^ y) = bitStep P x ^^^ bitStep P y := by
  unfold bitStep
  rw [BitVec.ushiftRight_xor_distrib, BitVec.getLsbD_xor]
  cases x.getLsbD 0 <;> cases y.getLsbD 0
  · simp
  · simp [BitVec.xor_assoc]
  · simp only [Bool.xor_false, if_true, Bool.false_eq_true, if_false, BitVec.xor_zero]
    ac_rfl
  · simp only [bne_self_eq_false, Bool.false_eq_true, if_false, if_true, BitVec.xor_zero]
    have hpair : x >>> 1 ^^^ P ^^^ (y >>> 1 ^^^ P) = x >>> 1 ^^^ y >>> 1 ^^^ (P ^^^ P) := by ac_rfl
    rw [hpair, BitVec.xor_self, BitVec.xor_zero]

theorem steps_xor (n : ℕ) : steps P n (x ^^^ y) = steps P n x ^^^ steps P n y := by
  induction n generalizing x y with
  | zero => rfl
  | succ n ih =>
    unfold steps at ih ⊢
    rw [Function.iterate_succ_apply, bitStep_xor]
    exact ih (bitStep P x) (bitStep P y)

theorem steps_add (m n : ℕ) : steps P (m + n) x = steps P m (steps P n x) :=
  Function.iterate_add_apply (bitStep P) m n x

end Linear

/-- While no set bit has come to the low end, steps are shifts. -/
theorem steps_of_low_clear (P : BitVec w) {x : BitVec w} {n : ℕ}
    (h : ∀ i < n, x.getLsbD i = false) : steps P n x = x >>> n := by
  induction n with
  | zero => exact (BitVec.ushiftRight_zero x).symm
  | succ n ih =>
    have hlow : (x >>> n).getLsbD 0 = false := by
      rw [BitVec.getLsbD_ushiftRight]
      exact h n n.lt_succ_self
    rw [Nat.add_comm n 1, steps_add, ih fun i hi => h i (hi.trans n.lt_succ_self)]
    change bitStep P (x >>> n) = x >>> (1 + n)
    rw [bitStep, hlow, Nat.add_comm 1 n, BitVec.shiftRight_add]
    simp

theorem steps_shiftLeft (P b : BitVec w) (n : ℕ) : steps P n (b <<< n) = b <<< n >>> n := by
  apply steps_of_low_clear
  intro i hi
  simp [BitVec.getLsbD_shiftLeft, hi]

/-- The high bits of the register only move down, so the low bits alone decide what is put in. -/
theorem steps_split (P x : BitVec w) (m n : ℕ) :
    steps P (m + n) x = steps P (m + n) (x ^^^ x >>> n <<< n) ^^^ steps P m (x >>> n) := by
  have hhigh : steps P (m + n) (x >>> n <<< n) = steps P m (x >>> n) := by
    rw [steps_add, steps_shiftLeft]
    congr 1
    apply BitVec.eq_of_getLsbD_eq
    intro i _
    simp only [BitVec.getLsbD_ushiftRight, BitVec.getLsbD_shiftLeft]
    by_cases hi : n + i < w
    · simp [hi]
    · simp [hi, BitVec.getLsbD_of_ge x (n + i) (by omega)]
  rw [← hhigh, ← steps_xor, BitVec.xor_assoc, BitVec.xor_self, BitVec.xor_zero]

/-- What is put in after `n` steps could have been put in before them, `n` places up. -/
theorem steps_absorb (P x : BitVec w) {b : BitVec w} {n : ℕ} (h : b <<< n >>> n = b) (m : ℕ) :
    steps P m (steps P n x ^^^ b) = steps P (m + n) (x ^^^ b <<< n) := by
  rw [steps_add, steps_xor P x (b <<< n) n, steps_shiftLeft, h]

/-- The register after the bits of a message, each put in at the low end. -/
def serial (P x : BitVec w) (bits : List Bool) : BitVec w :=
  bits.foldl (fun x bit => bitStep P (x ^^^ if bit then 1#w else 0#w)) x

theorem serial_append (P x : BitVec w) (bits bits' : List Bool) :
    serial P x (bits ++ bits') = serial P (serial P x bits) bits' := List.foldl_append

theorem bit_fits {n : ℕ} (h : n < w) (bit : Bool) :
    (if bit then 1#w else 0#w) <<< n >>> n = if bit then 1#w else 0#w := by
  cases bit
  · simp
  · apply BitVec.eq_of_getLsbD_eq
    intro i hi
    by_cases h0 : i = 0
    · simp [h0, h, Nat.zero_lt_of_lt h]
    · simp [h0]

/-- The next bit up joins the low ones. -/
theorem setWidth_succ {v n : ℕ} (b : BitVec v) (h : n < w) :
    (b.setWidth (n + 1)).setWidth w =
      (b.setWidth n).setWidth w ^^^ (if b.getLsbD n then 1#w else 0#w) <<< n := by
  apply BitVec.eq_of_getLsbD_eq
  intro i hi
  have hbit : ((if b.getLsbD n then 1#w else 0#w) <<< n).getLsbD i =
      (decide (i = n) && b.getLsbD n) := by
    cases b.getLsbD n
    · simp
    · simp only [if_true, BitVec.getLsbD_shiftLeft, hi, decide_true, Bool.true_and, Bool.and_true,
        BitVec.getLsbD_one, show 0 < w by omega]
      grind
  rw [BitVec.getLsbD_xor, hbit]
  simp only [BitVec.getLsbD_setWidth, hi, decide_true, Bool.true_and]
  rcases Nat.lt_trichotomy i n with hlt | rfl | hgt
  · simp [hlt, hlt.ne, Nat.lt_succ_of_lt hlt]
  · simp
  · simp [hgt.ne', show ¬ i < n by omega, show ¬ i < n + 1 by omega]

/-- Putting the low bits of `b` in at once is putting them in one by one. -/
theorem serial_bits {v : ℕ} (P x : BitVec w) (b : BitVec v) {n : ℕ} (h : n ≤ w) :
    serial P x ((List.range n).map b.getLsbD) =
      steps P n (x ^^^ (b.setWidth n).setWidth w) := by
  induction n with
  | zero =>
    rw [BitVec.of_length_zero (x := b.setWidth 0)]
    simp [serial, steps]
  | succ n ih =>
    rw [List.range_succ, List.map_append, serial_append, ih (by omega), setWidth_succ b (by omega),
      ← BitVec.xor_assoc, Nat.add_comm n 1, ← steps_absorb P _ (bit_fits (by omega) _)]
    rfl

end Crc
