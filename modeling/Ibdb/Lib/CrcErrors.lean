import Ibdb.Lib.Crc
import Mathlib.Data.Nat.Prime.Basic
import Mathlib.Dynamics.PeriodicPts.Defs

/-! Which errors in a message a cyclic redundancy check finds. The check is linear in exclusive or,
so an error is missed when the bits that are wrong, as a message of their own, leave the register
empty. -/
namespace Crc
variable {w : ℕ} {P : BitVec w}

def flips (u v : List Bool) : List Bool := List.zipWith (· ^^ ·) u v

/-- The errors leave no trace in the register. -/
def Missed (P : BitVec w) (e : List Bool) : Prop := serial P 0#w e = 0#w

theorem bitStep_zero (P : BitVec w) : bitStep P 0#w = 0#w := by simp [bitStep]

theorem serial_cons (P x : BitVec w) (bit : Bool) (bits : List Bool) :
    serial P x (bit :: bits) = serial P (bitStep P (x ^^^ if bit then 1#w else 0#w)) bits := rfl

theorem serial_flips (x y : BitVec w) {u v : List Bool} (h : u.length = v.length) :
    serial P x u ^^^ serial P y v = serial P (x ^^^ y) (flips u v) := by
  induction u generalizing x y v with
  | nil =>
    cases List.eq_nil_of_length_eq_zero h.symm
    rfl
  | cons a u ih =>
    cases v with
    | nil => cases h
    | cons b v =>
      have hbit : (if (a ^^ b) then 1#w else 0#w) =
          (if a then 1#w else 0#w) ^^^ if b then 1#w else 0#w := by
        cases a <;> cases b <;> simp
      change _ = serial P (x ^^^ y) ((a ^^ b) :: flips u v)
      rw [serial_cons, serial_cons, serial_cons, ih _ _ (Nat.succ.inj h), ← bitStep_xor, hbit]
      congr 2
      ac_rfl

theorem xor_eq_zero {x y : BitVec w} : x ^^^ y = 0#w ↔ x = y := by
  constructor
  · intro h
    rw [← BitVec.xor_zero (x := x), ← BitVec.xor_self (x := y), ← BitVec.xor_assoc, h,
      BitVec.zero_xor]
  · rintro rfl
    exact BitVec.xor_self

/-- Two messages of one length have the same check when their differences are missed. -/
theorem serial_eq_iff (x : BitVec w) {u v : List Bool} (h : u.length = v.length) :
    serial P x u = serial P x v ↔ Missed P (flips u v) := by
  rw [← xor_eq_zero, serial_flips x x h, BitVec.xor_self]
  rfl

theorem missed_false (e : List Bool) : Missed P (false :: e) ↔ Missed P e := by
  unfold Missed
  rw [serial_cons, if_neg Bool.false_ne_true, BitVec.xor_zero, bitStep_zero]

theorem serial_replicate_false (P x : BitVec w) (n : ℕ) :
    serial P x (List.replicate n false) = steps P n x := by
  induction n generalizing x with
  | zero => rfl
  | succ n ih =>
    rw [List.replicate_succ, serial_cons, if_neg Bool.false_ne_true, BitVec.xor_zero, ih]
    rfl

/-! No step loses anything when the polynomial has a constant term, the top bit of `P`. -/
section Injective
variable (hP : P.msb = true)
include hP

theorem bitStep_eq_zero {x : BitVec w} : bitStep P x = 0#w ↔ x = 0#w := by
  constructor
  · intro h
    rw [BitVec.msb_eq_getLsbD_last] at hP
    have hw : 0 < w := by
      by_contra hw
      rw [BitVec.getLsbD_of_ge P _ (by omega)] at hP
      cases hP
    have hlow : x.getLsbD 0 = false := by
      apply Bool.eq_false_of_not_eq_true
      intro hset
      have htop := congrArg (fun b => b.getLsbD (w - 1)) h
      simp only [bitStep, hset, if_true, BitVec.getLsbD_xor, BitVec.getLsbD_ushiftRight, hP,
        BitVec.getLsbD_zero] at htop
      rw [BitVec.getLsbD_of_ge x _ (by omega)] at htop
      cases htop
    apply BitVec.eq_of_getLsbD_eq
    intro i hi
    rw [BitVec.getLsbD_zero]
    cases i with
    | zero => exact hlow
    | succ i =>
      have hbit := congrArg (fun b => b.getLsbD i) h
      simpa [bitStep, hlow, Nat.add_comm] using hbit
  · rintro rfl
    exact bitStep_zero P

theorem bitStep_injective : Function.Injective (bitStep P) := by
  intro x y h
  apply xor_eq_zero.mp
  apply (bitStep_eq_zero hP).mp
  rw [bitStep_xor, h, BitVec.xor_self]

theorem steps_injective (n : ℕ) : Function.Injective (steps P n) :=
  (bitStep_injective hP).iterate n

theorem steps_eq_zero (n : ℕ) {x : BitVec w} : steps P n x = 0#w ↔ x = 0#w := by
  have hzero : steps P n 0#w = 0#w := Function.iterate_fixed (bitStep_zero P) n
  exact ⟨fun h => steps_injective hP n (h.trans hzero.symm), fun h => h ▸ hzero⟩

theorem missed_concat_false (e : List Bool) : Missed P (e ++ [false]) ↔ Missed P e := by
  unfold Missed
  rw [serial_append, serial_cons, if_neg Bool.false_ne_true, BitVec.xor_zero]
  exact bitStep_eq_zero hP

end Injective

/-- Errors without the right bits in front of the first and behind the last. -/
theorem trim_induction {motive : List Bool → Prop} (nil : motive [])
    (lead : ∀ e, motive e → motive (false :: e)) (trail : ∀ e, motive e → motive (e ++ [false]))
    (one : motive [true]) (core : ∀ mid, motive (true :: mid ++ [true])) (e : List Bool) :
    motive e := by
  obtain ⟨n, hn⟩ : ∃ n, e.length = n := ⟨_, rfl⟩
  induction n generalizing e with
  | zero =>
    cases List.eq_nil_of_length_eq_zero hn
    exact nil
  | succ n ih =>
    match e with
    | false :: e => exact lead e (ih e (Nat.succ.inj hn))
    | true :: e =>
      rcases List.eq_nil_or_concat e with rfl | ⟨mid, last, rfl⟩
      · exact one
      · cases last with
        | true => simpa using core mid
        | false =>
          have hlength : (true :: mid).length = n := by simpa using hn
          simpa using trail (true :: mid) (ih _ hlength)

section Burst
variable (hP : P.msb = true)
include hP

/-- As many bits as the register has leave it empty only if none is set. -/
theorem missed_short {e : List Bool} (hlength : e.length ≤ w) (h : Missed P e) : true ∉ e := by
  have hbits : (List.range e.length).map (BitVec.ofBoolListLE e).getLsbD = e := by
    apply List.ext_getElem
    · simp
    · intro i hi hi'
      simp [List.getElem?_eq_getElem hi']
  have hregister := serial_bits P 0#w (BitVec.ofBoolListLE e) hlength
  rw [hbits, BitVec.zero_xor] at hregister
  have hzero := (steps_eq_zero hP e.length).mp (hregister.symm.trans h)
  intro hmem
  obtain ⟨i, hi, hset⟩ := List.mem_iff_getElem.mp hmem
  have hbit := congrArg (fun b => b.getLsbD i) hzero
  simp only [BitVec.getLsbD_setWidth, hi.trans_le hlength, hi, decide_true, Bool.true_and,
    BitVec.getLsbD_ofBoolListLE, BitVec.getLsbD_zero] at hbit
  rw [← List.getElem_eq_getD (h := hi), hset] at hbit
  cases hbit

/-- Errors that are missed spread over more bits than the register has. -/
theorem missed_wide {e : List Bool} (h : Missed P e) (hset : true ∈ e) :
    ∃ i j, i + w ≤ j ∧ e[i]? = some true ∧ e[j]? = some true := by
  induction e using trim_induction with
  | nil => cases hset
  | lead e ih =>
    have hmem : true ∈ e := by simpa using hset
    obtain ⟨i, j, hij, hi, hj⟩ := ih ((missed_false e).mp h) hmem
    exact ⟨i + 1, j + 1, by omega, hi, hj⟩
  | trail e ih =>
    have hmem : true ∈ e := by simpa using hset
    obtain ⟨i, j, hij, hi, hj⟩ := ih ((missed_concat_false hP e).mp h) hmem
    have hleft : ∀ k, e[k]? = some true → (e ++ [false])[k]? = some true := fun k hk =>
      (List.getElem?_append_left (List.getElem?_eq_some_iff.mp hk).1).trans hk
    exact ⟨i, j, hij, hleft i hi, hleft j hj⟩
  | one =>
    have hw : 1 ≤ w := by
      by_contra hw
      rw [BitVec.msb_eq_getLsbD_last, BitVec.getLsbD_of_ge P _ (by omega)] at hP
      cases hP
    exact absurd hset (missed_short hP hw h)
  | core mid =>
    refine ⟨0, mid.length + 1, ?_, rfl, by simp⟩
    by_contra hshort
    exact missed_short hP (by simp; omega) h hset

end Burst

/-! A polynomial with an even number of terms has the check keep the parity of the message. -/

def parity : ℕ → BitVec w → Bool
  | 0, _ => false
  | n + 1, x => x.getLsbD n ^^ parity n x

theorem parity_xor (n : ℕ) (x y : BitVec w) : parity n (x ^^^ y) = (parity n x ^^ parity n y) := by
  induction n with
  | zero => rfl
  | succ n ih =>
    simp only [parity, ih, BitVec.getLsbD_xor, Bool.xor_assoc]
    rw [Bool.xor_left_comm (y.getLsbD n)]

theorem parity_zero (n : ℕ) : parity n 0#w = false := by
  induction n with
  | zero => rfl
  | succ n ih => rw [parity, ih, BitVec.getLsbD_zero, Bool.xor_false]

theorem parity_succ_shift (n : ℕ) (x : BitVec w) :
    parity (n + 1) x = (x.getLsbD 0 ^^ parity n (x >>> 1)) := by
  induction n with
  | zero => rfl
  | succ n ih =>
    rw [parity, ih, parity, BitVec.getLsbD_ushiftRight, Nat.add_comm 1 n, Bool.xor_left_comm]

theorem parity_bitStep (hodd : parity w P = true) (x : BitVec w) :
    parity w (bitStep P x) = parity w x := by
  have hshift : parity w (x >>> 1) = (x.getLsbD 0 ^^ parity w x) := by
    have htop : x.getLsbD w = false := BitVec.getLsbD_of_ge x w le_rfl
    have hsucc := parity_succ_shift w x
    rw [parity, htop, Bool.false_xor] at hsucc
    rw [hsucc, ← Bool.xor_assoc, Bool.xor_self, Bool.false_xor]
  rw [bitStep, parity_xor, hshift]
  cases x.getLsbD 0 <;> simp [hodd, parity_zero]

theorem parity_serial (hw : 0 < w) (hodd : parity w P = true) (x : BitVec w) (bits : List Bool) :
    parity w (serial P x bits) = (parity w x ^^ decide (bits.count true % 2 = 1)) := by
  have hone : parity w 1#w = true := by
    obtain ⟨w, rfl⟩ := Nat.exists_eq_succ_of_ne_zero hw.ne'
    have hzero : (1#(w + 1)) >>> 1 = 0#(w + 1) := by
      apply BitVec.eq_of_getLsbD_eq
      intro i _
      simp
    rw [parity_succ_shift, hzero, parity_zero]
    simp
  induction bits generalizing x with
  | nil => simp [serial]
  | cons bit bits ih =>
    rw [serial_cons, ih, parity_bitStep hodd, parity_xor]
    cases bit
    · simp [parity_zero]
    · have hflip : decide ((bits.count true + 1) % 2 = 1) = !decide (bits.count true % 2 = 1) := by
        grind
      rw [if_pos rfl, hone, List.count_cons_self, hflip]
      simp

theorem missed_even (hw : 0 < w) (hodd : parity w P = true) {e : List Bool} (h : Missed P e) :
    e.count true % 2 = 0 := by
  have hserial := parity_serial hw hodd 0#w e
  rw [h, parity_zero, Bool.false_xor] at hserial
  have hnot := of_decide_eq_false hserial.symm
  omega

/-! Two errors are missed when the register comes round from the one to the other. -/

theorem missed_two (hP : P.msb = true) {e : List Bool} (h : Missed P e) (htwo : e.count true = 2) :
    ∃ d, 0 < d ∧ d < e.length ∧ steps P d 1#w = 1#w := by
  induction e using trim_induction with
  | nil => cases htwo
  | lead e ih =>
    obtain ⟨d, hpos, hlt, hsteps⟩ := ih ((missed_false e).mp h) (by simpa using htwo)
    exact ⟨d, hpos, hlt.trans e.length.lt_succ_self, hsteps⟩
  | trail e ih =>
    obtain ⟨d, hpos, hlt, hsteps⟩ := ih ((missed_concat_false hP e).mp h) (by simpa using htwo)
    exact ⟨d, hpos, by simp; omega, hsteps⟩
  | one => cases htwo
  | core mid =>
    have hnone : ∀ bit ∈ mid, bit = false := by
      have hcount : mid.count true = 0 := by simpa using htwo
      intro bit hbit
      cases bit
      · rfl
      · exact absurd hbit (List.count_eq_zero.mp hcount)
    have hmid : mid = List.replicate mid.length false := List.eq_replicate_of_mem hnone
    unfold Missed at h
    rw [List.cons_append, serial_cons, if_pos rfl, BitVec.zero_xor, hmid, serial_append,
      serial_replicate_false, serial_cons, if_pos rfl] at h
    have hround := xor_eq_zero.mp ((bitStep_eq_zero hP).mp h)
    exact ⟨mid.length + 1, Nat.succ_pos _, by simp, hround⟩

/-- With the register's period prime, two errors are missed only that far apart. -/
theorem missed_two_of_prime (hP : P.msb = true) {N : ℕ} (hN : N.Prime)
    (hperiod : steps P N 1#w = 1#w) (hmove : steps P 1 1#w ≠ 1#w) {e : List Bool}
    (h : Missed P e) (htwo : e.count true = 2) : N < e.length := by
  obtain ⟨d, hpos, hlt, hsteps⟩ := missed_two hP h htwo
  have hdvd := Function.IsPeriodicPt.minimalPeriod_dvd (f := bitStep P) hperiod
  have hdvd' := Function.IsPeriodicPt.minimalPeriod_dvd (f := bitStep P) hsteps
  rcases (Nat.dvd_prime hN).mp hdvd with hone | heq
  · exact absurd (Function.minimalPeriod_eq_one_iff_isFixedPt.mp hone) hmove
  · rw [heq] at hdvd'
    exact (Nat.le_of_dvd hpos hdvd').trans_lt hlt

/-! The steps from the register with only its top bit set tell those from every other, and twice as
many of them are a product. -/

def top (w : ℕ) : BitVec w := 1#w <<< (w - 1)

/-- The low `n` bits of `x`, each put in as `y`. -/
def product (P x y : BitVec w) : ℕ → BitVec w
  | 0 => 0#w
  | n + 1 => bitStep P (product P x y n) ^^^ if x.getLsbD n then y else 0#w

theorem product_steps (P x y : BitVec w) (n m : ℕ) :
    product P x (steps P n y) m = steps P n (product P x y m) := by
  have hzero : steps P n 0#w = 0#w := Function.iterate_fixed (bitStep_zero P) n
  induction m with
  | zero => exact hzero.symm
  | succ m ih =>
    rw [product, product, ih, steps_xor]
    congr 1
    · exact ((Function.Commute.iterate_self (bitStep P) n).eq _).symm
    · cases x.getLsbD m
      · exact hzero.symm
      · rfl

/-- The bits put in at the top come down to their places. -/
theorem product_top (P x : BitVec w) : product P x (top w) w = x := by
  have hbits : ∀ m ≤ w, ∀ i < w,
      (product P x (top w) m).getLsbD i = (decide (w ≤ i + m) && x.getLsbD (i + m - w)) := by
    intro m hm
    induction m with
    | zero =>
      intro i hi
      simp [product, hi]
    | succ m ih =>
      intro i hi
      have hlow : (product P x (top w) m).getLsbD 0 = false := by
        rw [ih (by omega) 0 (by omega)]
        simp
        omega
      have htop : (top w).getLsbD i = decide (i = w - 1) := by
        simp [top, BitVec.getLsbD_shiftLeft]
        grind
      have hnext : (product P x (top w) m).getLsbD (1 + i) =
          (decide (w ≤ i + (m + 1) ∧ i + 1 < w) && x.getLsbD (i + (m + 1) - w)) := by
        by_cases hi' : i + 1 < w
        · rw [Nat.add_comm 1 i, ih (by omega) (i + 1) hi']
          simp [hi', Nat.add_right_comm, Nat.add_assoc]
        · rw [BitVec.getLsbD_of_ge _ _ (by omega)]
          simp [hi']
      have hput : (if x.getLsbD m then top w else 0#w).getLsbD i =
          (decide (i = w - 1) && x.getLsbD m) := by
        cases x.getLsbD m
        · simp
        · simpa using htop
      rw [product, bitStep, hlow, BitVec.getLsbD_xor, BitVec.getLsbD_xor,
        BitVec.getLsbD_ushiftRight, hnext, hput]
      by_cases hlast : i = w - 1
      · have hplace : i + (m + 1) - w = m := by omega
        have hend : ¬ i + 1 < w := by omega
        simp [hlast ▸ hplace, hlast ▸ hend, hlast]
        omega
      · have hinside : i + 1 < w := by omega
        simp [hlast, hinside]
  apply BitVec.eq_of_getLsbD_eq
  intro i hi
  rw [hbits w le_rfl i hi]
  simp

theorem steps_eq_product (P x : BitVec w) (n : ℕ) :
    steps P n x = product P x (steps P n (top w)) w := by
  rw [product_steps, product_top]

def square (P x : BitVec w) : BitVec w := product P x x w

theorem steps_two_pow (P : BitVec w) (k : ℕ) :
    steps P (2 ^ k) (top w) = (square P)^[k] (bitStep P (top w)) := by
  induction k with
  | zero => rfl
  | succ k ih =>
    rw [pow_succ, Nat.mul_two, steps_add, steps_eq_product, ih, Function.iterate_succ_apply']
    rfl

end Crc
