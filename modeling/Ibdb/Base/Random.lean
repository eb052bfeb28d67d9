import Ibdb.Base.SkipList
import Ibdb.Lib.Cycles
import Mathlib.Tactic.ReduceModChar
import Mathlib.Tactic.NormNum.Prime

/-! The random number generator: a product modulo a prime, reduced without a division. -/
namespace Ibdb.Base

namespace Random

def M : ℕ := 2147483647

def A : ℕ := 16807

def uniform (n : UInt32) (rnd : Random) : UInt32 × Random :=
  let (r, rnd) := rnd.next
  (r % n, rnd)

def oneIn (n : UInt32) (rnd : Random) : Bool × Random :=
  let (r, rnd) := rnd.next
  (r % n = 0, rnd)

/-- `Skewed(max_log)`; the inner call comes first. -/
def skewed (maxLog : UInt32) (rnd : Random) : UInt32 × Random :=
  let (base, rnd) := rnd.uniform (maxLog + 1)
  rnd.uniform (1 <<< base)

def after (rnd : Random) (n : ℕ) : Random := (fun rnd => rnd.next.2)^[n] rnd

/-- The seed is neither of the two that never change. -/
structure Valid (rnd : Random) : Prop where
  pos : 0 < rnd.seed.toNat
  lt : rnd.seed.toNat < M

section Next
variable {rnd : Random}

theorem next_snd (rnd : Random) : rnd.next.2.seed = rnd.next.1 := rfl

theorem valid_new (s : UInt32) : (new s).Valid := by
  have hand : (s &&& 0x7fffffff).toNat = s.toNat % 2 ^ 31 :=
    Nat.and_two_pow_sub_one_eq_mod s.toNat 31
  unfold new
  simp only
  split_ifs with hbad
  · exact ⟨by decide, by decide⟩
  · obtain ⟨hzero, hmax⟩ := not_or.mp hbad
    have hzero' : (s &&& 0x7fffffff).toNat ≠ 0 := fun h => hzero (UInt32.toNat_inj.mp h)
    have hmax' : (s &&& 0x7fffffff).toNat ≠ 2147483647 := fun h => hmax (UInt32.toNat_inj.mp h)
    have hM : M = 2147483647 := rfl
    exact ⟨by simp only; omega, by simp only; omega⟩

/-- The shift and the mask split the product in two parts that add up to the same remainder. -/
theorem reduce_toNat {x : UInt32} (h : x.toNat < M) :
    ((x.toUInt64 * 16807) >>> 31 + (x.toUInt64 * 16807 &&& 2147483647)).toUInt32.toNat =
      x.toNat * A / 2 ^ 31 + x.toNat * A % 2 ^ 31 := by
  have hM : M = 2147483647 := rfl
  have hA : A = 16807 := rfl
  have hproduct : (x.toUInt64 * 16807).toNat = x.toNat * A := by
    rw [UInt64.toNat_mul, UInt32.toNat_toUInt64]
    change x.toNat * 16807 % 2 ^ 64 = x.toNat * 16807
    omega
  have hshift : ((x.toUInt64 * 16807) >>> 31).toNat = x.toNat * A / 2 ^ 31 := by
    rw [UInt64.toNat_shiftRight, hproduct]
    exact Nat.shiftRight_eq_div_pow _ 31
  have hmask : (x.toUInt64 * 16807 &&& 2147483647).toNat = x.toNat * A % 2 ^ 31 := by
    rw [UInt64.toNat_and, hproduct]
    exact Nat.and_two_pow_sub_one_eq_mod _ 31
  have hbound : x.toNat * A < 2 ^ 46 := by
    rw [hA]
    omega
  rw [UInt64.toNat_toUInt32, UInt64.toNat_add, hshift, hmask]
  omega

theorem pow_eq_one : (16807 : ZMod 2147483647) ^ 2147483646 = 1 := by
  reduce_mod_char

/-- The prime factors of `M - 1`, none of which can be left out of the exponent. -/
theorem pow_ne_one {q : ℕ} (hq : q.Prime) (hdvd : q ∣ 2147483646) :
    (16807 : ZMod 2147483647) ^ (2147483646 / q) ≠ 1 := by
  have hfactors : q ∣ 2 * 3 * 3 * 7 * 11 * 31 * 151 * 331 := hdvd
  have hcases : q = 2 ∨ q = 3 ∨ q = 7 ∨ q = 11 ∨ q = 31 ∨ q = 151 ∨ q = 331 := by
    simp only [hq.dvd_mul] at hfactors
    have hprime : ∀ p : ℕ, p.Prime → q ∣ p → q = p := fun p hp =>
      (Nat.prime_dvd_prime_iff_eq hq hp).mp
    rcases hfactors with ((((((h | h) | h) | h) | h) | h) | h) | h
    · exact .inl (hprime 2 (by norm_num) h)
    · exact .inr (.inl (hprime 3 (by norm_num) h))
    · exact .inr (.inl (hprime 3 (by norm_num) h))
    · exact .inr (.inr (.inl (hprime 7 (by norm_num) h)))
    · exact .inr (.inr (.inr (.inl (hprime 11 (by norm_num) h))))
    · exact .inr (.inr (.inr (.inr (.inl (hprime 31 (by norm_num) h)))))
    · exact .inr (.inr (.inr (.inr (.inr (.inl (hprime 151 (by norm_num) h))))))
    · exact .inr (.inr (.inr (.inr (.inr (.inr (hprime 331 (by norm_num) h))))))
  rcases hcases with rfl | rfl | rfl | rfl | rfl | rfl | rfl
  all_goals
    norm_num
    reduce_mod_char
    decide

/-- The multiplier generates the residues, which also shows the modulus prime. -/
theorem prime_M : M.Prime :=
  lucas_primality 2147483647 16807 pow_eq_one fun _ hq hdvd => pow_ne_one hq hdvd

theorem orderOf_A : orderOf (A : ZMod M) = M - 1 :=
  orderOf_eq_of_pow_and_pow_div_prime (by decide) pow_eq_one fun _ hq hdvd => pow_ne_one hq hdvd

/-- The shift and the mask give the remainder, which is never 0. -/
theorem Valid.next (h : rnd.Valid) :
    rnd.next.1.toNat = rnd.seed.toNat * A % M ∧ rnd.next.2.Valid := by
  have hM : M = 2147483647 := rfl
  have hA : A = 16807 := rfl
  have hreduce := reduce_toNat h.lt
  have hpos := h.pos
  have hlt := h.lt
  -- the modulus divides neither factor, so the two parts never add up to it
  have hne : rnd.seed.toNat * A % M ≠ 0 := by
    intro hzero
    rcases prime_M.dvd_mul.mp (Nat.dvd_of_mod_eq_zero hzero) with hdvd | hdvd
    · exact absurd (Nat.le_of_dvd hpos hdvd) (Nat.not_le.mpr hlt)
    · exact absurd (Nat.le_of_dvd (by decide) hdvd) (by decide)
  have hvalue : rnd.next.1.toNat = rnd.seed.toNat * A % M := by
    have hsum : rnd.seed.toNat * A =
        2 ^ 31 * (rnd.seed.toNat * A / 2 ^ 31) + rnd.seed.toNat * A % 2 ^ 31 :=
      (Nat.div_add_mod _ _).symm
    have hquot : rnd.seed.toNat * A / 2 ^ 31 < 2 ^ 15 := by
      rw [hA]
      omega
    rw [hM] at hne ⊢
    generalize rnd.seed.toNat * A = product at hreduce hne hsum hquot ⊢
    have hgt : ∀ x : UInt32, (x > 2147483647) ↔ 2147483647 < x.toNat := fun x => Iff.rfl
    simp only [Random.next, hgt, hreduce]
    split_ifs with hlarge
    · have hle : (2147483647 : UInt32) ≤
          ((rnd.seed.toUInt64 * 16807) >>> 31 +
            (rnd.seed.toUInt64 * 16807 &&& 2147483647)).toUInt32 := by
        rw [UInt32.le_iff_toNat_le, hreduce]
        exact hlarge.le
      rw [UInt32.toNat_sub_of_le _ _ hle, hreduce]
      change product / 2 ^ 31 + product % 2 ^ 31 - 2147483647 = _
      omega
    · rw [hreduce]
      omega
  refine ⟨hvalue, ?_, ?_⟩
  · rw [next_snd, hvalue]
    exact Nat.pos_of_ne_zero hne
  · rw [next_snd, hvalue]
    exact Nat.mod_lt _ (by decide)

theorem after_succ (rnd : Random) (n : ℕ) : rnd.after (n + 1) = (rnd.after n).next.2 :=
  Function.iterate_succ_apply' ..

theorem Valid.after (h : rnd.Valid) (n : ℕ) :
    (rnd.after n).Valid ∧ (rnd.after n).seed.toNat = rnd.seed.toNat * A ^ n % M := by
  induction n with
  | zero => exact ⟨h, by rw [pow_zero, mul_one, Nat.mod_eq_of_lt h.lt]; rfl⟩
  | succ n ih =>
    obtain ⟨hvalid, hseed⟩ := ih
    obtain ⟨hvalue, hvalid'⟩ := hvalid.next
    rw [after_succ]
    refine ⟨hvalid', ?_⟩
    rw [next_snd, hvalue, hseed, Nat.mod_mul_mod, mul_assoc, pow_succ]

/-- In any `M - 1` calls in a row each number from 1 to `M - 1` comes up once. -/
theorem Valid.bijOn (h : rnd.Valid) : Set.BijOn (fun n => (rnd.after n).seed.toNat)
    (Set.Iio (M - 1)) (Set.Icc 1 (M - 1)) := by
  have hprime : Fact M.Prime := ⟨prime_M⟩
  have hcast : ∀ n, ((rnd.after n).seed.toNat : ZMod M) = (A : ZMod M) ^ n * rnd.seed.toNat := by
    intro n
    rw [(h.after n).2, ZMod.natCast_mod, Nat.cast_mul, Nat.cast_pow, mul_comm]
  have hzero : ∀ v : ℕ, 0 < v → v < M → (v : ZMod M) ≠ 0 := by
    intro v hpos hlt hv
    exact absurd (Nat.le_of_dvd hpos ((ZMod.natCast_eq_zero_iff v M).mp hv)) (Nat.not_le.mpr hlt)
  obtain ⟨-, hinj, hsurj⟩ := Cycles.bijOn_pow orderOf_A (hzero _ h.pos h.lt)
  refine ⟨fun n _ => ?_, fun m hm n hn heq => hinj hm hn ?_, fun v hv => ?_⟩
  · have hvalid := (h.after n).1
    exact ⟨hvalid.pos, Nat.le_sub_one_of_lt hvalid.lt⟩
  · simp only at heq ⊢
    rw [← hcast, ← hcast, heq]
  · obtain ⟨hpos, hle⟩ := hv
    have hlt : v < M := Nat.lt_of_le_pred (by decide) hle
    obtain ⟨n, hn, heq⟩ := hsurj (hzero v hpos hlt)
    refine ⟨n, hn, ?_⟩
    simp only at heq ⊢
    rw [← hcast, ZMod.natCast_eq_natCast_iff', Nat.mod_eq_of_lt (h.after n).1.lt,
      Nat.mod_eq_of_lt hlt] at heq
    exact heq

end Next

theorem after_add (rnd : Random) (k n : ℕ) : rnd.after (k + n) = (rnd.after k).after n := by
  rw [after, Nat.add_comm, Function.iterate_add_apply]
  rfl

theorem bijOn_next (s : UInt32) (k : ℕ) :
    Set.BijOn (fun n => ((new s).after (k + n)).next.1.toNat) (Set.Iio (M - 1))
      (Set.Icc 1 (M - 1)) := by
  have hbij := ((valid_new s).after (k + 1)).1.bijOn
  refine hbij.congr fun n _ => ?_
  change (((new s).after (k + 1)).after n).seed.toNat = _
  rw [← after_add, Nat.add_right_comm, after_succ]
  rfl

/-- From any seed the generator goes through the powers of the multiplier, and in any `M - 1` calls
in a row it gives each number from 1 to `M - 1` once. -/
theorem random_cycle (s : UInt32) (k : ℕ) :
    (∀ n, ((new s).after n).Valid ∧
      ((new s).after n).seed.toNat = (new s).seed.toNat * A ^ n % M) ∧
      Set.BijOn (fun n => ((new s).after (k + n)).next.1.toNat) (Set.Iio (M - 1))
        (Set.Icc 1 (M - 1)) :=
  ⟨(valid_new s).after, bijOn_next s k⟩

/-- Over a whole cycle a remainder comes up as often as among the numbers from 1 to `M - 1`. -/
theorem card_uniform (s : UInt32) (k : ℕ) (n c : UInt32) :
    ((Finset.range (M - 1)).filter fun i => (((new s).after (k + i)).uniform n).1 = c).card =
      ((Finset.Icc 1 (M - 1)).filter fun v => v % n.toNat = c.toNat).card := by
  obtain ⟨hmaps, hinj, hsurj⟩ := bijOn_next s k
  refine Finset.card_nbij (fun i => ((new s).after (k + i)).next.1.toNat) ?_ ?_ ?_
  · intro i hi
    obtain ⟨hi, heq⟩ := Finset.mem_filter.mp hi
    have hmem := hmaps (Finset.mem_range.mp hi)
    refine Finset.mem_filter.mpr ⟨Finset.mem_Icc.mpr hmem, ?_⟩
    rw [← heq]
    exact (UInt32.toNat_mod ..).symm
  · intro i hi j hj
    obtain ⟨hi, -⟩ := Finset.mem_filter.mp hi
    obtain ⟨hj, -⟩ := Finset.mem_filter.mp hj
    exact hinj (Finset.mem_range.mp hi) (Finset.mem_range.mp hj)
  · intro v hv
    obtain ⟨hv, hmod⟩ := Finset.mem_filter.mp hv
    obtain ⟨i, hi, rfl⟩ := hsurj (Finset.mem_Icc.mp hv)
    refine ⟨i, Finset.mem_filter.mpr ⟨Finset.mem_range.mpr hi, ?_⟩, rfl⟩
    refine UInt32.toNat_inj.mp ?_
    rw [← hmod]
    exact UInt32.toNat_mod ..

/-- Over a whole cycle `Uniform(n)` gives each number below `n` equally often, up to one. -/
theorem uniform_counts (s : UInt32) (k : ℕ) {n c : UInt32} (hc : c < n) :
    (M - 1) / n.toNat ≤ ((Finset.range (M - 1)).filter fun i =>
        (((new s).after (k + i)).uniform n).1 = c).card ∧
      ((Finset.range (M - 1)).filter fun i =>
        (((new s).after (k + i)).uniform n).1 = c).card ≤ (M - 1) / n.toNat + 1 := by
  rw [card_uniform]
  exact Cycles.card_mod_eq (M - 1) hc

/-- A node gets a second level in a quarter of the draws, rounded down. -/
theorem uniform_counts_four : 536870911 ≤ ((Finset.range (M - 1)).filter fun i =>
    (((new 0xdeadbeef).after (0 + i)).uniform 4).1 = 0).card :=
  have hzero : (0 : UInt32) < 4 := by decide
  (uniform_counts 0xdeadbeef 0 hzero).1

/-- `OneIn(n)` is true one time in `n` over a whole cycle, up to one. -/
theorem oneIn_counts (s : UInt32) (k : ℕ) {n : UInt32} (hn : 0 < n) :
    (M - 1) / n.toNat ≤ ((Finset.range (M - 1)).filter fun i =>
        (((new s).after (k + i)).oneIn n).1 = true).card ∧
      ((Finset.range (M - 1)).filter fun i =>
        (((new s).after (k + i)).oneIn n).1 = true).card ≤ (M - 1) / n.toNat + 1 := by
  have hzero : ∀ rnd : Random, (rnd.oneIn n).1 = true ↔ (rnd.uniform n).1 = 0 :=
    fun rnd => decide_eq_true_iff
  simp only [hzero, card_uniform]
  exact Cycles.card_mod_eq (M - 1) hn

theorem uniform_lt {n : UInt32} (hn : 0 < n.toNat) (rnd : Random) :
    (rnd.uniform n).1.toNat < n.toNat := by
  change (rnd.next.1 % n).toNat < n.toNat
  rw [UInt32.toNat_mod]
  exact Nat.mod_lt _ hn

/-- `Skewed(max_log)` stays below `2 ^ max_log`, as long as that is an `int`. -/
theorem skewed_lt {maxLog : UInt32} (h : maxLog.toNat < 31) (rnd : Random) :
    (rnd.skewed maxLog).1.toNat < 2 ^ maxLog.toNat := by
  have hsucc : (maxLog + 1).toNat = maxLog.toNat + 1 := by
    rw [UInt32.toNat_add]
    exact Nat.mod_eq_of_lt (by simp only [UInt32.toNat_one]; omega)
  have hbase := uniform_lt (n := maxLog + 1) (by omega) rnd
  rcases hdraw : rnd.uniform (maxLog + 1) with ⟨base, next⟩
  rw [hdraw, hsucc] at hbase
  have hpow : (1 <<< base : UInt32).toNat = 2 ^ base.toNat := by
    have hshift : base.toNat < 32 := by
      simp only at hbase
      omega
    rw [UInt32.toNat_shiftLeft, UInt32.toNat_one, Nat.mod_eq_of_lt hshift, Nat.shiftLeft_eq,
      one_mul]
    exact Nat.mod_eq_of_lt (Nat.pow_lt_pow_right (by decide) hshift)
  have hle : 2 ^ base.toNat ≤ 2 ^ maxLog.toNat :=
    Nat.pow_le_pow_right (by decide) (Nat.le_of_lt_succ hbase)
  have hlt := uniform_lt (n := 1 <<< base) (by rw [hpow]; positivity) next
  rw [hpow] at hlt
  rw [skewed, hdraw]
  exact hlt.trans_le hle

end Random
end Ibdb.Base
