import Mathlib.NumberTheory.LucasPrimality
import Mathlib.Data.Nat.Count
import Mathlib.Data.Int.CardIntervalMod

/-! Powers of a generator of the residues modulo a prime, and how evenly they fall. -/
namespace Cycles

section Powers
variable {p : ℕ} [Fact p.Prime] {a x : ZMod p}

/-- The powers of a generator take each residue but zero to each, and to each once. -/
theorem bijOn_pow (ha : orderOf a = p - 1) (hx : x ≠ 0) :
    Set.BijOn (fun n => a ^ n * x) (Set.Iio (p - 1)) {y | y ≠ 0} := by
  have hpos : 0 < p - 1 := Nat.sub_pos_of_lt (Fact.out : p.Prime).one_lt
  have hne : a ≠ 0 := by
    intro hzero
    have hpow := pow_orderOf_eq_one a
    rw [ha, hzero, zero_pow hpos.ne'] at hpow
    exact zero_ne_one hpow
  have hinj : Set.InjOn (fun n => a ^ n * x) (Finset.range (p - 1)) := by
    intro m hm n hn heq
    rw [Finset.coe_range, ← ha] at hm hn
    exact pow_injOn_Iio_orderOf hm hn (mul_right_cancel₀ hx heq)
  have himage : (Finset.range (p - 1)).image (fun n => a ^ n * x) = Finset.univ.erase 0 := by
    refine Finset.eq_of_subset_of_card_le ?_ ?_
    · intro y hy
      obtain ⟨n, -, rfl⟩ := Finset.mem_image.mp hy
      exact Finset.mem_erase.mpr ⟨mul_ne_zero (pow_ne_zero n hne) hx, Finset.mem_univ _⟩
    · rw [Finset.card_image_of_injOn hinj, Finset.card_erase_of_mem (Finset.mem_univ _),
        Finset.card_univ, ZMod.card, Finset.card_range]
  refine ⟨fun n hn => mul_ne_zero (pow_ne_zero n hne) hx, by rwa [← Finset.coe_range], ?_⟩
  intro y hy
  have hmem : y ∈ (Finset.range (p - 1)).image fun n => a ^ n * x := by
    rw [himage]
    exact Finset.mem_erase.mpr ⟨hy, Finset.mem_univ _⟩
  obtain ⟨n, hn, rfl⟩ := Finset.mem_image.mp hmem
  exact ⟨n, Finset.mem_range.mp hn, rfl⟩

end Powers

theorem succ_mod_eq {n c : ℕ} (hc : c < n) (i : ℕ) :
    (i + 1) % n = c ↔ i ≡ c + n - 1 [MOD n] := by
  have hshift : c + n - 1 + 1 = c + n := by omega
  have hmod : (c + n) % n = c := by rw [Nat.add_mod_right, Nat.mod_eq_of_lt hc]
  constructor
  · intro h
    refine Nat.ModEq.add_right_cancel' 1 ?_
    rw [Nat.ModEq, h, hshift, hmod]
  · intro h
    have hnext := h.add_right 1
    rwa [Nat.ModEq, hshift, hmod] at hnext

/-- Of the numbers from 1 to `m` as many leave each remainder as the quotient says, or one more. -/
theorem card_mod_eq (m : ℕ) {n c : ℕ} (hc : c < n) :
    m / n ≤ ((Finset.Icc 1 m).filter fun v => v % n = c).card ∧
      ((Finset.Icc 1 m).filter fun v => v % n = c).card ≤ m / n + 1 := by
  have hcard : ((Finset.Icc 1 m).filter fun v => v % n = c).card =
      m.count (· ≡ c + n - 1 [MOD n]) := by
    rw [Nat.count_eq_card_filter_range]
    refine Finset.card_nbij' (· - 1) (· + 1) ?_ ?_ ?_ ?_
    · intro v hv
      obtain ⟨hv, hmod⟩ := Finset.mem_filter.mp hv
      obtain ⟨hpos, hle⟩ := Finset.mem_Icc.mp hv
      refine Finset.mem_filter.mpr ⟨Finset.mem_range.mpr (Nat.sub_one_lt_of_le hpos hle), ?_⟩
      exact (succ_mod_eq hc _).mp (by rwa [Nat.sub_add_cancel hpos])
    · intro i hi
      obtain ⟨hi, hmod⟩ := Finset.mem_filter.mp hi
      have hlt := Finset.mem_range.mp hi
      exact Finset.mem_filter.mpr
        ⟨Finset.mem_Icc.mpr ⟨Nat.le_add_left 1 i, hlt⟩, (succ_mod_eq hc i).mpr hmod⟩
    · intro v hv
      exact Nat.sub_add_cancel (Finset.mem_Icc.mp (Finset.mem_filter.mp hv).1).1
    · intro i _
      exact Nat.add_sub_cancel i 1
  rw [hcard, Nat.count_modEq_card m (Nat.zero_lt_of_lt hc)]
  split_ifs <;> omega

end Cycles
