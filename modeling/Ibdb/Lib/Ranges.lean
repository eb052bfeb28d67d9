import Mathlib.Algebra.BigOperators.Group.List.Basic
import Mathlib.Algebra.GroupWithZero.Nat
import Mathlib.Order.Interval.Finset.Nat

/-! Ranges of addresses. -/

structure AddressRange where
  address : ℕ
  bytes : ℕ
  deriving DecidableEq

namespace AddressRange
variable {p q r b c : AddressRange}

def Inside (r b : AddressRange) : Prop :=
  b.address ≤ r.address ∧ r.address + r.bytes ≤ b.address + b.bytes

/-- One ends before the other starts. -/
def Apart (r q : AddressRange) : Prop :=
  r.address + r.bytes ≤ q.address ∨ q.address + q.bytes ≤ r.address

instance (r q : AddressRange) : Decidable (r.Apart q) := inferInstanceAs (Decidable (_ ∨ _))

theorem Inside.refl (r : AddressRange) : r.Inside r := ⟨le_rfl, le_rfl⟩

theorem Inside.trans (h : r.Inside q) (h' : q.Inside p) : r.Inside p :=
  ⟨h'.1.trans h.1, h.2.trans h'.2⟩

theorem Apart.symm (h : r.Apart q) : q.Apart r := Or.symm h

/-- What lies inside ranges that are apart is apart. -/
theorem Apart.inside (h : b.Apart c) (hr : r.Inside b) (hq : q.Inside c) : r.Apart q := by
  rcases h with h | h
  · exact .inl (hr.2.trans (h.trans hq.1))
  · exact .inr (hq.2.trans (h.trans hr.1))

def cells (r : AddressRange) : Finset ℕ := Finset.Ico r.address (r.address + r.bytes)

theorem Apart.disjoint_cells (h : r.Apart q) : Disjoint r.cells q.cells := by
  rw [Finset.disjoint_left]
  intro x hx hx'
  rw [cells, Finset.mem_Ico] at hx hx'
  unfold Apart at h
  omega

def covered (rs : List AddressRange) : Finset ℕ := rs.foldr (fun r s => r.cells ∪ s) ∅

theorem disjoint_covered {rs : List AddressRange} (h : ∀ q ∈ rs, r.Apart q) :
    Disjoint r.cells (covered rs) := by
  induction rs with
  | nil => exact Finset.disjoint_empty_right _
  | cons q rs ih =>
    refine Finset.disjoint_union_right.mpr ⟨(h q List.mem_cons_self).disjoint_cells, ?_⟩
    exact ih fun q hq => h q (List.mem_cons_of_mem _ hq)

theorem card_covered {rs : List AddressRange} (h : rs.Pairwise Apart) :
    (covered rs).card = (rs.map (·.bytes)).sum := by
  induction rs with
  | nil => rfl
  | cons r rs ih =>
    obtain ⟨hr, hrs⟩ := List.pairwise_cons.mp h
    have hcells : r.cells.card = r.bytes := by
      rw [cells, Nat.card_Ico]
      omega
    change (r.cells ∪ covered rs).card = _
    rw [Finset.card_union_of_disjoint (disjoint_covered hr), hcells, ih hrs, List.map_cons,
      List.sum_cons]

/-- Ranges that are apart have room for all their bytes. -/
theorem sum_bytes_le {rs : List AddressRange} (h : rs.Pairwise Apart)
    (hall : ∀ r ∈ rs, r.Inside b) : (rs.map (·.bytes)).sum ≤ b.bytes := by
  have hsub : covered rs ⊆ b.cells := by
    induction rs with
    | nil => exact Finset.empty_subset _
    | cons r rs ih =>
      obtain ⟨hr, hend⟩ := hall r List.mem_cons_self
      refine Finset.union_subset (Finset.Ico_subset_Ico hr hend) ?_
      exact ih (List.pairwise_cons.mp h).2 fun q hq => hall q (List.mem_cons_of_mem _ hq)
  have hcard := Finset.card_le_card hsub
  rw [card_covered h, cells, Nat.card_Ico] at hcard
  omega

end AddressRange
