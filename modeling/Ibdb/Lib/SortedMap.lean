import Mathlib

/-! Ordered maps read in key order. -/
namespace SortedMap
open Std
variable {κ ν : Type} {cmp : κ → κ → Ordering} [TransCmp cmp]

/-- Two strictly ascending lists with the same members are one list. -/
theorem eq_of_ascending {l m : List (κ × ν)}
    (hl : l.Pairwise fun a b => cmp a.1 b.1 = .lt) (hm : m.Pairwise fun a b => cmp a.1 b.1 = .lt)
    (h : ∀ p, p ∈ l ↔ p ∈ m) : l = m := by
  have irrefl : ∀ {a b : κ × ν}, cmp a.1 b.1 = .lt → a ≠ b := by
    intro a b hab heq
    subst heq
    exact OrientedCmp.not_lt_of_lt hab hab
  have hp : l.Perm m :=
    (List.perm_ext_iff_of_nodup (hl.imp irrefl) (hm.imp irrefl)).mpr h
  refine List.Perm.eq_of_pairwise ?_ hl hm hp
  intro a b _ _ hab hba
  exact (OrientedCmp.not_lt_of_lt hab hba).elim

/-- A key above all others goes to the end. -/
theorem toList_insertIfNew_of_lt [LawfulEqCmp cmp] {m : ExtTreeMap κ ν cmp} {k : κ} {v : ν}
    (h : ∀ p ∈ m.toList, cmp p.1 k = .lt) :
    (m.insertIfNew k v).toList = m.toList ++ [(k, v)] := by
  have hk : k ∉ m := by
    intro hk
    have hl := h (k, m[k]) (ExtTreeMap.mem_toList_iff_getElem?_eq_some.mpr (by simp [hk]))
    exact OrientedCmp.not_lt_of_lt hl hl
  refine eq_of_ascending ExtTreeMap.ordered_keys_toList ?_ ?_
  · rw [List.pairwise_append]
    refine ⟨ExtTreeMap.ordered_keys_toList, List.pairwise_singleton _ _, ?_⟩
    intro a ha b hb
    rw [List.mem_singleton.mp hb]
    exact h a ha
  · rintro ⟨k', v'⟩
    rw [ExtTreeMap.mem_toList_iff_getElem?_eq_some, ExtTreeMap.getElem?_insertIfNew,
      List.mem_append, List.mem_singleton, ExtTreeMap.mem_toList_iff_getElem?_eq_some]
    by_cases hc : cmp k k' = .eq
    · obtain rfl := LawfulEqCmp.eq_of_compare hc
      simp [hc, hk, eq_comm]
    · have hne : k' ≠ k := by
        intro heq
        subst heq
        exact hc ReflCmp.compare_self
      simp [hc, hne]

end SortedMap
