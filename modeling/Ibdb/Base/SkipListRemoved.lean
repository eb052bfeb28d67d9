import Ibdb.Base.SkipListLevels

/-! A node that was taken out of a skip list while a reader stood on it. -/
namespace Ibdb.Base
open Std

namespace SkipList
variable {Key Value : Type} {cmp : Key → Key → Ordering} {s u : SkipList Key Value} {p i : ℕ}

theorem setNext_ok {x q : NodePtr} (h : s.setNext x i q = .ok u) :
    ∃ p, x = some p ∧ s.Reaches i p ∧ u = s.withNext p i q := by
  obtain ⟨node, hnode, h⟩ := Except.bind_eq_ok.mp h
  cases x with
  | none => cases hnode
  | some p =>
    simp only [SkipList.node, Option.bind_some] at hnode
    split at hnode
    · next heq =>
      cases hnode
      split_ifs at h with hi
      · exact ⟨p, rfl, ⟨node, heq, hi⟩, (Except.ok.inj h).symm⟩
    · cases hnode

/-- A round of `Remove` ends with `target->SetNext(i, nullptr)`. -/
theorem unspliceAt_ok {prev : ℕ → NodePtr} (h : unspliceAt (some p) prev s i = .ok u) :
    u.Link i p none ∧ ∀ j ≠ i, ∀ p q, s.Link j p q → u.Link j p q := by
  rw [unspliceAt] at h
  obtain ⟨q, -, h⟩ := Except.bind_eq_ok.mp h
  obtain ⟨t, ht, h⟩ := Except.bind_eq_ok.mp h
  obtain ⟨p', -, -, rfl⟩ := setNext_ok ht
  obtain ⟨p₀, heq, hreach, rfl⟩ := setNext_ok h
  obtain rfl := Option.some.inj heq
  refine ⟨link_withNext hreach _, fun j hj p q hlink => ?_⟩
  exact link_withNext_of_ne (.inr hj) (link_withNext_of_ne (.inr hj) hlink)

/-- The loop leaves the node without a successor on each of its levels. -/
theorem unsplice_links {prev : ℕ → NodePtr} {n : ℕ}
    (h : (List.range n).foldlM (unspliceAt (some p) prev) s = .ok u) :
    ∀ i < n, u.Link i p none := by
  induction n generalizing u with
  | zero => exact fun i hi => absurd hi (Nat.not_lt_zero i)
  | succ n ih =>
    rw [List.range_succ, List.foldlM_append] at h
    obtain ⟨t, ht, hround⟩ := Except.bind_eq_ok.mp h
    rw [List.foldlM_cons] at hround
    obtain ⟨u', hu', hnil⟩ := Except.bind_eq_ok.mp hround
    obtain rfl : u' = u := Except.ok.inj hnil
    obtain ⟨hlink, hothers⟩ := unspliceAt_ok hu'
    intro i hi
    rcases Nat.lt_succ_iff_lt_or_eq.mp hi with hlt | rfl
    · exact hothers i hlt.ne p none (ih ht i hlt)
    · exact hlink

/-- From a node without successors a search comes to nothing. -/
theorem search_none {key : Key} {n : ℕ} (h : ∀ i ≤ n, s.Link i p none) {fuel : ℕ}
    (hfuel : n < fuel) (prev : ℕ → NodePtr) :
    ∃ prev', s.search cmp key fuel (some p) n prev = .ok (none, prev') := by
  induction n generalizing fuel prev with
  | zero =>
    obtain ⟨fuel, rfl⟩ := Nat.exists_eq_succ_of_ne_zero hfuel.ne'
    rw [search, next_eq (h 0 le_rfl), Except.ok_bind]
    exact ⟨_, rfl⟩
  | succ n ih =>
    obtain ⟨fuel, rfl⟩ := Nat.exists_eq_succ_of_ne_zero (Nat.ne_zero_of_lt hfuel)
    obtain ⟨prev', hsearch⟩ := ih (fun i hi => h i (hi.trans n.le_succ))
      (Nat.lt_of_succ_lt_succ hfuel) (Function.update prev (n + 1) (some p))
    rw [search, next_eq (h (n + 1) le_rfl), Except.ok_bind]
    exact ⟨prev', hsearch⟩

/-- `Remove` is not safe beside readers: a search that stands on the removed node then finds no key at
all, on whatever level it is, though every other key is still in the list. -/
theorem removed_hides [TransCmp cmp] [Inhabited Key] [Inhabited Value]
    {ops : List (MapOp Key Value)} (hops : Admissible cmp ops) {t : Tower Key Value}
    (ht : t ∈ (history cmp ops).live) :
    ∃ s s', run (step cmp) ops new = some s ∧ s.remove cmp t.key = .ok (true, s') ∧
      (∀ key n fuel prev, n < t.height → n < fuel →
        ∃ prev', s'.search cmp key fuel (some t.ptr) n prev = .ok (none, prev')) ∧
      ∀ u ∈ (history cmp ops).live, cmp t.key u.key ≠ .eq → s'.contains cmp u.key = .ok true := by
  obtain ⟨s, hrun, ts, hs⟩ := run_tracks hops
  obtain ⟨pre, found, post, rfl, hsplits⟩ := hs.split t.key
  have hself : cmp t.key t.key = .eq := ReflCmp.compare_self
  obtain rfl : found = some t := by
    have hmem := hs.perm.mem_iff.mpr ht
    rcases List.mem_append.mp hmem with hmem | hmem
    · rw [hsplits.pre_lt t hmem] at hself
      cases hself
    · rcases List.mem_append.mp hmem with hmem | hmem
      · exact Option.mem_toList.mp hmem
      · rw [hsplits.post_gt t hmem] at hself
        cases hself
  obtain ⟨s', hremove, hrepr, -⟩ := hs.represents.remove hsplits
  refine ⟨s, s', hrun, hremove, fun key n fuel prev hn hfuel => ?_, fun u hu hne => ?_⟩
  · obtain ⟨prev₀, hfind, -⟩ := hsplits.find hs.represents
      fun i => if i < kMaxHeight then head else none
    obtain ⟨next, hnext⟩ := hs.represents.stores t (by simp)
    have hloop : (List.range t.height).foldlM (unspliceAt (some t.ptr) prev₀) s = .ok s' := by
      rw [SkipList.remove, hsplits.contains hs.represents, Except.ok_bind] at hremove
      simp only [Option.isSome_some, Bool.not_true, Bool.false_eq_true, if_false] at hremove
      rw [hfind, Except.ok_bind] at hremove
      change (s.node (some t.ptr) >>= _) = _ at hremove
      rw [node_eq hnext, Except.ok_bind] at hremove
      obtain ⟨s'', hfold, hpair⟩ := Except.bind_eq_ok.mp hremove
      cases hpair
      exact hfold
    exact search_none (fun i hi => unsplice_links hloop i (hi.trans_lt hn)) hfuel prev
  · have hmem := hs.perm.mem_iff.mpr hu
    have hin : u ∈ pre ++ post := by
      rcases List.mem_append.mp hmem with hmem | hmem
      · exact List.mem_append_left _ hmem
      · rcases List.mem_append.mp hmem with hmem | hmem
        · obtain rfl : u = t := (Option.some.inj (Option.mem_toList.mp hmem)).symm
          exact absurd hself hne
        · exact List.mem_append_right _ hmem
    have hholds : s'.Holds cmp (lookup cmp (pre ++ post)) := ⟨_, hrepr, fun _ => rfl⟩
    have hsome : (lookup cmp (pre ++ post) u.key).isSome := by
      rw [lookup, Option.isSome_map, List.find?_isSome]
      exact ⟨u, hin, decide_eq_true ReflCmp.compare_self⟩
    rw [hholds.contains, hsome]

theorem removed_hides_three :
    ∃ s s' : SkipList ℕ ℕ, s.remove compare 3 = .ok (true, s') ∧
      run (step compare) [.insert 5 50 12, .insert 3 30 1, .remove 5] new = some s ∧
      ∀ key, ∃ prev', s'.search compare key 1 (some 3) 0 (fun _ => none) = .ok (none, prev') := by
  have hlive : (⟨3, 1, 3, 30⟩ : Tower ℕ ℕ) ∈
      (history compare [.insert 5 50 12, .insert 3 30 1, .remove 5]).live := List.mem_cons_self
  obtain ⟨s, s', hrun, hremove, hsearch, -⟩ := removed_hides admissible_three hlive
  exact ⟨s, s', hremove, hrun, fun key => hsearch key 0 1 _ Nat.one_pos Nat.one_pos⟩

end SkipList
end Ibdb.Base
