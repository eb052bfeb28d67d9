import Ibdb.Base.SkipListTowers

/-! What each operation of a skip list does to the map that its towers make. -/
namespace Ibdb.Base
open Std

namespace SkipList
variable {Key Value : Type}

def lookup (cmp : Key → Key → Ordering) (ts : List (Tower Key Value)) (key : Key) : Option Value :=
  (ts.find? fun t => cmp t.key key = .eq).map (·.value)

/-- The towers before a key, the tower of the key, if any, and the towers after it. -/
structure Splits (cmp : Key → Key → Ordering) (key : Key) (pre : List (Tower Key Value))
    (found : Option (Tower Key Value)) (post : List (Tower Key Value)) : Prop where
  pre_lt : ∀ t ∈ pre, cmp t.key key = .lt
  found_eq : ∀ t ∈ found, cmp t.key key = .eq
  post_gt : ∀ t ∈ post, cmp t.key key = .gt

section Split
variable {cmp : Key → Key → Ordering} {key : Key} {ts pre post : List (Tower Key Value)}
variable {found : Option (Tower Key Value)}

theorem exists_splits [TransCmp cmp] (h : ts.Pairwise fun t u => cmp t.key u.key = .lt)
    (key : Key) : ∃ pre found post, ts = pre ++ (found.toList ++ post) ∧
      Splits cmp key pre found post := by
  induction ts with
  | nil => exact ⟨[], none, [], rfl, nofun, nofun, nofun⟩
  | cons t ts ih =>
    obtain ⟨hhead, htail⟩ := List.pairwise_cons.mp h
    cases hcmp : cmp t.key key with
    | lt =>
      obtain ⟨pre, found, post, rfl, hsplits⟩ := ih htail
      refine ⟨t :: pre, found, post, rfl, ?_, hsplits.found_eq, hsplits.post_gt⟩
      intro u hu
      rcases List.mem_cons.mp hu with rfl | hu
      · exact hcmp
      · exact hsplits.pre_lt u hu
    | eq =>
      refine ⟨[], some t, ts, rfl, nofun, ?_, ?_⟩
      · intro u hu
        rwa [← Option.some.inj hu]
      · intro u hu
        have hlt := TransCmp.lt_of_eq_of_lt (OrientedCmp.eq_symm hcmp) (hhead u hu)
        exact OrientedCmp.gt_iff_lt.mpr hlt
    | gt =>
      refine ⟨[], none, t :: ts, rfl, nofun, nofun, ?_⟩
      intro u hu
      rcases List.mem_cons.mp hu with rfl | hu
      · exact hcmp
      · exact OrientedCmp.gt_iff_lt.mpr
          (TransCmp.lt_trans (OrientedCmp.gt_iff_lt.mp hcmp) (hhead u hu))

theorem Splits.ne_lt (h : Splits cmp key pre found post) :
    ∀ t ∈ found.toList ++ post, cmp t.key key ≠ .lt := by
  intro t ht
  rcases List.mem_append.mp ht with ht | ht
  · rw [h.found_eq t (Option.mem_toList.mp ht)]
    exact nofun
  · rw [h.post_gt t ht]
    exact nofun

theorem Splits.lookup_eq (h : Splits cmp key pre found post) :
    lookup cmp (pre ++ (found.toList ++ post)) key = found.map (·.value) := by
  have hpre : pre.find? (fun t => decide (cmp t.key key = .eq)) = none := by
    rw [List.find?_eq_none]
    intro t ht
    simp [h.pre_lt t ht]
  have hpost : post.find? (fun t => decide (cmp t.key key = .eq)) = none := by
    rw [List.find?_eq_none]
    intro t ht
    simp [h.post_gt t ht]
  unfold lookup
  rw [List.find?_append, List.find?_append, hpre, hpost]
  cases found with
  | none => rfl
  | some t => simp [h.found_eq t rfl]

/-- A tower with the key of the split is not seen under any other key. -/
theorem lookup_of_ne [TransCmp cmp] {t : Tower Key Value} (ht : cmp t.key key = .eq) {key' : Key}
    (hne : cmp key key' ≠ .eq) :
    lookup cmp (pre ++ t :: post) key' = lookup cmp (pre ++ post) key' := by
  have hskip : cmp t.key key' ≠ .eq := fun heq =>
    hne (TransCmp.eq_trans (OrientedCmp.eq_symm ht) heq)
  unfold lookup
  rw [List.find?_append, List.find?_append, List.find?_cons_of_neg (by simpa using hskip)]

end Split

section Operations
variable {cmp : Key → Key → Ordering} {s s' : SkipList Key Value} {key : Key}
variable {pre post : List (Tower Key Value)} {found : Option (Tower Key Value)}

theorem Splits.find (hs : Splits cmp key pre found post)
    (h : s.Represents cmp (pre ++ (found.toList ++ post))) (prev : ℕ → NodePtr) :
    ∃ prev', s.findGreaterOrEqual cmp key prev =
        .ok (((found.toList ++ post).map (·.ptr)).head?, prev') ∧
      (∀ i < s.maxHeight, prev' i = some ((level i pre).getLastD 0)) ∧
      ∀ i, s.maxHeight ≤ i → prev' i = prev i := by
  have hpos := h.maxHeight_pos
  have hlen : pre.length + (s.maxHeight - 1) < s.nodes.length + s.maxHeight := by
    have hlt := h.length_lt
    rw [List.length_append] at hlt
    omega
  obtain ⟨prev', hsearch, hnodes, hrest⟩ := search_eq h hs.pre_lt hs.ne_lt _ (List.nil_append pre).symm
    (n := s.maxHeight - 1) (by omega) nofun hlen prev
  exact ⟨prev', hsearch, fun i hi => hnodes i (by omega), fun i hi => hrest i (by omega)⟩

theorem Splits.equalNode [TransCmp cmp] (hs : Splits cmp key pre found post)
    (h : s.Represents cmp (pre ++ (found.toList ++ post))) :
    s.equalNode cmp key ((found.toList ++ post).map (·.ptr)).head? = .ok found.isSome := by
  have hstores : ∀ t ∈ found.toList ++ post, s.Stores t := fun t ht =>
    h.stores t (List.mem_append_right pre ht)
  cases found with
  | some t =>
    obtain ⟨next, hnext⟩ := hstores t List.mem_cons_self
    have heq := OrientedCmp.eq_symm (hs.found_eq t rfl)
    simp [SkipList.equalNode, node_eq hnext, heq]
  | none =>
    cases post with
    | nil => rfl
    | cons t post =>
      obtain ⟨next, hnext⟩ := hstores t List.mem_cons_self
      have hne : cmp key t.key ≠ .eq := by
        rw [OrientedCmp.gt_iff_lt.mp (hs.post_gt t List.mem_cons_self)]
        exact nofun
      simp [SkipList.equalNode, node_eq hnext, hne]

theorem Splits.contains [TransCmp cmp] (hs : Splits cmp key pre found post)
    (h : s.Represents cmp (pre ++ (found.toList ++ post))) : s.contains cmp key = .ok found.isSome := by
  obtain ⟨prev', hfind, -⟩ := hs.find h fun _ => none
  rw [SkipList.contains, hfind, Except.ok_bind]
  exact hs.equalNode h

theorem Splits.findEqual (hs : Splits cmp key pre found post)
    (h : s.Represents cmp (pre ++ (found.toList ++ post))) :
    s.findEqual cmp key = .ok (found.map (·.ptr)) := by
  have hstores : ∀ t ∈ found.toList ++ post, s.Stores t := fun t ht =>
    h.stores t (List.mem_append_right pre ht)
  obtain ⟨prev', hfind, -⟩ := hs.find h fun _ => none
  rw [SkipList.findEqual, hfind, Except.ok_bind]
  cases found with
  | some t =>
    obtain ⟨next, hnext⟩ := hstores t List.mem_cons_self
    have heq := hs.found_eq t rfl
    simp [node_eq hnext, Except.ok_bind, heq]
    rfl
  | none =>
    cases post with
    | nil => rfl
    | cons t post =>
      obtain ⟨next, hnext⟩ := hstores t List.mem_cons_self
      have hgt := hs.post_gt t List.mem_cons_self
      simp [node_eq hnext, Except.ok_bind, hgt]
      rfl

theorem Splits.getValue {t : Tower Key Value} (hs : Splits cmp key pre (some t) post)
    (h : s.Represents cmp (pre ++ ((some t).toList ++ post))) : s.getValue cmp key = .ok t.value := by
  obtain ⟨next, hnext⟩ := h.stores t (by simp)
  rw [SkipList.getValue, hs.findEqual h, Except.ok_bind, Option.map_some, node_eq hnext]
  rfl

/-! Storing a pointer leaves the towers alone. -/

def withNext (s : SkipList Key Value) (p i : ℕ) (q : NodePtr) : SkipList Key Value :=
  { s with nodes := s.nodes.modify p fun node =>
    { node with next := Function.update node.next i (some q) } }

theorem setNext_eq {i p : ℕ} (h : s.Reaches i p) (q : NodePtr) :
    s.setNext (some p) i q = .ok (s.withNext p i q) := by
  obtain ⟨x, hx, hi⟩ := h
  rw [setNext, node_eq hx, Except.ok_bind, if_pos hi]
  rfl

/-- Between the states no tower was made or changed. -/
structure SameTowers (s s' : SkipList Key Value) : Prop where
  stores : ∀ t, s.Stores t → s'.Stores t
  reaches : ∀ i p, s.Reaches i p → s'.Reaches i p
  length : s'.nodes.length = s.nodes.length
  maxHeight : s'.maxHeight = s.maxHeight

theorem SameTowers.refl (s : SkipList Key Value) : SameTowers s s :=
  ⟨fun _ h => h, fun _ _ h => h, rfl, rfl⟩

theorem SameTowers.trans {u : SkipList Key Value} (h : SameTowers s s') (h' : SameTowers s' u) :
    SameTowers s u :=
  ⟨fun t ht => h'.stores t (h.stores t ht), fun i p hp => h'.reaches i p (h.reaches i p hp),
    h'.length.trans h.length, h'.maxHeight.trans h.maxHeight⟩

theorem getElem?_withNext {p p' i : ℕ} {q : NodePtr} {x : Node Key Value}
    (h : s.nodes[p']? = some x) : ∃ next, (s.withNext p i q).nodes[p']? =
      some { x with next := next } ∧ ∀ j, p' ≠ p ∨ j ≠ i → next j = x.next j := by
  by_cases hp : p = p'
  · subst hp
    refine ⟨Function.update x.next i (some q), ?_, ?_⟩
    · simp [withNext, h]
    · intro j hj
      exact Function.update_of_ne (hj.resolve_left (not_not.mpr rfl)) _ _
  · exact ⟨x.next, by simp [withNext, h, hp], fun _ _ => rfl⟩

theorem SameTowers.withNext (s : SkipList Key Value) (p i : ℕ) (q : NodePtr) :
    SameTowers s (s.withNext p i q) := by
  refine ⟨fun t ht => ?_, fun j p' hp' => ?_, ?_, rfl⟩
  · obtain ⟨next, hnext⟩ := ht
    obtain ⟨next', hnext', -⟩ := getElem?_withNext (p := p) (i := i) (q := q) hnext
    exact ⟨next', hnext'⟩
  · obtain ⟨x, hx, hj⟩ := hp'
    obtain ⟨next', hnext', -⟩ := getElem?_withNext (p := p) (i := i) (q := q) hx
    exact ⟨_, hnext', hj⟩
  · simp [SkipList.withNext]

theorem link_withNext {p i : ℕ} (h : s.Reaches i p) (q : NodePtr) :
    (s.withNext p i q).Link i p q := by
  obtain ⟨x, hx, -⟩ := h
  refine ⟨{ x with next := Function.update x.next i (some q) }, ?_, Function.update_self ..⟩
  simp [withNext, hx]

theorem link_withNext_of_ne {p p' i j : ℕ} {q q' : NodePtr} (hne : p' ≠ p ∨ j ≠ i)
    (h : s.Link j p' q') : (s.withNext p i q).Link j p' q' := by
  obtain ⟨x, hx, hq⟩ := h
  obtain ⟨next, hnext, hsame⟩ := getElem?_withNext (p := p) (i := i) (q := q) hx
  exact ⟨_, hnext, (hsame j hne).trans hq⟩

/-- A loop over the levels below `n` that relinks one level in each round. -/
theorem relink {f : SkipList Key Value → ℕ → Except Stop (SkipList Key Value)} {n : ℕ}
    {before after : ℕ → List ℕ}
    (hbefore : ∀ i < kMaxHeight, Linked (s.Link i) 0 (before i)) (hn : n ≤ kMaxHeight)
    (round : ∀ i < n, ∀ t, SameTowers s t → Linked (t.Link i) 0 (before i) →
      ∃ u, f t i = .ok u ∧ SameTowers t u ∧ Linked (u.Link i) 0 (after i) ∧
        ∀ j ≠ i, ∀ p q, t.Link j p q → u.Link j p q) :
    ∃ t, (List.range n).foldlM f s = .ok t ∧ SameTowers s t ∧
      ∀ i < kMaxHeight, Linked (t.Link i) 0 (if i < n then after i else before i) := by
  refine Except.foldlM_range (P := fun m t => SameTowers s t ∧
    ∀ i < kMaxHeight, Linked (t.Link i) 0 (if i < m then after i else before i)) ?_ n ?_
  · exact ⟨.refl s, fun i hi => by simpa using hbefore i hi⟩
  · rintro m t hm ⟨hsame, hlinked⟩
    have hlevel := hlinked m (hm.trans_le hn)
    rw [if_neg (lt_irrefl m)] at hlevel
    obtain ⟨u, hu, hsame', hafter, hothers⟩ := round m hm t hsame hlevel
    refine ⟨u, hu, hsame.trans hsame', fun i hi => ?_⟩
    by_cases him : i = m
    · subst him
      rwa [if_pos i.lt_succ_self]
    · have hiff : (i < m + 1) = (i < m) := propext (by omega)
      simp only [hiff]
      exact (hlinked i hi).mono fun x _ => hothers i him x

/-! The nodes of a list are distinct. -/

theorem Stores.key_eq {t u : Tower Key Value} (ht : s.Stores t) (hu : s.Stores u)
    (hptr : t.ptr = u.ptr) : t.key = u.key := by
  obtain ⟨next, hnext⟩ := ht
  obtain ⟨next', hnext'⟩ := hu
  rw [hptr, hnext'] at hnext
  exact (Node.mk.inj (Option.some.inj hnext)).2.1.symm

theorem Stores.reaches {t : Tower Key Value} (ht : s.Stores t) {i : ℕ} (hi : i < t.height) :
    s.Reaches i t.ptr := by
  obtain ⟨next, hnext⟩ := ht
  exact ⟨_, hnext, hi⟩

theorem Represents.nodup [TransCmp cmp] {ts : List (Tower Key Value)} (h : s.Represents cmp ts)
    (i : ℕ) : (0 :: level i ts).Nodup := by
  have hsub : (level i ts).Sublist (ts.map (·.ptr)) := List.filter_sublist.map _
  refine List.Nodup.sublist (hsub.cons_cons 0) (List.nodup_cons.mpr ⟨?_, ?_⟩)
  · intro hmem
    obtain ⟨t, ht, hptr⟩ := List.mem_map.mp hmem
    exact h.ne_head t ht hptr
  · rw [List.Nodup, List.pairwise_map]
    refine h.sorted.imp_of_mem fun {t u} ht hu hlt hptr => ?_
    have heq : cmp u.key u.key = .eq := ReflCmp.compare_self
    rw [Stores.key_eq (h.stores t ht) (h.stores u hu) hptr, heq] at hlt
    cases hlt

theorem mem_level {i p : ℕ} {ts : List (Tower Key Value)} (h : p ∈ level i ts) :
    ∃ t ∈ ts, i < t.height ∧ t.ptr = p := by
  obtain ⟨t, ht, hptr⟩ := List.mem_map.mp h
  exact ⟨t, List.mem_of_mem_filter ht, of_decide_eq_true (List.mem_filter.mp ht).2, hptr⟩

theorem Represents.reaches_level {i p : ℕ} {ts : List (Tower Key Value)} (h : s.Represents cmp ts)
    (hi : i < kMaxHeight) (hp : p ∈ 0 :: level i ts) : s.Reaches i p := by
  rcases List.mem_cons.mp hp with rfl | hp
  · exact h.head i hi
  · obtain ⟨t, ht, hlt, rfl⟩ := mem_level hp
    exact Stores.reaches (h.stores t ht) hlt

/-- One round of the loop of `Insert`. -/
theorem spliceAt_eq {prev : ℕ → NodePtr} {i p n : ℕ} {q : NodePtr} (hprev : prev i = some p)
    (hlink : s.Link i p q) (hp : s.Reaches i p) (hn : s.Reaches i n) :
    spliceAt (some n) prev s i = .ok ((s.withNext n i q).withNext p i (some n)) := by
  rw [spliceAt, hprev, next_eq hlink, Except.ok_bind, setNext_eq hn, Except.ok_bind,
    setNext_eq ((SameTowers.withNext s n i q).reaches i p hp)]

/-- One round of the loop of `Remove`. -/
theorem unspliceAt_eq {prev : ℕ → NodePtr} {i p t : ℕ} {q : NodePtr} (hprev : prev i = some p)
    (hlink : s.Link i t q) (hp : s.Reaches i p) (ht : s.Reaches i t) :
    unspliceAt (some t) prev s i = .ok ((s.withNext p i q).withNext t i none) := by
  rw [unspliceAt, hprev, next_eq hlink, Except.ok_bind, setNext_eq hp, Except.ok_bind,
    setNext_eq ((SameTowers.withNext s p i q).reaches i t ht)]

/-- The round of `Insert` on one level links the new node in behind the last node before it. -/
theorem spliceAt_linked {prev : ℕ → NodePtr} {i n : ℕ} {ps qs : List ℕ}
    (hprev : prev i = some (ps.getLastD 0)) (hlinked : Linked (s.Link i) 0 (ps ++ qs))
    (hnodup : (0 :: (ps ++ qs)).Nodup) (hnew : n ∉ 0 :: (ps ++ qs))
    (hp : s.Reaches i (ps.getLastD 0)) (hn : s.Reaches i n) :
    ∃ u, spliceAt (some n) prev s i = .ok u ∧ SameTowers s u ∧
      Linked (u.Link i) 0 (ps ++ n :: qs) ∧ ∀ j ≠ i, ∀ p q, s.Link j p q → u.Link j p q := by
  have hmem : ps.getLastD 0 ∈ 0 :: (ps ++ qs) :=
    List.mem_append_left qs (Linked.getLastD_mem 0 ps)
  have hne : n ≠ ps.getLastD 0 := fun heq => hnew (heq ▸ hmem)
  have hreach := (SameTowers.withNext s n i qs.head?).reaches i _ hp
  refine ⟨_, spliceAt_eq hprev hlinked.drop.head hp hn,
    (SameTowers.withNext s n i _).trans (.withNext _ _ i _), ?_, ?_⟩
  · refine hlinked.splice hnodup (fun x hx hlast q hlink => ?_) (link_withNext hreach _) ?_
    · have hxn : x ≠ n := fun heq => hnew (heq ▸ hx)
      exact link_withNext_of_ne (.inl hlast) (link_withNext_of_ne (.inl hxn) hlink)
    · exact link_withNext_of_ne (.inl hne) (link_withNext hn _)
  · intro j hj p q hlink
    exact link_withNext_of_ne (.inr hj) (link_withNext_of_ne (.inr hj) hlink)

/-- The round of `Remove` on one level takes the node out from behind the last node before it. -/
theorem unspliceAt_linked {prev : ℕ → NodePtr} {i t : ℕ} {ps qs : List ℕ}
    (hprev : prev i = some (ps.getLastD 0)) (hlinked : Linked (s.Link i) 0 (ps ++ t :: qs))
    (hnodup : (0 :: (ps ++ t :: qs)).Nodup) (hp : s.Reaches i (ps.getLastD 0))
    (ht : s.Reaches i t) :
    ∃ u, unspliceAt (some t) prev s i = .ok u ∧ SameTowers s u ∧
      Linked (u.Link i) 0 (ps ++ qs) ∧ ∀ j ≠ i, ∀ p q, s.Link j p q → u.Link j p q := by
  have hsplit : ((0 :: ps) ++ t :: qs).Nodup := hnodup
  have hout : t ∉ 0 :: (ps ++ qs) := by
    have hperm : ((0 :: ps) ++ t :: qs).Perm (t :: ((0 :: ps) ++ qs)) := List.perm_middle
    exact (List.nodup_cons.mp (hperm.nodup_iff.mp hsplit)).1
  have hne : ps.getLastD 0 ≠ t := fun heq =>
    hout (heq ▸ List.mem_append_left qs (Linked.getLastD_mem 0 ps))
  refine ⟨_, unspliceAt_eq hprev hlinked.drop.2.head hp ht,
    (SameTowers.withNext s _ i _).trans (.withNext _ _ i _), ?_, ?_⟩
  · refine hlinked.unsplice hnodup (fun x hx hlast q hlink => ?_) ?_
    · have hxt : x ≠ t := fun heq => hout (heq ▸ hx)
      exact link_withNext_of_ne (.inl hxt) (link_withNext_of_ne (.inl hlast) hlink)
    · exact link_withNext_of_ne (.inl hne) (link_withNext hp _)
  · intro j hj p q hlink
    exact link_withNext_of_ne (.inr hj) (link_withNext_of_ne (.inr hj) hlink)

end Operations
end SkipList
end Ibdb.Base
