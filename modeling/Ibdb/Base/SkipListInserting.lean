import Ibdb.Base.SkipListSteps

/-! What each store of `Insert` leaves for the readers. -/
namespace Ibdb.Base
open Std

namespace SkipList
variable {Key Value : Type} {cmp : Key → Key → Ordering} {s s₀ t : SkipList Key Value}
variable {key : Key} {value : Value} {height : ℕ} {prev : ℕ → NodePtr}
variable {ops : List (MapOp Key Value)} {ts ts' pre post : List (Tower Key Value)}

structure Grows (ts ts' : List (Tower Key Value)) : Prop where
  ptrs : (ts.map (·.ptr)).Sublist (ts'.map (·.ptr))
  keys : (ts.map (·.key)).Sublist (ts'.map (·.key))
  higher : ∀ t ∈ ts, ∃ u ∈ ts', u.ptr = t.ptr ∧ u.key = t.key ∧ u.value = t.value ∧
    t.height ≤ u.height

theorem Grows.refl (ts : List (Tower Key Value)) : Grows ts ts :=
  ⟨.refl _, .refl _, fun t ht => ⟨t, ht, rfl, rfl, rfl, le_rfl⟩⟩

theorem Grows.trans {us : List (Tower Key Value)} (h : Grows ts ts') (h' : Grows ts' us) :
    Grows ts us := by
  refine ⟨h.ptrs.trans h'.ptrs, h.keys.trans h'.keys, fun t ht => ?_⟩
  obtain ⟨u, hu, hptr, hkey, hvalue, hheight⟩ := h.higher t ht
  obtain ⟨v, hv, hptr', hkey', hvalue', hheight'⟩ := h'.higher u hu
  exact ⟨v, hv, hptr'.trans hptr, hkey'.trans hkey, hvalue'.trans hvalue, hheight.trans hheight'⟩

/-- The insertion of a key that is not there is under way, in the list that the insertions before
it have led to. -/
structure Inserting (cmp : Key → Key → Ordering) (ops : List (MapOp Key Value)) (key : Key)
    (value : Value) (height : ℕ) (prev : ℕ → NodePtr) (s₀ : SkipList Key Value)
    (pre post : List (Tower Key Value)) [Inhabited Key] [Inhabited Value] : Prop where
  ran : run (step cmp) ops new = some s₀
  sees : ∀ k, lookup cmp (pre ++ post) k = visible cmp ops k
  represents : s₀.Represents cmp (pre ++ post)
  splits : Splits cmp key pre none post
  pos : 0 < height
  le : height ≤ kMaxHeight
  found : ∃ x, s₀.findGreaterOrEqual cmp key (fun _ => none) = .ok (x, prev) ∧
    s₀.equalNode cmp key x = .ok false

/-- The array `prev` once the levels above the old ones have `head_`. -/
def raised (s₀ : SkipList Key Value) (height : ℕ) (prev : ℕ → NodePtr) (i : ℕ) : NodePtr :=
  if s₀.maxHeight ≤ i ∧ i < height then head else prev i

def made (s₀ : SkipList Key Value) (key : Key) (value : Value) (height : ℕ) : SkipList Key Value :=
  s₀.withNode (newNode key value height) (if height > s₀.maxHeight then height else s₀.maxHeight)

/-- The towers that the list links when the new one is linked below level `i`. -/
def shown (s₀ : SkipList Key Value) (pre post : List (Tower Key Value)) (key : Key) (value : Value)
    (i : ℕ) : List (Tower Key Value) :=
  pre ++ ((if i = 0 then [] else [⟨s₀.nodes.length, i, key, value⟩]) ++ post)

/-- The new node is linked on the levels below `i` and on no other. -/
structure Spliced (s₀ : SkipList Key Value) (pre post : List (Tower Key Value)) (key : Key)
    (value : Value) (height i : ℕ) (s : SkipList Key Value) : Prop where
  same : SameTowers (s₀.made key value height) s
  linked : ∀ j < kMaxHeight, Linked (s.Link j) 0
    (level j pre ++ if j < i then s₀.nodes.length :: level j post else level j post)

section Shown
variable {i : ℕ}

theorem shown_zero : s₀.shown pre post key value 0 = pre ++ post := rfl

theorem shown_of_pos (hi : 0 < i) :
    s₀.shown pre post key value i = pre ++ ⟨s₀.nodes.length, i, key, value⟩ :: post := by
  simp [shown, hi.ne']

theorem grows_shown (i : ℕ) :
    Grows (s₀.shown pre post key value i) (s₀.shown pre post key value (i + 1)) := by
  rw [shown_of_pos i.succ_pos]
  have hsub : (pre ++ post).Sublist
      (pre ++ (⟨s₀.nodes.length, i + 1, key, value⟩ : Tower Key Value) :: post) :=
    (List.sublist_cons_self _ post).append_left pre
  rcases Nat.eq_zero_or_pos i with rfl | hi
  · exact ⟨hsub.map _, hsub.map _, fun t ht => ⟨t, hsub.subset ht, rfl, rfl, rfl, le_rfl⟩⟩
  · rw [shown_of_pos hi]
    refine ⟨by simp, by simp, fun t ht => ?_⟩
    rcases List.mem_append.mp ht with ht | ht
    · exact ⟨t, List.mem_append_left _ ht, rfl, rfl, rfl, le_rfl⟩
    · rcases List.mem_cons.mp ht with rfl | ht
      · exact ⟨_, List.mem_append_right pre List.mem_cons_self, rfl, rfl, rfl, i.le_succ⟩
      · exact ⟨t, hsub.subset (List.mem_append_right pre ht), rfl, rfl, rfl, le_rfl⟩

theorem level_shown {j : ℕ} : level j (s₀.shown pre post key value i) =
    level j pre ++ if j < i then s₀.nodes.length :: level j post else level j post := by
  rcases Nat.eq_zero_or_pos i with rfl | hi
  · rw [shown_zero, level_append, if_neg (Nat.not_lt_zero j)]
  · rw [shown_of_pos hi, level_append]
    split_ifs with hj
    · rw [level_cons_of_lt hj]
    · rw [level_cons_of_le (Nat.not_lt.mp hj)]

end Shown

section Inserting
variable [Inhabited Key] [Inhabited Value] {i : ℕ}

theorem Inserting.raised_eq (h : Inserting cmp ops key value height prev s₀ pre post)
    (hi : i < height) : raised s₀ height prev i = some ((level i pre).getLastD 0) := by
  obtain ⟨x, hfound, -⟩ := h.found
  obtain ⟨prev', hfind, hprev, -⟩ := h.splits.find h.represents fun _ => none
  obtain ⟨-, rfl⟩ := Prod.mk.inj (Except.ok.inj (hfind.symm.trans hfound))
  by_cases hlow : i < s₀.maxHeight
  · rw [raised, if_neg (by omega)]
    exact hprev i hlow
  · have hnil : level i pre = [] := level_eq_nil fun t ht =>
      (h.represents.height_le t (List.mem_append_left _ ht)).trans (Nat.not_lt.mp hlow)
    rw [hnil, raised, if_pos ⟨Nat.not_lt.mp hlow, hi⟩]
    rfl

theorem Inserting.spliced (h : Inserting cmp ops key value height prev s₀ pre post) :
    Spliced s₀ pre post key value height 0 (s₀.made key value height) := by
  refine ⟨.refl _, fun j hj => ?_⟩
  rw [if_neg (Nat.not_lt_zero j)]
  have hlinked := h.represents.linked j hj
  rw [level_append] at hlinked
  exact hlinked.mono fun _ _ _ hlink => hlink.withNode

variable [TransCmp cmp]

/-- What the writer needs to know of level `i`: the new node is not on it, and the node before its
place has a pointer there, as has the new one. -/
structure Place (s₀ s : SkipList Key Value) (pre post : List (Tower Key Value)) (i : ℕ) : Prop where
  nodup : (0 :: (level i pre ++ level i post)).Nodup
  new : s₀.nodes.length ∉ 0 :: (level i pre ++ level i post)
  last : s.Reaches i ((level i pre).getLastD 0)
  self : s.Reaches i s₀.nodes.length

theorem Inserting.place (h : Inserting cmp ops key value height prev s₀ pre post)
    (hi : i < height) (hsame : SameTowers (s₀.made key value height) s) :
    Place s₀ s pre post i := by
  have hmod : height % 2 ^ 8 = height := Nat.mod_eq_of_lt (h.le.trans_lt (by decide))
  have hnodup := h.represents.nodup i
  have hin : ∀ p ∈ 0 :: level i (pre ++ post), s₀.Reaches i p := fun p hp =>
    h.represents.reaches_level (hi.trans_le h.le) hp
  have hout : s₀.nodes.length ∉ 0 :: level i (pre ++ post) := by
    intro hmem
    obtain ⟨x, hx, -⟩ := hin _ hmem
    simp at hx
  rw [level_append] at hnodup hin hout
  refine ⟨hnodup, hout, hsame.reaches i _ (Reaches.withNode (hin _ ?_)), hsame.reaches i _ ?_⟩
  · exact List.mem_append_left _ (Linked.getLastD_mem 0 (level i pre))
  · exact ⟨newNode key value height, getElem?_withNode_self, hi.trans_eq hmod.symm⟩

/-- A pointer of the new node may be stored before anything points to the node on that level. -/
theorem Spliced.half (h : Inserting cmp ops key value height prev s₀ pre post) (hi : i < height)
    (ht : Spliced s₀ pre post key value height i t) (q : NodePtr) :
    Spliced s₀ pre post key value height i (t.withNext s₀.nodes.length i q) := by
  refine ⟨ht.same.trans (.withNext t _ i q), fun j hj => (ht.linked j hj).mono ?_⟩
  intro x hx r hlink
  refine link_withNext_of_ne ?_ hlink
  by_cases hji : j = i
  · subst hji
    rw [if_neg (lt_irrefl j)] at hx
    exact .inl fun heq => (h.place hi ht.same).new (heq ▸ hx)
  · exact .inr hji

theorem Spliced.round (h : Inserting cmp ops key value height prev s₀ pre post) (hi : i < height)
    (ht : Spliced s₀ pre post key value height i t) :
    ∃ q u, t.next (raised s₀ height prev i) i = .ok q ∧
      t.setNext (some s₀.nodes.length) i q = .ok (t.withNext s₀.nodes.length i q) ∧
      (t.withNext s₀.nodes.length i q).setNext (raised s₀ height prev i) i
        (some s₀.nodes.length) = .ok u ∧
      spliceAt (some s₀.nodes.length) (raised s₀ height prev) t i = .ok u ∧
      Spliced s₀ pre post key value height (i + 1) u := by
  have hprev := h.raised_eq hi
  have hplace := h.place hi ht.same
  have hlinked := ht.linked i (hi.trans_le h.le)
  rw [if_neg (lt_irrefl i)] at hlinked
  have hlink := hlinked.drop.head
  obtain ⟨u, hu, hsame, hround, hothers⟩ := spliceAt_linked (n := s₀.nodes.length) hprev hlinked
    hplace.nodup hplace.new hplace.last hplace.self
  have hlast : ((t.withNext s₀.nodes.length i (level i post).head?).setNext
      (some ((level i pre).getLastD 0)) i (some s₀.nodes.length)) = .ok u := by
    rw [← hu, spliceAt_eq hprev hlink hplace.last hplace.self]
    exact setNext_eq ((SameTowers.withNext t _ i _).reaches i _ hplace.last) _
  refine ⟨(level i post).head?, u, by rw [hprev, next_eq hlink], setNext_eq hplace.self _,
    by rw [hprev, hlast], hu, ht.same.trans hsame, fun j hj => ?_⟩
  by_cases hji : j = i
  · subst hji
    rwa [if_pos j.lt_succ_self]
  · have hiff : (j < i + 1) = (j < i) := propext (by omega)
    simp only [hiff]
    exact (ht.linked j hj).mono fun x _ => hothers j hji x

theorem Spliced.shows (h : Inserting cmp ops key value height prev s₀ pre post) (hi : i ≤ height)
    (hs : Spliced s₀ pre post key value height i s) :
    s.Shows cmp (s₀.shown pre post key value i) := by
  have hrepr := h.represents
  have hnew : s₀.nodes.length ≠ 0 := Nat.ne_zero_of_lt hrepr.length_lt
  have hlength : s.nodes.length = s₀.nodes.length + 1 := by
    rw [hs.same.length]
    simp [made, withNode]
  have hheight : s.maxHeight = if height > s₀.maxHeight then height else s₀.maxHeight :=
    hs.same.maxHeight
  have hmax : s₀.maxHeight ≤ s.maxHeight ∧ height ≤ s.maxHeight ∧ s.maxHeight ≤ kMaxHeight := by
    have hle := h.le
    have hle₀ := hrepr.maxHeight_le
    rw [hheight]
    split_ifs <;> omega
  have hold : ∀ t ∈ pre ++ post, (s.withHeight s₀.nodes.length i).Stores t := by
    intro t ht
    obtain ⟨next₀, hnext₀⟩ := hrepr.stores t ht
    have hne : s₀.nodes.length ≠ t.ptr := (List.getElem?_eq_some_iff.mp hnext₀).1.ne'
    obtain ⟨next, hnext⟩ := hs.same.stores t (Stores.withNode ⟨next₀, hnext₀⟩)
    exact ⟨next, by rw [getElem?_withHeight, hnext, Option.map_some, if_neg hne]⟩
  have hself : (s.withHeight s₀.nodes.length i).Stores ⟨s₀.nodes.length, i, key, value⟩ := by
    have hmade : (s₀.made key value height).Stores
        ⟨s₀.nodes.length, height % 2 ^ 8, key, value⟩ := ⟨_, getElem?_withNode_self⟩
    obtain ⟨next, hnext⟩ := hs.same.stores _ hmade
    exact ⟨next, by rw [getElem?_withHeight, hnext, Option.map_some, if_pos rfl]⟩
  have hmem : ∀ t ∈ s₀.shown pre post key value i, t ∈ pre ++ post ∨
      0 < i ∧ t = ⟨s₀.nodes.length, i, key, value⟩ := by
    intro t ht
    rcases Nat.eq_zero_or_pos i with rfl | hpos
    · exact .inl ht
    · rw [shown_of_pos hpos] at ht
      rcases List.mem_append.mp ht with ht | ht
      · exact .inl (List.mem_append_left _ ht)
      · rcases List.mem_cons.mp ht with rfl | ht
        · exact .inr ⟨hpos, rfl⟩
        · exact .inl (List.mem_append_right _ ht)
  refine ⟨s₀.nodes.length, i, fun t ht => ?_, fun j hj => ?_, fun t ht => ?_, fun t ht => ?_,
    fun t ht => ?_, ?_, hmax.2.2, ?_, ?_, fun j hj => ?_⟩
  · rcases hmem t ht with ht | ⟨-, rfl⟩
    · exact hold t ht
    · exact hself
  · obtain ⟨x, hx, hlt⟩ := hs.same.reaches j 0 (Reaches.withNode (hrepr.head j hj))
    exact ⟨x, by rw [getElem?_withHeight, hx, Option.map_some, if_neg hnew], hlt⟩
  · rcases hmem t ht with ht | ⟨-, rfl⟩
    · exact hrepr.ne_head t ht
    · exact hnew
  · rcases hmem t ht with ht | ⟨hpos, rfl⟩
    · exact hrepr.height_pos t ht
    · exact hpos
  · rcases hmem t ht with ht | ⟨-, rfl⟩
    · exact (hrepr.height_le t ht).trans hmax.1
    · exact hi.trans hmax.2.1
  · exact hrepr.maxHeight_pos.trans hmax.1
  · have hcount := hrepr.length_lt
    have hlen : (s.withHeight s₀.nodes.length i).nodes.length = s.nodes.length :=
      List.length_modify ..
    have hshown : (s₀.shown pre post key value i).length ≤ (pre ++ post).length + 1 := by
      unfold shown
      split_ifs
      · simp
      · simp only [List.length_append, List.length_cons, List.length_nil]
        omega
    omega
  · rcases Nat.eq_zero_or_pos i with rfl | hpos
    · exact hrepr.sorted
    · rw [shown_of_pos hpos]
      exact h.splits.sorted_insert ReflCmp.compare_self hrepr.sorted
  · rw [level_shown]
    exact (hs.linked j hj).mono fun x _ q => link_withHeight.mpr

theorem Inserting.sees_shown (h : Inserting cmp ops key value height prev s₀ pre post)
    (hi : 0 < i) (k : Key) : lookup cmp (s₀.shown pre post key value i) k =
      visible cmp (ops ++ [.insert key value height]) k := by
  have hnew : Splits cmp key pre (some ⟨s₀.nodes.length, i, key, value⟩) post := by
    refine ⟨h.splits.pre_lt, fun t ht => ?_, h.splits.post_gt⟩
    rw [← Option.some.inj ht]
    exact ReflCmp.compare_self
  rw [shown_of_pos hi, visible_concat]
  simp only [MapOp.effect]
  split_ifs with heq
  · exact (lookup_congr heq).symm.trans hnew.lookup_eq
  · exact (lookup_of_ne (hnew.found_eq _ rfl) heq).trans (h.sees k)

end Inserting

/-! The writer between its stores. -/

/-- The writer after the insertions, of which the last may be under way, with the towers that the
list links meanwhile. -/
inductive WriterInv [Inhabited Key] [Inhabited Value] (cmp : Key → Key → Ordering) :
    List (MapOp Key Value) → Writer Key Value → SkipList Key Value → List (Tower Key Value) → Prop
  | idle {ops : List (MapOp Key Value)} {s : SkipList Key Value} {ts : List (Tower Key Value)}
      (ran : run (step cmp) ops new = some s)
      (sees : ∀ k, lookup cmp ts k = visible cmp ops k) (represents : s.Represents cmp ts) :
      WriterInv cmp ops .idle s ts
  | raising {ops : List (MapOp Key Value)} {key : Key} {value : Value} {height : ℕ}
      {prev : ℕ → NodePtr} {s : SkipList Key Value} {pre post : List (Tower Key Value)}
      (h : Inserting cmp ops key value height prev s pre post) :
      WriterInv cmp (ops ++ [.insert key value height]) (.raising key value height prev) s
        (pre ++ post)
  | making {ops : List (MapOp Key Value)} {key : Key} {value : Value} {height : ℕ}
      {prev : ℕ → NodePtr} {s : SkipList Key Value} {pre post : List (Tower Key Value)}
      (h : Inserting cmp ops key value height prev s pre post) :
      WriterInv cmp (ops ++ [.insert key value height])
        (.making key value height (raised s height prev))
        { s with maxHeight := if height > s.maxHeight then height else s.maxHeight } (pre ++ post)
  | linking {ops : List (MapOp Key Value)} {key : Key} {value : Value} {height : ℕ}
      {prev : ℕ → NodePtr} {s₀ s : SkipList Key Value} {pre post : List (Tower Key Value)} {i : ℕ}
      (h : Inserting cmp ops key value height prev s₀ pre post) (le : i ≤ height)
      (rounds : (List.range i).foldlM (spliceAt (some s₀.nodes.length) (raised s₀ height prev))
        (s₀.made key value height) = .ok s)
      (spliced : Spliced s₀ pre post key value height i s) :
      WriterInv cmp (ops ++ [.insert key value height])
        (.linking (some s₀.nodes.length) height (raised s₀ height prev) i) s
        (s₀.shown pre post key value i)
  | publishing {ops : List (MapOp Key Value)} {key : Key} {value : Value} {height : ℕ}
      {prev : ℕ → NodePtr} {s₀ t : SkipList Key Value} {pre post : List (Tower Key Value)} {i : ℕ}
      {q : NodePtr}
      (h : Inserting cmp ops key value height prev s₀ pre post) (lt : i < height)
      (rounds : (List.range i).foldlM (spliceAt (some s₀.nodes.length) (raised s₀ height prev))
        (s₀.made key value height) = .ok t)
      (spliced : Spliced s₀ pre post key value height i t)
      (next : t.next (raised s₀ height prev i) i = .ok q) :
      WriterInv cmp (ops ++ [.insert key value height])
        (.publishing (some s₀.nodes.length) height (raised s₀ height prev) i)
        (t.withNext s₀.nodes.length i q) (s₀.shown pre post key value i)

section WriterInv
variable [Inhabited Key] [Inhabited Value] {w : Writer Key Value} {i : ℕ}

theorem WriterInv.ran (h : WriterInv cmp ops .idle s ts) : run (step cmp) ops new = some s := by
  cases h with
  | idle ran => exact ran

variable [TransCmp cmp]

theorem WriterInv.shows (h : WriterInv cmp ops w s ts) : s.Shows cmp ts := by
  cases h with
  | idle _ _ represents => exact represents.shows
  | raising h => exact h.represents.shows
  | making h =>
    have hrepr := h.represents
    have hle := h.le
    have hmax := hrepr.maxHeight_le
    refine Represents.shows ⟨hrepr.stores, hrepr.head, hrepr.ne_head, hrepr.height_pos, ?_, ?_, ?_,
      hrepr.length_lt, hrepr.sorted, hrepr.linked⟩
    · intro t ht
      refine (hrepr.height_le t ht).trans ?_
      simp only
      split_ifs <;> omega
    · have hpos := hrepr.maxHeight_pos
      simp only
      split_ifs <;> omega
    · simp only
      split_ifs <;> omega
  | linking h le _ spliced => exact spliced.shows h le
  | publishing h lt _ spliced => exact (spliced.half h lt _).shows h lt.le

/-- The last insertion is in the list or it is not. -/
theorem WriterInv.sees (h : WriterInv cmp ops w s ts) :
    (∀ k, lookup cmp ts k = visible cmp ops k) ∨
      w ≠ .idle ∧ ∃ ops' op, ops = ops' ++ [op] ∧ ∀ k, lookup cmp ts k = visible cmp ops' k := by
  cases h with
  | idle _ sees => exact .inl sees
  | raising h => exact .inr ⟨nofun, _, _, rfl, h.sees⟩
  | making h => exact .inr ⟨nofun, _, _, rfl, h.sees⟩
  | @linking _ _ _ _ _ _ _ _ _ i h =>
    rcases Nat.eq_zero_or_pos i with rfl | hpos
    · exact .inr ⟨nofun, _, _, rfl, h.sees⟩
    · exact .inl (h.sees_shown hpos)
  | @publishing _ _ _ _ _ _ _ _ _ i _ h =>
    rcases Nat.eq_zero_or_pos i with rfl | hpos
    · exact .inr ⟨nofun, _, _, rfl, h.sees⟩
    · exact .inl (h.sees_shown hpos)

theorem WriterInv.search (h : WriterInv cmp ops .idle s ts) (hpos : 0 < height)
    (hle : height ≤ kMaxHeight) (hsearch : Writer.search cmp key value height s = .ok w) :
    WriterInv cmp (ops ++ [.insert key value height]) w s ts := by
  cases h with
  | idle ran sees represents =>
    obtain ⟨pre, found, post, rfl, hsplits⟩ := exists_splits represents.sorted key
    obtain ⟨prev, hfind, -⟩ := hsplits.find represents fun _ => none
    have hequal := hsplits.equalNode represents
    rw [Writer.search, hfind, Except.ok_bind] at hsearch
    simp only at hsearch
    rw [hequal, Except.ok_bind] at hsearch
    cases found with
    | some t => cases hsearch
    | none =>
      cases hsearch
      exact .raising ⟨ran, sees, represents, hsplits, hpos, hle, _, hfind, hequal⟩

/-- Each store goes through and leaves the readers the towers they had. -/
theorem WriterInv.store (h : WriterInv cmp ops w s ts) :
    ∃ w' s' ts', w.store s = .ok (w', s') ∧ WriterInv cmp ops w' s' ts' ∧ Grows ts ts' := by
  cases h with
  | idle ran sees represents => exact ⟨_, _, _, rfl, .idle ran sees represents, .refl _⟩
  | raising h => exact ⟨_, _, _, rfl, .making h, .refl _⟩
  | making h => exact ⟨_, _, _, rfl, .linking (i := 0) h (Nat.zero_le _) rfl h.spliced, .refl _⟩
  | @linking ops key value height prev s₀ s pre post i h le rounds spliced =>
    by_cases hi : i < height
    · obtain ⟨q, -, hnext, hset, -⟩ := spliced.round h hi
      refine ⟨_, _, _, ?_, .publishing h hi rounds spliced hnext, .refl _⟩
      rw [Writer.store, if_pos hi, hnext, Except.ok_bind, hset]
      rfl
    · -- the loop is done, and what it has made is what `Insert` makes
      obtain rfl : i = height := by omega
      obtain ⟨s', hs', hrepr, -⟩ := h.represents.insertWith h.splits value h.pos h.le
      have hins : insertWith cmp key value i s₀ = .ok s := by
        obtain ⟨x, hfound, hequal⟩ := h.found
        rw [insertWith, hfound, Except.ok_bind]
        simp only
        rw [hequal]
        exact rounds
      obtain rfl : s = s' := Except.ok.inj (hins.symm.trans hs')
      refine ⟨_, _, _, by rw [Writer.store, if_neg hi]; rfl, .idle ?_ ?_ hrepr, ?_⟩
      · exact Run.run_concat.mpr ⟨s₀, h.ran, by rw [SkipList.step, hins]; rfl⟩
      · rw [← shown_of_pos h.pos]
        exact h.sees_shown h.pos
      · rw [shown_of_pos h.pos]
        exact .refl _
  | @publishing ops key value height prev s₀ t pre post i q h lt rounds spliced next =>
    obtain ⟨q', u, hnext, hset, hlast, hround, hspliced⟩ := spliced.round h lt
    obtain rfl : q = q' := Except.ok.inj (next.symm.trans hnext)
    refine ⟨_, u, _, by rw [Writer.store, hlast]; rfl, .linking h lt ?_ hspliced, grows_shown i⟩
    rw [List.range_succ, List.foldlM_append, rounds, Except.ok_bind, List.foldlM_cons, hround]
    rfl

end WriterInv
end SkipList
end Ibdb.Base
