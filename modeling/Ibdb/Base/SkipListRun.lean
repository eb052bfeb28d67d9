import Ibdb.Base.SkipListMap
import Ibdb.Lib.Run

/-! A skip list along any run of insertions and removals. -/
namespace Ibdb.Base
open Std

namespace SkipList
variable {Key Value : Type} {cmp : Key → Key → Ordering} {s : SkipList Key Value} {key : Key}
variable {pre post : List (Tower Key Value)} {found : Option (Tower Key Value)}

/-- The state of `Insert` when the new node has been made and nothing points to it. -/
def withNode (s : SkipList Key Value) (node : Node Key Value) (maxHeight : ℕ) :
    SkipList Key Value :=
  { s with nodes := s.nodes ++ [node], maxHeight := maxHeight }

section NewNode
variable {node x : Node Key Value} {maxHeight p : ℕ}

theorem getElem?_withNode (h : s.nodes[p]? = some x) :
    (s.withNode node maxHeight).nodes[p]? = some x := by
  rw [withNode, List.getElem?_append_left (List.getElem?_eq_some_iff.mp h).1]
  exact h

theorem getElem?_withNode_self :
    (s.withNode node maxHeight).nodes[s.nodes.length]? = some node := by
  simp [withNode]

theorem Stores.withNode {t : Tower Key Value} (h : s.Stores t) :
    (s.withNode node maxHeight).Stores t := by
  obtain ⟨next, hnext⟩ := h
  exact ⟨next, getElem?_withNode hnext⟩

theorem Reaches.withNode {i : ℕ} (h : s.Reaches i p) :
    (s.withNode node maxHeight).Reaches i p := by
  obtain ⟨x, hx, hi⟩ := h
  exact ⟨x, getElem?_withNode hx, hi⟩

theorem Link.withNode {i : ℕ} {q : NodePtr} (h : s.Link i p q) :
    (s.withNode node maxHeight).Link i p q := by
  obtain ⟨x, hx, hq⟩ := h
  exact ⟨x, getElem?_withNode hx, hq⟩

end NewNode

theorem Represents.withRnd {ts : List (Tower Key Value)} (h : s.Represents cmp ts) (rnd : Random) :
    Represents cmp { s with rnd := rnd } ts :=
  ⟨h.stores, h.head, h.ne_head, h.height_pos, h.height_le, h.maxHeight_pos, h.maxHeight_le,
    h.length_lt, h.sorted, h.linked⟩

/-- Keys stay in order when a tower with the key of the split stands in its place. -/
theorem Splits.sorted_insert [TransCmp cmp] (hs : Splits cmp key pre found post)
    {t : Tower Key Value} (ht : cmp t.key key = .eq)
    (h : (pre ++ post).Pairwise fun t u => cmp t.key u.key = .lt) :
    (pre ++ t :: post).Pairwise fun t u => cmp t.key u.key = .lt := by
  obtain ⟨hpre, hpost, hcross⟩ := List.pairwise_append.mp h
  have hlt : ∀ u ∈ pre, cmp u.key t.key = .lt := fun u hu =>
    TransCmp.lt_of_lt_of_eq (hs.pre_lt u hu) (OrientedCmp.eq_symm ht)
  have hgt : ∀ u ∈ post, cmp t.key u.key = .lt := fun u hu =>
    TransCmp.lt_of_eq_of_lt ht (OrientedCmp.gt_iff_lt.mp (hs.post_gt u hu))
  refine List.pairwise_append.mpr ⟨hpre, List.pairwise_cons.mpr ⟨hgt, hpost⟩, fun u hu v hv => ?_⟩
  rcases List.mem_cons.mp hv with rfl | hv
  · exact hlt u hu
  · exact hcross u hu v hv

theorem forall_mem_insert {P : Tower Key Value → Prop} {t : Tower Key Value} (ht : P t)
    (h : ∀ u ∈ pre ++ post, P u) : ∀ u ∈ pre ++ t :: post, P u := by
  intro u hu
  rcases List.mem_append.mp hu with hu | hu
  · exact h u (List.mem_append_left post hu)
  · rcases List.mem_cons.mp hu with rfl | hu
    · exact ht
    · exact h u (List.mem_append_right pre hu)

/-- `Insert` of a key that is not there, with any height that a tower can have. -/
theorem Represents.insertWith [TransCmp cmp] (h : s.Represents cmp (pre ++ post))
    (hs : Splits cmp key pre none post) (value : Value) {height : ℕ} (hpos : 0 < height)
    (hle : height ≤ kMaxHeight) :
    ∃ s', insertWith cmp key value height s = .ok s' ∧
      s'.Represents cmp (pre ++ ⟨s.nodes.length, height, key, value⟩ :: post) ∧
      s'.nodes.length = s.nodes.length + 1 ∧ s'.maxHeight = max s.maxHeight height := by
  obtain ⟨prev, hfind, hprev, -⟩ := hs.find h fun _ => none
  have hequal := hs.equalNode h
  have hmod : height % 2 ^ 8 = height := Nat.mod_eq_of_lt (hle.trans_lt (by decide))
  have hmax := h.maxHeight_le
  let maxHeight := if height > s.maxHeight then height else s.maxHeight
  let node : Node Key Value := newNode key value height
  let prev' := fun i => if s.maxHeight ≤ i ∧ i < height then SkipList.head else prev i
  have hnew : (s.withNode node maxHeight).nodes[s.nodes.length]? = some node :=
    getElem?_withNode_self
  have hlast : ∀ i < height, prev' i = some ((level i pre).getLastD 0) := by
    intro i hi
    by_cases hlow : i < s.maxHeight
    · rw [← hprev i hlow]
      exact if_neg (by omega)
    · have hnil : level i pre = [] := level_eq_nil fun t ht =>
        (h.height_le t (List.mem_append_left post ht)).trans (Nat.not_lt.mp hlow)
      rw [hnil]
      exact if_pos (by omega)
  have hround : ∀ i < height, ∀ t, SameTowers (s.withNode node maxHeight) t →
      Linked (t.Link i) 0 (level i pre ++ level i post) →
      ∃ u, spliceAt (some s.nodes.length) prev' t i = .ok u ∧ SameTowers t u ∧
        Linked (u.Link i) 0 (level i pre ++ s.nodes.length :: level i post) ∧
        ∀ j ≠ i, ∀ p q, t.Link j p q → u.Link j p q := by
    intro i hi t hsame hlinked
    have hnodup := h.nodup i
    have hin : ∀ p ∈ 0 :: level i (pre ++ post), s.Reaches i p := fun p hp =>
      h.reaches_level (hi.trans_le hle) hp
    have hout : s.nodes.length ∉ 0 :: level i (pre ++ post) := by
      intro hmem
      obtain ⟨x, hx, -⟩ := hin _ hmem
      simp at hx
    rw [level_append] at hnodup hin hout
    refine spliceAt_linked (hlast i hi) hlinked hnodup hout (hsame.reaches i _ ?_) ?_
    · exact (hin _ (List.mem_append_left _ (Linked.getLastD_mem 0 (level i pre)))).withNode
    · exact hsame.reaches i _ ⟨node, hnew, hi.trans_eq hmod.symm⟩
  obtain ⟨s', hloop, hsame, hlinked⟩ := relink (s := s.withNode node maxHeight)
    (fun i hi => (level_append i pre post ▸ h.linked i hi).mono fun _ _ _ hlink => hlink.withNode)
    hle hround
  have hlength : s'.nodes.length = s.nodes.length + 1 := by
    rw [hsame.length]
    simp [withNode]
  have hheight : s'.maxHeight = maxHeight := hsame.maxHeight
  have hle' : s.maxHeight ≤ maxHeight ∧ height ≤ maxHeight ∧ maxHeight ≤ kMaxHeight := by
    simp only [maxHeight]
    split_ifs <;> omega
  refine ⟨s', ?_, ?_, hlength, ?_⟩
  · rw [SkipList.insertWith, hfind, Except.ok_bind]
    simp only
    rw [hequal]
    exact hloop
  · have hnewHead : s.nodes.length ≠ 0 := Nat.ne_zero_of_lt h.length_lt
    have hcount := h.length_lt
    have hmaxpos := h.maxHeight_pos
    refine ⟨forall_mem_insert ?_ ?_, ?_, forall_mem_insert hnewHead h.ne_head,
      forall_mem_insert hpos h.height_pos, forall_mem_insert ?_ ?_, ?_, ?_, ?_,
      hs.sorted_insert ReflCmp.compare_self h.sorted, ?_⟩
    · refine hsame.stores _ ⟨fun _ => none, ?_⟩
      rw [hnew, ← hmod]
      simp [node, newNode]
    · exact fun t ht => hsame.stores t (Stores.withNode (h.stores t ht))
    · exact fun i hi => hsame.reaches i 0 (h.head i hi).withNode
    · change height ≤ s'.maxHeight
      omega
    · exact fun t ht => (h.height_le t ht).trans (hheight ▸ hle'.1)
    · omega
    · omega
    · simp only [List.length_append, List.length_cons] at hcount ⊢
      omega
    · intro i hi
      have hlevel := hlinked i hi
      rw [level_append]
      split_ifs at hlevel with hlt
      · rwa [level_cons_of_lt hlt]
      · rwa [level_cons_of_le (Nat.not_lt.mp hlt)]
  · rw [hheight]
    simp only [maxHeight]
    split_ifs <;> omega

theorem Represents.remove_absent [TransCmp cmp] (h : s.Represents cmp (pre ++ post))
    (hs : Splits cmp key pre none post) : s.remove cmp key = .ok (false, s) := by
  have hcontains := hs.contains h
  rw [SkipList.remove, hcontains]
  rfl

theorem Represents.remove [TransCmp cmp] {t : Tower Key Value}
    (h : s.Represents cmp (pre ++ t :: post)) (hs : Splits cmp key pre (some t) post) :
    ∃ s', s.remove cmp key = .ok (true, s') ∧ s'.Represents cmp (pre ++ post) ∧
      s'.nodes.length = s.nodes.length ∧ s'.maxHeight = s.maxHeight := by
  obtain ⟨prev, hfind, hprev, -⟩ := hs.find h
    fun i => if i < kMaxHeight then SkipList.head else none
  have hcontains := hs.contains h
  have hsub : ∀ u ∈ pre ++ post, u ∈ pre ++ t :: post :=
    fun u hu => ((List.sublist_cons_self t post).append_left pre).subset hu
  have htmem : t ∈ pre ++ t :: post := by simp
  have hstores := h.stores t htmem
  have hle : t.height ≤ kMaxHeight := (h.height_le t htmem).trans h.maxHeight_le
  have hround : ∀ i < t.height, ∀ u, SameTowers s u →
      Linked (u.Link i) 0 (level i pre ++ t.ptr :: level i post) →
      ∃ v, unspliceAt (some t.ptr) prev u i = .ok v ∧ SameTowers u v ∧
        Linked (v.Link i) 0 (level i pre ++ level i post) ∧
        ∀ j ≠ i, ∀ p q, u.Link j p q → v.Link j p q := by
    intro i hi u hsame hlinked
    have hnodup := h.nodup i
    rw [level_append, level_cons_of_lt hi] at hnodup
    refine unspliceAt_linked (hprev i (hi.trans_le (h.height_le t htmem))) hlinked hnodup
      (hsame.reaches i _ (h.reaches_level (hi.trans_le hle) ?_))
      (hsame.reaches i _ (Stores.reaches hstores hi))
    rw [level_append]
    exact List.mem_append_left _ (Linked.getLastD_mem 0 (level i pre))
  -- above its own height the tower is on no level, and nothing is taken out there
  let before := fun i => level i pre ++ if i < t.height then t.ptr :: level i post else level i post
  have hbefore : ∀ i < kMaxHeight, Linked (s.Link i) 0 (before i) := by
    intro i hi
    have hlevel := h.linked i hi
    rw [level_append] at hlevel
    unfold before
    split_ifs with hlt
    · rwa [level_cons_of_lt hlt] at hlevel
    · rwa [level_cons_of_le (Nat.not_lt.mp hlt)] at hlevel
  obtain ⟨s', hloop, hsame, hlinked⟩ := relink hbefore hle fun i hi u hsame hlink =>
    hround i hi u hsame (by simpa only [before, if_pos hi] using hlink)
  refine ⟨s', ?_, ?_, hsame.length, hsame.maxHeight⟩
  · obtain ⟨next, hnext⟩ := hstores
    rw [SkipList.remove, hcontains, Except.ok_bind]
    simp only [Option.isSome_some, Bool.not_true, Bool.false_eq_true, if_false]
    rw [hfind, Except.ok_bind]
    change (s.node (some t.ptr) >>= _) = _
    rw [node_eq hnext, Except.ok_bind]
    change ((List.range t.height).foldlM (unspliceAt (some t.ptr) prev) s >>=
      fun s => pure (true, s)) = _
    rw [hloop]
    rfl
  · have hcount := h.length_lt
    refine ⟨fun u hu => hsame.stores u (h.stores u (hsub u hu)),
      fun i hi => hsame.reaches i 0 (h.head i hi), fun u hu => h.ne_head u (hsub u hu),
      fun u hu => h.height_pos u (hsub u hu),
      fun u hu => hsame.maxHeight ▸ h.height_le u (hsub u hu),
      hsame.maxHeight ▸ h.maxHeight_pos, hsame.maxHeight ▸ h.maxHeight_le, ?_,
      h.sorted.sublist ((List.sublist_cons_self t post).append_left pre), fun i hi => ?_⟩
    · rw [hsame.length]
      simp only [List.length_append, List.length_cons] at hcount ⊢
      omega
    · have hlevel := hlinked i hi
      rw [level_append]
      simp only [before] at hlevel
      split_ifs at hlevel with hlt <;> exact hlevel

theorem lookup_congr [TransCmp cmp] {ts : List (Tower Key Value)} {key' : Key}
    (h : cmp key key' = .eq) : lookup cmp ts key = lookup cmp ts key' := by
  have hcongr : ∀ t : Tower Key Value, cmp t.key key = cmp t.key key' := fun t =>
    TransCmp.congr_right h
  simp only [lookup, hcongr]

/-- The skip list holds exactly the map. -/
def Holds (cmp : Key → Key → Ordering) (s : SkipList Key Value) (m : Key → Option Value) : Prop :=
  ∃ ts, s.Represents cmp ts ∧ ∀ key, m key = lookup cmp ts key

def findValue (cmp : Key → Key → Ordering) (s : SkipList Key Value) (key : Key) :
    Except Stop (Option Value) := do
  let x ← s.findEqual cmp key
  if x = none then return none else return some (← s.node x).value

section Holds
variable {m : Key → Option Value}

theorem Holds.congr {m' : Key → Option Value} (h : s.Holds cmp m) (heq : ∀ key, m' key = m key) :
    s.Holds cmp m' :=
  (funext heq : m' = m) ▸ h

theorem Holds.split [TransCmp cmp] (h : s.Holds cmp m) (key : Key) :
    ∃ pre found post, s.Represents cmp (pre ++ (found.toList ++ post)) ∧
      Splits cmp key pre found post ∧ m key = found.map (·.value) ∧
      ∀ key', m key' = lookup cmp (pre ++ (found.toList ++ post)) key' := by
  obtain ⟨ts, hrepr, hm⟩ := h
  obtain ⟨pre, found, post, rfl, hs⟩ := exists_splits hrepr.sorted key
  exact ⟨pre, found, post, hrepr, hs, (hm key).trans hs.lookup_eq, hm⟩

theorem Holds.contains [TransCmp cmp] (h : s.Holds cmp m) (key : Key) :
    s.contains cmp key = .ok (m key).isSome := by
  obtain ⟨pre, found, post, hrepr, hs, hm, -⟩ := h.split key
  rw [hs.contains hrepr, hm, Option.isSome_map]

theorem Holds.findValue [TransCmp cmp] (h : s.Holds cmp m) (key : Key) :
    s.findValue cmp key = .ok (m key) := by
  obtain ⟨pre, found, post, hrepr, hs, hm, -⟩ := h.split key
  rw [SkipList.findValue, hs.findEqual hrepr, Except.ok_bind, hm]
  cases found with
  | none => rfl
  | some t =>
    obtain ⟨next, hnext⟩ := hrepr.stores t (by simp)
    rw [Option.map_some, if_neg nofun, node_eq hnext]
    rfl

theorem Holds.getValue [TransCmp cmp] (h : s.Holds cmp m) {key : Key} {value : Value}
    (hvalue : m key = some value) : s.getValue cmp key = .ok value := by
  obtain ⟨pre, found, post, hrepr, hs, hm, -⟩ := h.split key
  rw [hvalue] at hm
  obtain ⟨t, rfl, rfl⟩ := Option.map_eq_some_iff.mp hm.symm
  exact hs.getValue hrepr

theorem Holds.insertWith [TransCmp cmp] (h : s.Holds cmp m) {key : Key} (habsent : m key = none)
    (value : Value) {height : ℕ} (hpos : 0 < height) (hle : height ≤ kMaxHeight) :
    ∃ s', insertWith cmp key value height s = .ok s' ∧
      s'.Holds cmp fun key' => if cmp key key' = .eq then some value else m key' := by
  obtain ⟨pre, found, post, hrepr, hs, hm, hlookup⟩ := h.split key
  rw [habsent] at hm
  obtain rfl := Option.map_eq_none_iff.mp hm.symm
  obtain ⟨s', hs', hrepr', -⟩ := Represents.insertWith hrepr hs value hpos hle
  refine ⟨s', hs', _, hrepr', fun key' => ?_⟩
  have hnew : Splits cmp key pre (some ⟨s.nodes.length, height, key, value⟩) post := by
    refine ⟨hs.pre_lt, fun t ht => ?_, hs.post_gt⟩
    rw [← Option.some.inj ht]
    exact ReflCmp.compare_self
  simp only
  split_ifs with heq
  · exact hnew.lookup_eq.symm.trans (lookup_congr heq)
  · exact (hlookup key').trans (lookup_of_ne (hnew.found_eq _ rfl) heq).symm

theorem Holds.remove [TransCmp cmp] (h : s.Holds cmp m) (key : Key) :
    ∃ s', s.remove cmp key = .ok ((m key).isSome, s') ∧
      s'.Holds cmp fun key' => if cmp key key' = .eq then none else m key' := by
  obtain ⟨pre, found, post, hrepr, hs, hm, hlookup⟩ := h.split key
  have hgone : Splits cmp key pre none post := ⟨hs.pre_lt, nofun, hs.post_gt⟩
  have hnone : lookup cmp (pre ++ post) key = none := hgone.lookup_eq
  cases found with
  | none =>
    refine ⟨s, by rw [hm]; exact hrepr.remove_absent hs, _, hrepr, fun key' => ?_⟩
    simp only
    split_ifs with heq
    · exact hnone.symm.trans (lookup_congr heq)
    · exact hlookup key'
  | some t =>
    obtain ⟨s', hs', hrepr', -⟩ := hrepr.remove hs
    refine ⟨s', by rw [hm]; exact hs', _, hrepr', fun key' => ?_⟩
    simp only
    split_ifs with heq
    · exact hnone.symm.trans (lookup_congr heq)
    · exact (hlookup key').trans (lookup_of_ne (hs.found_eq t rfl) heq)

end Holds

/-! Towers of random height. -/

theorem growHeight_bounds (n height : ℕ) (rnd : Random) :
    height ≤ (growHeight n height rnd).1 ∧ (growHeight n height rnd).1 ≤ height + n := by
  induction n generalizing height rnd with
  | zero => exact ⟨le_rfl, le_rfl⟩
  | succ n ih =>
    rw [growHeight]
    simp only
    split_ifs
    · have hnext := ih (height + 1) rnd.next.2
      omega
    · exact ⟨le_rfl, Nat.le_add_right height (n + 1)⟩

/-- The two assertions at the end of `RandomHeight`. -/
theorem randomHeight_bounds (s : SkipList Key Value) :
    0 < s.randomHeight.1 ∧ s.randomHeight.1 ≤ kMaxHeight := by
  have hbounds := growHeight_bounds (kMaxHeight - 1) 1 s.rnd
  have hmax : kMaxHeight = 12 := rfl
  unfold randomHeight
  omega

theorem Holds.insert [TransCmp cmp] {m : Key → Option Value} (h : s.Holds cmp m) {key : Key}
    (habsent : m key = none) (value : Value) :
    ∃ s', s.insert cmp key value = .ok s' ∧
      s'.Holds cmp fun key' => if cmp key key' = .eq then some value else m key' := by
  obtain ⟨ts, hrepr, hm⟩ := h
  have hnext : Holds cmp { s with rnd := s.randomHeight.2 } m := ⟨ts, hrepr.withRnd _, hm⟩
  exact hnext.insertWith habsent value s.randomHeight_bounds.1 s.randomHeight_bounds.2

theorem Represents.new [Inhabited Key] [Inhabited Value] (cmp : Key → Key → Ordering) :
    (new : SkipList Key Value).Represents cmp [] := by
  have hnode : ∃ node : Node Key Value, (SkipList.new : SkipList Key Value).nodes[0]? = some node ∧
      node.height = kMaxHeight ∧ ∀ i < kMaxHeight, node.next i = some none :=
    ⟨_, rfl, rfl, fun i hi => if_pos hi⟩
  obtain ⟨node, hnode, hheight, hnext⟩ := hnode
  exact ⟨nofun, fun i hi => ⟨node, hnode, hheight.symm ▸ hi⟩, nofun, nofun, nofun, le_rfl,
    show 1 ≤ 12 by decide, show 0 < 2 by decide, .nil, fun i hi => ⟨node, hnode, hnext i hi⟩⟩

theorem Holds.new [Inhabited Key] [Inhabited Value] (cmp : Key → Key → Ordering) :
    (new : SkipList Key Value).Holds cmp fun _ => none :=
  ⟨[], .new cmp, fun _ => rfl⟩

/-! Runs. -/

inductive MapOp (Key Value : Type)
  | insert (key : Key) (value : Value) (height : ℕ)
  | remove (key : Key)

/-- An operation with the height that `RandomHeight` gives to the new tower. -/
def step (cmp : Key → Key → Ordering) : MapOp Key Value → SkipList Key Value →
    Option (SkipList Key Value)
  | .insert key value height, s => (insertWith cmp key value height s).toOption
  | .remove key, s => (remove cmp key s).toOption.map (·.2)

def MapOp.effect (cmp : Key → Key → Ordering) :
    MapOp Key Value → (Key → Option Value) → Key → Option Value
  | .insert key value _, m, key' => if cmp key key' = .eq then some value else m key'
  | .remove key, m, key' => if cmp key key' = .eq then none else m key'

/-- The value last inserted under the key, unless the key was removed since. -/
def visible (cmp : Key → Key → Ordering) (ops : List (MapOp Key Value)) : Key → Option Value :=
  ops.foldl (fun m op => op.effect cmp m) fun _ => none

/-- Only keys that are not there are inserted, and the towers have from 1 to 12 levels. -/
def Admissible (cmp : Key → Key → Ordering) (ops : List (MapOp Key Value)) : Prop :=
  ∀ pre key value height post, ops = pre ++ .insert key value height :: post →
    visible cmp pre key = none ∧ 0 < height ∧ height ≤ kMaxHeight

theorem visible_concat (ops : List (MapOp Key Value)) (op : MapOp Key Value) :
    visible cmp (ops ++ [op]) = op.effect cmp (visible cmp ops) := by
  rw [visible, List.foldl_append]
  rfl

theorem Holds.step [TransCmp cmp] {m : Key → Option Value} (h : s.Holds cmp m)
    {op : MapOp Key Value}
    (hop : ∀ key value height, op = .insert key value height →
      m key = none ∧ 0 < height ∧ height ≤ kMaxHeight) :
    ∃ s', step cmp op s = some s' ∧ s'.Holds cmp (op.effect cmp m) := by
  cases op with
  | insert key value height =>
    obtain ⟨habsent, hpos, hle⟩ := hop key value height rfl
    obtain ⟨s', hs', hholds⟩ := h.insertWith habsent value hpos hle
    exact ⟨s', by rw [SkipList.step, hs']; rfl, hholds⟩
  | remove key =>
    obtain ⟨s', hs', hholds⟩ := h.remove key
    exact ⟨s', by rw [SkipList.step, hs']; rfl, hholds⟩

theorem run_holds [TransCmp cmp] [Inhabited Key] [Inhabited Value]
    {ops : List (MapOp Key Value)} (hops : Admissible cmp ops) :
    ∃ s, run (step cmp) ops new = some s ∧ Holds cmp s (visible cmp ops) := by
  refine Run.exists_run (P := fun ops s => Holds cmp s (visible cmp ops)) (.new cmp) ?_
  intro pre op post s heq hs
  rw [visible_concat]
  refine hs.step fun key value height hop => ?_
  subst hop
  exact hops pre key value height post heq

/-- After any run of a skip list its loops come to their end, and it answers as the map does that
the insertions and removals make. -/
theorem skipList_isMap [TransCmp cmp] [Inhabited Key] [Inhabited Value]
    {ops : List (MapOp Key Value)} (hops : Admissible cmp ops) :
    ∃ s, run (step cmp) ops new = some s ∧
      (∀ key, s.findValue cmp key = .ok (visible cmp ops key)) ∧
      (∀ key, s.contains cmp key = .ok (visible cmp ops key).isSome) ∧
      ∀ key, ∃ s', s.remove cmp key = .ok ((visible cmp ops key).isSome, s') ∧
        (∀ key', s'.findValue cmp key' =
          .ok (if cmp key key' = .eq then none else visible cmp ops key')) ∧
        ∀ value height, 0 < height → height ≤ kMaxHeight →
          ∃ s'', s'.insertWith cmp key value height = .ok s'' ∧
            ∀ key', s''.findValue cmp key' =
              .ok (if cmp key key' = .eq then some value else visible cmp ops key') := by
  obtain ⟨s, hrun, hs⟩ := run_holds hops
  refine ⟨s, hrun, hs.findValue, hs.contains, fun key => ?_⟩
  obtain ⟨s', hremove, hs'⟩ := hs.remove key
  refine ⟨s', hremove, hs'.findValue, fun value height hpos hle => ?_⟩
  obtain ⟨s'', hinsert, hs''⟩ := hs'.insertWith (if_pos ReflCmp.compare_self) value hpos hle
  refine ⟨s'', hinsert, fun key' => ?_⟩
  rw [hs''.findValue key']
  split_ifs <;> rfl

theorem admissible_three :
    @Admissible ℕ ℕ compare [.insert 5 50 12, .insert 3 30 1, .remove 5] := by
  intro pre key value height post heq
  rcases pre with _ | ⟨_, _ | ⟨_, _ | ⟨_, pre⟩⟩⟩
  · cases heq
    decide
  · cases heq
    decide
  · cases heq
  · simp at heq

theorem skipList_isMap_three :
    ∃ s : SkipList ℕ ℕ,
      run (step compare) [.insert 5 50 12, .insert 3 30 1, .remove 5] new = some s ∧
      ∀ key, s.findValue compare key =
        .ok (visible compare [.insert 5 50 12, .insert 3 30 1, .remove 5] key) := by
  obtain ⟨s, hrun, hfind, -⟩ := skipList_isMap admissible_three
  exact ⟨s, hrun, hfind⟩

end SkipList
end Ibdb.Base
