import Ibdb.Base.SkipListRun

/-! The chains that a run of insertions and removals leaves on each level of a skip list. -/
namespace Ibdb.Base
open Std

namespace SkipList
variable {Key Value : Type} {cmp : Key → Key → Ordering} {s : SkipList Key Value}

/-- The towers that were inserted, those still in the list and those taken out of it. -/
structure History (Key Value : Type) where
  live : List (Tower Key Value)
  removed : List (Tower Key Value)

/-- A new node takes the place after `head_`, `tail_` and the nodes made before it. -/
def MapOp.record (cmp : Key → Key → Ordering) :
    MapOp Key Value → History Key Value → History Key Value
  | .insert key value height, h =>
    { h with live := ⟨2 + h.removed.length + h.live.length, height, key, value⟩ :: h.live }
  | .remove key, h =>
    { live := h.live.filter fun t => cmp t.key key ≠ .eq
      removed := h.live.filter (fun t => cmp t.key key = .eq) ++ h.removed }

def history (cmp : Key → Key → Ordering) (ops : List (MapOp Key Value)) : History Key Value :=
  ops.foldl (fun h op => op.record cmp h) ⟨[], []⟩

theorem history_concat (ops : List (MapOp Key Value)) (op : MapOp Key Value) :
    history cmp (ops ++ [op]) = op.record cmp (history cmp ops) := by
  rw [history, List.foldl_append]
  rfl

/-- A key without a value is the key of no live tower. -/
theorem visible_eq_none [TransCmp cmp] {ops : List (MapOp Key Value)} {key : Key}
    (h : visible cmp ops key = none) : ∀ t ∈ (history cmp ops).live, cmp t.key key ≠ .eq := by
  induction ops using List.reverseRecOn generalizing key with
  | nil => exact nofun
  | append_singleton ops op ih =>
    rw [visible_concat] at h
    rw [history_concat]
    cases op with
    | insert key' value height =>
      simp only [MapOp.effect] at h
      split_ifs at h with hne
      intro t ht
      rcases List.mem_cons.mp ht with rfl | ht
      · exact hne
      · exact ih h t ht
    | remove key' =>
      simp only [MapOp.effect] at h
      intro t ht heq
      obtain ⟨ht, hkept⟩ := List.mem_filter.mp ht
      split_ifs at h with hsame
      · exact of_decide_eq_true hkept (TransCmp.eq_trans heq (OrientedCmp.eq_symm hsame))
      · exact ih h t ht heq

/-- The list links the live towers, and no place was given out twice. -/
structure Tracks (cmp : Key → Key → Ordering) (s : SkipList Key Value) (h : History Key Value)
    (ts : List (Tower Key Value)) : Prop where
  represents : s.Represents cmp ts
  perm : ts.Perm h.live
  length : s.nodes.length = 2 + h.removed.length + h.live.length
  ptr_lt : ∀ t ∈ h.live ++ h.removed, t.ptr < s.nodes.length
  nodup : ((h.live ++ h.removed).map (·.ptr)).Nodup
  maxHeight : s.maxHeight = 1 ↔ ∀ t ∈ h.live ++ h.removed, t.height = 1

section Tracks
variable {h : History Key Value} {ts : List (Tower Key Value)} {key : Key}

theorem Tracks.new [Inhabited Key] [Inhabited Value] (cmp : Key → Key → Ordering) :
    (new : SkipList Key Value).Tracks cmp (history cmp []) [] :=
  ⟨.new cmp, .nil, rfl, nofun, .nil, ⟨fun _ => nofun, fun _ => rfl⟩⟩

/-- A live tower is at its place in the order of the keys. -/
theorem Tracks.split [TransCmp cmp] (hs : s.Tracks cmp h ts) (key : Key) :
    ∃ pre found post, ts = pre ++ (found.toList ++ post) ∧ Splits cmp key pre found post :=
  exists_splits hs.represents.sorted key

theorem Tracks.insert [TransCmp cmp] (hs : s.Tracks cmp h ts)
    (habsent : ∀ t ∈ h.live, cmp t.key key ≠ .eq) (value : Value) {height : ℕ}
    (hpos : 0 < height) (hle : height ≤ kMaxHeight) :
    ∃ s' ts', insertWith cmp key value height s = .ok s' ∧
      s'.Tracks cmp (MapOp.record cmp (.insert key value height) h) ts' := by
  obtain ⟨pre, found, post, rfl, hsplits⟩ := hs.split key
  obtain rfl : found = none := by
    cases found with
    | none => rfl
    | some t => exact absurd (hsplits.found_eq t rfl) (habsent t (hs.perm.subset (by simp)))
  obtain ⟨s', hs', hrepr, hlength, hmax⟩ := hs.represents.insertWith hsplits value hpos hle
  have hpos' := hs.represents.maxHeight_pos
  refine ⟨s', _, hs', hrepr, ?_, ?_, ?_, ?_, ?_⟩
  · rw [hs.length]
    exact List.perm_middle.trans (hs.perm.cons _)
  · rw [hlength, hs.length]
    rfl
  · intro t ht
    rw [hlength]
    rcases List.mem_cons.mp ht with rfl | ht
    · exact hs.length.symm.le.trans_lt (Nat.lt_succ_self _)
    · exact (hs.ptr_lt t ht).trans (Nat.lt_succ_self _)
  · refine List.nodup_cons.mpr ⟨fun hmem => ?_, hs.nodup⟩
    obtain ⟨t, ht, hptr⟩ := List.mem_map.mp hmem
    exact (hs.ptr_lt t ht).ne (hptr.trans hs.length.symm)
  · rw [hmax]
    change max s.maxHeight height = 1 ↔ ∀ t ∈ _ :: (h.live ++ h.removed), t.height = 1
    rw [List.forall_mem_cons, ← hs.maxHeight]
    simp only
    omega

theorem Splits.filter_ne {pre post : List (Tower Key Value)} {found : Option (Tower Key Value)}
    (hs : Splits cmp key pre found post) :
    (pre ++ (found.toList ++ post)).filter (fun t => cmp t.key key ≠ .eq) = pre ++ post := by
  have hpre : pre.filter (fun t => cmp t.key key ≠ .eq) = pre :=
    List.filter_eq_self.mpr fun t ht => by simp [hs.pre_lt t ht]
  have hpost : post.filter (fun t => cmp t.key key ≠ .eq) = post :=
    List.filter_eq_self.mpr fun t ht => by simp [hs.post_gt t ht]
  have hfound : found.toList.filter (fun t => cmp t.key key ≠ .eq) = [] :=
    List.filter_eq_nil_iff.mpr fun t ht => by simp [hs.found_eq t (Option.mem_toList.mp ht)]
  rw [List.filter_append, List.filter_append, hpre, hpost, hfound, List.nil_append]

variable (cmp) in
/-- A removal only moves towers from the live ones to the others. -/
theorem record_remove_perm (h : History Key Value) (key : Key) :
    ((MapOp.record cmp (.remove key) h).live ++ (MapOp.record cmp (.remove key) h).removed).Perm
      (h.live ++ h.removed) := by
  have hparts := List.filter_append_perm (fun t : Tower Key Value => decide (cmp t.key key ≠ .eq))
    h.live
  simp only [← decide_not, not_not] at hparts
  simp only [MapOp.record, ← List.append_assoc]
  exact hparts.append_right h.removed

theorem Tracks.remove [TransCmp cmp] (hs : s.Tracks cmp h ts) (key : Key) :
    ∃ found s' ts', s.remove cmp key = .ok (found, s') ∧
      s'.Tracks cmp (MapOp.record cmp (.remove key) h) ts' := by
  obtain ⟨pre, found, post, rfl, hsplits⟩ := hs.split key
  have hperm := record_remove_perm cmp h key
  have hlive : (pre ++ post).Perm (MapOp.record cmp (.remove key) h).live := by
    have hfilter := hs.perm.filter fun t => decide (cmp t.key key ≠ .eq)
    rwa [hsplits.filter_ne] at hfilter
  obtain ⟨b, s', hs', hrepr, hlength, hmax⟩ : ∃ b s', s.remove cmp key = .ok (b, s') ∧
      s'.Represents cmp (pre ++ post) ∧ s'.nodes.length = s.nodes.length ∧
      s'.maxHeight = s.maxHeight := by
    cases found with
    | none => exact ⟨false, s, hs.represents.remove_absent hsplits, hs.represents, rfl, rfl⟩
    | some t =>
      obtain ⟨s', hs'⟩ := hs.represents.remove hsplits
      exact ⟨true, s', hs'⟩
  refine ⟨b, s', _, hs', hrepr, hlive, ?_, ?_, ?_, ?_⟩
  · have hcount := hperm.length_eq
    simp only [List.length_append] at hcount
    rw [hlength, hs.length]
    omega
  · intro t ht
    rw [hlength]
    exact hs.ptr_lt t (hperm.subset ht)
  · exact (hperm.map _).nodup_iff.mpr hs.nodup
  · rw [hmax, hs.maxHeight]
    exact forall_congr' fun t => imp_congr_left hperm.mem_iff.symm

theorem run_tracks [TransCmp cmp] [Inhabited Key] [Inhabited Value]
    {ops : List (MapOp Key Value)} (hops : Admissible cmp ops) :
    ∃ s, run (step cmp) ops new = some s ∧ ∃ ts, s.Tracks cmp (history cmp ops) ts := by
  refine Run.exists_run (P := fun ops s => ∃ ts, Tracks cmp s (history cmp ops) ts)
    ⟨[], .new cmp⟩ ?_
  rintro pre op post s heq ⟨ts, hs⟩
  rw [history_concat]
  cases op with
  | insert key value height =>
    obtain ⟨habsent, hpos, hle⟩ := hops pre key value height post heq
    obtain ⟨s', ts', hs', htracks⟩ := hs.insert (visible_eq_none habsent) value hpos hle
    exact ⟨s', by rw [SkipList.step, hs']; rfl, ts', htracks⟩
  | remove key =>
    obtain ⟨found, s', ts', hs', htracks⟩ := hs.remove key
    exact ⟨s', by rw [SkipList.step, hs']; rfl, ts', htracks⟩

theorem Tracks.ptr_mem_level (hs : s.Tracks cmp h ts) {t : Tower Key Value} (ht : t ∈ h.live)
    (i : ℕ) : t.ptr ∈ level i ts ↔ i < t.height := by
  have hmem := hs.perm.mem_iff.mpr ht
  constructor
  · intro hp
    obtain ⟨u, hu, hi, hptr⟩ := mem_level hp
    have heq := List.inj_on_of_nodup_map hs.nodup (List.mem_append_left _ (hs.perm.subset hu))
      (List.mem_append_left _ ht) hptr
    rwa [← heq]
  · intro hi
    exact List.mem_map_of_mem (List.mem_filter.mpr ⟨hmem, decide_eq_true hi⟩)

theorem Tracks.removed_not_mem (hs : s.Tracks cmp h ts) {t : Tower Key Value} (ht : t ∈ h.removed)
    (i : ℕ) : t.ptr ∉ level i ts := by
  intro hp
  obtain ⟨u, hu, -, hptr⟩ := mem_level hp
  have hnodup := hs.nodup
  rw [List.map_append] at hnodup
  exact List.disjoint_of_nodup_append hnodup
    (List.mem_map_of_mem (hs.perm.subset hu)) (hptr ▸ List.mem_map_of_mem ht)

end Tracks

def HasKey (s : SkipList Key Value) (p : ℕ) (P : Key → Prop) : Prop :=
  ∃ node, s.nodes[p]? = some node ∧ P node.key

theorem Stores.hasKey {t : Tower Key Value} (ht : s.Stores t) {P : Key → Prop} (h : P t.key) :
    s.HasKey t.ptr P := by
  obtain ⟨next, hnext⟩ := ht
  exact ⟨_, hnext, h⟩

/-- On each level a chain from `head_` to null: the live towers that are high enough, in the order
of their keys, and no others. -/
structure Chains (cmp : Key → Key → Ordering) (s : SkipList Key Value) (h : History Key Value)
    (chain : ℕ → List ℕ) : Prop where
  linked : ∀ i < kMaxHeight, Linked (s.Link i) 0 (chain i)
  ascending : ∀ i < kMaxHeight, (chain i).Pairwise fun p q =>
    s.HasKey p fun key => s.HasKey q fun key' => cmp key key' = .lt
  sublist : ∀ i, i + 1 < kMaxHeight → (chain (i + 1)).Sublist (chain i)
  stores : ∀ t ∈ h.live, s.Stores t
  live : ∀ t ∈ h.live, ∀ i < kMaxHeight, t.ptr ∈ chain i ↔ i < t.height
  removed : ∀ t ∈ h.removed, ∀ i < kMaxHeight, t.ptr ∉ chain i
  others : ∀ i < kMaxHeight, ∀ p ∈ chain i, ∃ t ∈ h.live, t.ptr = p
  maxHeight : 1 ≤ s.maxHeight ∧ s.maxHeight ≤ kMaxHeight ∧ ∀ t ∈ h.live, t.height ≤ s.maxHeight

section Chains
variable {h : History Key Value} {ts : List (Tower Key Value)} {key : Key}

theorem Tracks.chains (hs : s.Tracks cmp h ts) : s.Chains cmp h fun i => level i ts := by
  have hrepr := hs.represents
  refine ⟨hrepr.linked, fun i _ => ?_, fun i _ => ?_, fun t ht => ?_, fun t ht i _ =>
    hs.ptr_mem_level ht i, fun t ht i _ => hs.removed_not_mem ht i, fun i _ p hp => ?_,
    hrepr.maxHeight_pos, hrepr.maxHeight_le, fun t ht => ?_⟩
  · refine List.pairwise_map.mpr ?_
    refine (hrepr.sorted.sublist List.filter_sublist).imp_of_mem fun {t u} ht hu hlt => ?_
    have hu' := hrepr.stores u (List.mem_of_mem_filter hu)
    exact (hrepr.stores t (List.mem_of_mem_filter ht)).hasKey (hu'.hasKey hlt)
  · refine List.Sublist.map _ (List.monotone_filter_right ts fun t ht => ?_)
    exact decide_eq_true ((Nat.lt_succ_self i).trans (of_decide_eq_true ht))
  · exact hrepr.stores t (hs.perm.mem_iff.mpr ht)
  · obtain ⟨t, ht, -, hptr⟩ := mem_level hp
    exact ⟨t, hs.perm.subset ht, hptr⟩
  · exact hrepr.height_le t (hs.perm.mem_iff.mpr ht)

/-- `FindGreaterOrEqual` notes the last node of each chain with a smaller key, and gives what comes
next on the lowest. -/
def FindsPlace (cmp : Key → Key → Ordering) (s : SkipList Key Value) (chain : ℕ → List ℕ)
    (key : Key) (prev : ℕ → NodePtr) : Prop :=
  ∃ next prev', s.findGreaterOrEqual cmp key prev = .ok (next, prev') ∧
    (∀ i < s.maxHeight, ∃ before after, chain i = before ++ after ∧
      (∀ p ∈ before, s.HasKey p fun k => cmp k key = .lt) ∧
      (∀ p ∈ after, s.HasKey p fun k => cmp k key ≠ .lt) ∧
      prev' i = some (before.getLastD 0)) ∧
    ∃ p, prev' 0 = some p ∧ s.Link 0 p next

theorem hasKey_level {us : List (Tower Key Value)} {P : Key → Prop} (hstores : ∀ t ∈ us, s.Stores t)
    (hP : ∀ t ∈ us, P t.key) (i : ℕ) : ∀ p ∈ level i us, s.HasKey p P := by
  intro p hp
  obtain ⟨t, ht, -, rfl⟩ := mem_level hp
  exact (hstores t ht).hasKey (hP t ht)

theorem Tracks.findsPlace [TransCmp cmp] (hs : s.Tracks cmp h ts) (key : Key)
    (prev : ℕ → NodePtr) : s.FindsPlace cmp (fun i => level i ts) key prev := by
  obtain ⟨pre, found, post, rfl, hsplits⟩ := hs.split key
  have hrepr := hs.represents
  obtain ⟨prev', hfind, hprev, -⟩ := hsplits.find hrepr prev
  refine ⟨_, prev', hfind, fun i hi => ⟨level i pre, level i (found.toList ++ post),
    level_append .., ?_, ?_, hprev i hi⟩, _, hprev 0 hrepr.maxHeight_pos, ?_⟩
  · exact hasKey_level (fun t ht => hrepr.stores t (List.mem_append_left _ ht)) hsplits.pre_lt i
  · exact hasKey_level (fun t ht => hrepr.stores t (List.mem_append_right _ ht)) hsplits.ne_lt i
  · have hzero := hrepr.linked 0 (by decide)
    rw [level_append] at hzero
    rw [← level_zero fun t ht => hrepr.height_pos t (List.mem_append_right _ ht)]
    exact hzero.drop.head

/-- In every state of a run the chains are in order on every level, each within the one below it,
and a search stops on each of them before the first key that is not smaller. -/
theorem skipList_chains [TransCmp cmp] [Inhabited Key] [Inhabited Value]
    {ops : List (MapOp Key Value)} (hops : Admissible cmp ops) :
    ∃ s chain, run (step cmp) ops new = some s ∧ s.Chains cmp (history cmp ops) chain ∧
      ∀ key prev, s.FindsPlace cmp chain key prev := by
  obtain ⟨s, hrun, ts, hs⟩ := run_tracks hops
  exact ⟨s, fun i => level i ts, hrun, hs.chains, hs.findsPlace⟩

theorem skipList_chains_three :
    ∃ (s : SkipList ℕ ℕ) (chain : ℕ → List ℕ),
      run (step compare) [.insert 5 50 12, .insert 3 30 1, .remove 5] new = some s ∧
      (history compare [.insert 5 50 12, .insert 3 30 1, .remove 5]).live = [⟨3, 1, 3, 30⟩] ∧
      s.Chains compare (history compare [.insert 5 50 12, .insert 3 30 1, .remove 5]) chain ∧
      ∀ key prev, s.FindsPlace compare chain key prev := by
  obtain ⟨s, chain, hrun, hchains, hfinds⟩ := skipList_chains admissible_three
  exact ⟨s, chain, hrun, rfl, hchains, hfinds⟩

end Chains

/-! The last node. -/

/-- The node of the greatest key, `head_` when there is none. -/
def IsLast (cmp : Key → Key → Ordering) (live : List (Tower Key Value)) (x : NodePtr) : Prop :=
  (live = [] → x = head) ∧
    (live ≠ [] → ∃ t ∈ live, x = some t.ptr ∧ ∀ u ∈ live, cmp u.key t.key ≠ .gt)

/-- `FindLast` gives the last node and `SeekToLast` comes to it. -/
def SeeksLast (cmp : Key → Key → Ordering) (s : SkipList Key Value)
    (live : List (Tower Key Value)) : Prop :=
  ∃ x it, s.findLast = .ok x ∧ IsLast cmp live x ∧ Iterator.seekToLast s = .ok it ∧
    (it.valid = true ↔ live ≠ []) ∧ (live ≠ [] → it.node = x)

section FindLast
variable {h : History Key Value} {ts : List (Tower Key Value)}

/-- The one look that `FindLast` takes is at the end of the highest level. -/
theorem Represents.findLast (hs : s.Represents cmp ts) : s.findLast =
    if level (s.maxHeight - 1) ts = [] ∧ s.maxHeight = 1 then .ok SkipList.head
    else .error (.fault .undefined) := by
  have hpos := hs.maxHeight_pos
  have hlinked := hs.linked (s.maxHeight - 1) (by have := hs.maxHeight_le; omega)
  have hone : s.maxHeight - 1 = 0 ↔ s.maxHeight = 1 := by omega
  rw [SkipList.findLast, SkipList.head, next_eq hlinked.head, Except.ok_bind]
  simp only [List.head?_eq_none_iff, hone]
  split_ifs <;> rfl

theorem Tracks.seeksLast_iff (hs : s.Tracks cmp h ts) :
    s.SeeksLast cmp h.live ↔ h.live = [] ∧ ∀ t ∈ h.removed, t.height = 1 := by
  have hfind := hs.represents.findLast
  have hzero : s.maxHeight = 1 → level (s.maxHeight - 1) ts = ts.map (·.ptr) := fun hone => by
    rw [hone]
    exact level_zero hs.represents.height_pos
  constructor
  · rintro ⟨x, it, hx, -⟩
    rw [hfind] at hx
    split_ifs at hx with hcond
    have hts : ts = [] := List.map_eq_nil_iff.mp (hzero hcond.2 ▸ hcond.1)
    refine ⟨List.nil_perm.mp (hts ▸ hs.perm), fun t ht => ?_⟩
    exact hs.maxHeight.mp hcond.2 t (List.mem_append_right _ ht)
  · rintro ⟨hlive, hremoved⟩
    have hone : s.maxHeight = 1 := by
      refine hs.maxHeight.mpr fun t ht => ?_
      rw [hlive] at ht
      exact hremoved t ht
    have hts : ts = [] := List.perm_nil.mp (hlive ▸ hs.perm)
    have hlast : s.findLast = .ok head := by
      rw [hfind, if_pos ⟨by rw [hzero hone, hts, List.map_nil], hone⟩]
    refine ⟨head, ⟨none⟩, hlast, ⟨fun _ => rfl, fun hne => absurd hlive hne⟩, ?_, ?_,
      fun hne => absurd hlive hne⟩
    · rw [Iterator.seekToLast, hlast, Except.ok_bind, if_pos rfl]
      rfl
    · simp [Iterator.valid, hlive]

/-- `FindLast` works exactly on a list that is empty and in which no tower was ever higher than
one level. -/
theorem findLast_iff [TransCmp cmp] [Inhabited Key] [Inhabited Value]
    {ops : List (MapOp Key Value)} (hops : Admissible cmp ops) :
    ∃ s, run (step cmp) ops new = some s ∧
      (s.SeeksLast cmp (history cmp ops).live ↔
        (history cmp ops).live = [] ∧ ∀ t ∈ (history cmp ops).removed, t.height = 1) := by
  obtain ⟨s, hrun, ts, hs⟩ := run_tracks hops
  exact ⟨s, hrun, hs.seeksLast_iff⟩

theorem findLast_iff_three :
    ∃ s : SkipList ℕ ℕ,
      run (step compare) [.insert 5 50 12, .insert 3 30 1, .remove 5] new = some s ∧
      ¬ s.SeeksLast compare
        (history compare [.insert 5 50 12, .insert 3 30 1, .remove 5]).live := by
  obtain ⟨s, hrun, hiff⟩ := findLast_iff admissible_three
  exact ⟨s, hrun, fun hlast => by cases (hiff.mp hlast).1⟩

/-- With one key in the list, whose tower gets two levels, `FindLast` runs past its end. -/
theorem findLast_single :
    (randomHeight (new : SkipList ℕ ℕ)).1 = 2 ∧ @Admissible ℕ ℕ compare [.insert 5 50 2] ∧
      ∃ s : SkipList ℕ ℕ, run (step compare) [.insert 5 50 2] new = some s ∧
        s.findLast = .error (.fault .undefined) ∧
        ¬ s.SeeksLast compare (history compare [.insert 5 50 2]).live := by
  refine ⟨by decide, ?_, _, rfl, rfl, fun ⟨x, it, hx, _⟩ => by cases hx⟩
  intro pre key value height post heq
  rcases pre with _ | ⟨_, pre⟩
  · cases heq
    decide
  · simp at heq

end FindLast
end SkipList
end Ibdb.Base
