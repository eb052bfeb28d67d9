import Ibdb.Base.SkipListLevels

/-! The iterator of a skip list: it seeks a key and goes on along the lowest level. -/
namespace Ibdb.Base
open Std

namespace SkipList
variable {Key Value : Type} {cmp : Key → Key → Ordering} {s : SkipList Key Value}

namespace Iterator

def next (list : SkipList Key Value) (it : Iterator) : Except Stop Iterator := do
  if !it.valid then throw (.fault .assertFailed)
  return ⟨← list.next it.node 0⟩

def seek (cmp : Key → Key → Ordering) (target : Key) (list : SkipList Key Value) :
    Except Stop Iterator := do
  let (node, _) ← list.findGreaterOrEqual cmp target fun _ => none
  return ⟨node⟩

def seekToFirst (list : SkipList Key Value) : Except Stop Iterator := do
  return ⟨← list.next head 0⟩

/-- The nodes that a caller comes to in `for (; it.Valid(); it.Next())`. -/
def rest (list : SkipList Key Value) : ℕ → Iterator → Except Stop (List ℕ)
  | 0, _ => .error .fuel
  | fuel + 1, it =>
    match it.node with
    | none => .ok []
    | some p => do
      let it ← it.next list
      return p :: (← rest list fuel it)

/-- The whole loop, from `SeekToFirst()` on. No node is come to twice. -/
def walk (list : SkipList Key Value) : Except Stop (List ℕ) := do
  rest list (list.nodes.length + 1) (← seekToFirst list)

def walkFrom (cmp : Key → Key → Ordering) (target : Key) (list : SkipList Key Value) :
    Except Stop (List ℕ) := do
  rest list (list.nodes.length + 1) (← seek cmp target list)

theorem rest_eq {fuel : ℕ} {p : ℕ} {ps : List ℕ} (h : Linked (s.Link 0) p ps)
    (hfuel : ps.length < fuel) : rest s fuel ⟨ps.head?⟩ = .ok ps := by
  induction fuel generalizing p ps with
  | zero => omega
  | succ fuel ih =>
    cases ps with
    | nil => rfl
    | cons q ps =>
      have hnext : next s ⟨some q⟩ = .ok ⟨ps.head?⟩ := by
        simp [next, valid, next_eq h.2.head]
      have hrest := ih h.2 (by simpa using hfuel)
      rw [List.head?_cons, rest]
      simp only [hnext, Except.ok_bind, hrest]
      rfl

theorem walk_eq {ps : List ℕ} (h : Linked (s.Link 0) 0 ps) (hlen : ps.length < s.nodes.length) :
    walk s = .ok ps := by
  have hfirst : seekToFirst s = .ok ⟨ps.head?⟩ := by
    rw [seekToFirst, SkipList.head, next_eq h.head]
    rfl
  rw [walk, hfirst, Except.ok_bind]
  exact rest_eq h (by omega)

end Iterator

section Walk
variable {h : History Key Value} {ts : List (Tower Key Value)}

theorem Represents.linked_zero (hs : s.Represents cmp ts) :
    Linked (s.Link 0) 0 (ts.map (·.ptr)) := by
  rw [← level_zero hs.height_pos]
  exact hs.linked 0 (by decide)

theorem Represents.walk (hs : s.Represents cmp ts) :
    Iterator.walk s = .ok (ts.map (·.ptr)) :=
  Iterator.walk_eq hs.linked_zero (by rw [List.length_map]; exact hs.length_lt)

theorem Splits.filter_ge {pre post : List (Tower Key Value)} {found : Option (Tower Key Value)}
    {key : Key} (hs : Splits cmp key pre found post) :
    (pre ++ (found.toList ++ post)).filter (fun t => cmp t.key key ≠ .lt) =
      found.toList ++ post := by
  have hpre : pre.filter (fun t => cmp t.key key ≠ .lt) = [] :=
    List.filter_eq_nil_iff.mpr fun t ht => by simp [hs.pre_lt t ht]
  have hrest : (found.toList ++ post).filter (fun t => cmp t.key key ≠ .lt) =
      found.toList ++ post :=
    List.filter_eq_self.mpr fun t ht => decide_eq_true (hs.ne_lt t ht)
  rw [List.filter_append, hpre, hrest, List.nil_append]

theorem Represents.walkFrom [TransCmp cmp] (hs : s.Represents cmp ts) (key : Key) :
    Iterator.walkFrom cmp key s =
      .ok ((ts.filter fun t => cmp t.key key ≠ .lt).map (·.ptr)) := by
  obtain ⟨pre, found, post, rfl, hsplits⟩ := exists_splits hs.sorted key
  obtain ⟨prev', hfind, -⟩ := hsplits.find hs fun _ => none
  have hlen := hs.length_lt
  have hlinked := hs.linked_zero
  rw [List.map_append] at hlinked
  rw [hsplits.filter_ge, Iterator.walkFrom, Iterator.seek, hfind, Except.ok_bind]
  refine Iterator.rest_eq hlinked.drop ?_
  rw [List.length_append] at hlen
  rw [List.length_map]
  omega

/-- After any run the loop from `SeekToFirst` comes to each live node once, in the order of the
keys, and the loop from `Seek` to those of them whose key is not smaller than the target. -/
theorem iterator_walks [TransCmp cmp] [Inhabited Key] [Inhabited Value]
    {ops : List (MapOp Key Value)} (hops : Admissible cmp ops) :
    ∃ (s : SkipList Key Value) (ts : List (Tower Key Value)),
      run (step cmp) ops new = some s ∧ ts.Perm (history cmp ops).live ∧
      (ts.Pairwise fun t u => cmp t.key u.key = .lt) ∧ (∀ t ∈ ts, s.Stores t) ∧
      Iterator.walk s = .ok (ts.map (·.ptr)) ∧
      ∀ key, Iterator.walkFrom cmp key s =
        .ok ((ts.filter fun t => cmp t.key key ≠ .lt).map (·.ptr)) := by
  obtain ⟨s, hrun, ts, hs⟩ := run_tracks hops
  have hrepr := hs.represents
  exact ⟨s, ts, hrun, hs.perm, hrepr.sorted, hrepr.stores, hrepr.walk, hrepr.walkFrom⟩

theorem iterator_walks_three :
    ∃ (s : SkipList ℕ ℕ) (ts : List (Tower ℕ ℕ)),
      run (step compare) [.insert 5 50 12, .insert 3 30 1, .remove 5] new = some s ∧
      ts.Perm (history compare [.insert 5 50 12, .insert 3 30 1, .remove 5]).live ∧
      Iterator.walk s = .ok (ts.map (·.ptr)) := by
  obtain ⟨s, ts, hrun, hperm, -, -, hwalk, -⟩ := iterator_walks admissible_three
  exact ⟨s, ts, hrun, hperm, hwalk⟩

end Walk
end SkipList
end Ibdb.Base
