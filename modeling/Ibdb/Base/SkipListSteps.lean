import Ibdb.Base.SkipListIterator

/-! A skip list whose only writer stores one pointer at a time while others read. Every load and
store is one step. -/
namespace Ibdb.Base
open Std

namespace SkipList
variable {Key Value ι : Type} {cmp : Key → Key → Ordering} {s : SkipList Key Value}

/-- Where the writer stands in `Insert(key, value)`. Nobody else stores, so its search is one
step. -/
inductive Writer (Key Value : Type)
  | idle
  /-- The height is drawn and is next compared with `GetMaxHeight()`. -/
  | raising (key : Key) (value : Value) (height : ℕ) (prev : ℕ → NodePtr)
  | making (key : Key) (value : Value) (height : ℕ) (prev : ℕ → NodePtr)
  /-- In round `i` of the loop, before `x->NoBarrierSetNext(i, prev[i]->NoBarrierNext(i))`. -/
  | linking (x : NodePtr) (height : ℕ) (prev : ℕ → NodePtr) (i : ℕ)
  /-- Before `prev[i]->SetNext(i, x)`. -/
  | publishing (x : NodePtr) (height : ℕ) (prev : ℕ → NodePtr) (i : ℕ)

namespace Writer

/-- The search of `Insert(key, value)`, its assertion and the height that `RandomHeight()` gives. -/
def search (cmp : Key → Key → Ordering) (key : Key) (value : Value) (height : ℕ)
    (s : SkipList Key Value) : Except Stop (Writer Key Value) := do
  let (x, prev) ← s.findGreaterOrEqual cmp key fun _ => none
  if ← s.equalNode cmp key x then throw (.fault .assertFailed)
  return raising key value height prev

def store : Writer Key Value → SkipList Key Value →
    Except Stop (Writer Key Value × SkipList Key Value)
  | idle, s => return (idle, s)
  | raising key value height prev, s =>
    let prev := fun i => if s.maxHeight ≤ i ∧ i < height then head else prev i
    return (making key value height prev,
      { s with maxHeight := if height > s.maxHeight then height else s.maxHeight })
  | making key value height prev, s =>
    return (linking (some s.nodes.length) height prev 0,
      { s with nodes := s.nodes ++ [newNode key value height] })
  | linking x height prev i, s => do
    if i < height then
      let s' ← s.setNext x i (← s.next (prev i) i)
      return (publishing x height prev i, s')
    else return (idle, s)
  | publishing x height prev i, s => do
    let s' ← s.setNext (prev i) i x
    return (linking x height prev (i + 1), s')

end Writer

inductive Reader (Key : Type)
  | idle
  /-- In the loop of `FindGreaterOrEqual(key, nullptr)` or `FindEqual(key)`. -/
  | searching (key : Key) (x : NodePtr) (level : ℕ)
  | found (key : Key) (next : NodePtr)
  /-- In a loop with `Next()`, past the nodes visited. -/
  | scanning (visited : List ℕ) (it : Iterator)

/-- The next round of the reader's loop, which loads one pointer. -/
def Reader.load (cmp : Key → Key → Ordering) (s : SkipList Key Value) :
    Reader Key → Except Stop (Reader Key)
  | searching key x level => do
    let next ← s.next x level
    if ← s.keyIsAfterNode cmp key next then return searching key next level
    else if level = 0 then return found key next
    else return searching key x (level - 1)
  | scanning visited it =>
    match it.node with
    | none => return scanning visited it
    | some p => return scanning (visited ++ [p]) (← it.next s)
  | r => return r

structure System (ι Key Value : Type) where
  list : SkipList Key Value
  writer : Writer Key Value
  reader : ι → Reader Key

inductive Event (ι Key Value : Type)
  | insert (key : Key) (value : Value) (height : ℕ)
  | store
  | search (r : ι) (key : Key) (height : ℕ)
  | scan (r : ι)
  | load (r : ι)

namespace System

def new [Inhabited Key] [Inhabited Value] : System ι Key Value := ⟨.new, .idle, fun _ => .idle⟩

variable [DecidableEq ι]

def setReader (s : System ι Key Value) (r : ι) (reader : Reader Key) : System ι Key Value :=
  { s with reader := Function.update s.reader r reader }

/-- An insertion starts when the one before it is done. The load in `GetMaxHeight()` has no barrier,
and a search may start from any height that the list has had. -/
def step (cmp : Key → Key → Ordering) :
    Event ι Key Value → System ι Key Value → Option (System ι Key Value)
  | .insert key value height, s =>
    match s.writer with
    | .idle =>
      if 0 < height ∧ height ≤ kMaxHeight then
        (Writer.search cmp key value height s.list).toOption.map fun w => { s with writer := w }
      else none
    | _ => none
  | .store, s =>
    (s.writer.store s.list).toOption.map fun r => { s with writer := r.1, list := r.2 }
  | .search r key height, s =>
    if 0 < height ∧ height ≤ s.list.maxHeight then
      some (s.setReader r (.searching key head (height - 1)))
    else none
  | .scan r, s =>
    (Iterator.seekToFirst s.list).toOption.map fun it => s.setReader r (.scanning [] it)
  | .load r, s => ((s.reader r).load cmp s.list).toOption.map (s.setReader r)

inductive Moves (cmp : Key → Key → Ordering) (s : System ι Key Value) :
    Event ι Key Value → System ι Key Value → Prop
  | insert (key : Key) (value : Value) (height : ℕ) (w : Writer Key Value) (idle : s.writer = .idle)
      (pos : 0 < height) (le : height ≤ kMaxHeight)
      (search : Writer.search cmp key value height s.list = .ok w) :
      Moves cmp s (.insert key value height) { s with writer := w }
  | store (w : Writer Key Value) (list : SkipList Key Value)
      (store : s.writer.store s.list = .ok (w, list)) :
      Moves cmp s .store { s with writer := w, list := list }
  | search (r : ι) (key : Key) (height : ℕ) (pos : 0 < height) (le : height ≤ s.list.maxHeight) :
      Moves cmp s (.search r key height) (s.setReader r (.searching key head (height - 1)))
  | scan (r : ι) (it : Iterator) (first : Iterator.seekToFirst s.list = .ok it) :
      Moves cmp s (.scan r) (s.setReader r (.scanning [] it))
  | load (r : ι) (reader : Reader Key) (load : (s.reader r).load cmp s.list = .ok reader) :
      Moves cmp s (.load r) (s.setReader r reader)

theorem toOption_map_eq_some {ε α β : Type} {x : Except ε α} {f : α → β} {b : β}
    (h : x.toOption.map f = some b) : ∃ a, x = .ok a ∧ f a = b := by
  cases x with
  | error e => cases h
  | ok a => exact ⟨a, rfl, Option.some.inj h⟩

theorem moves_of_step {e : Event ι Key Value} {s t : System ι Key Value}
    (h : step cmp e s = some t) : Moves cmp s e t := by
  cases e with
  | insert key value height =>
    cases hw : s.writer with
    | idle =>
      simp only [step, hw] at h
      split_ifs at h with hheight
      obtain ⟨w, hsearch, rfl⟩ := toOption_map_eq_some h
      exact .insert key value height w hw hheight.1 hheight.2 hsearch
    | _ =>
      simp only [step, hw] at h
      cases h
  | store =>
    obtain ⟨⟨w, list⟩, hstore, rfl⟩ := toOption_map_eq_some h
    exact .store w list hstore
  | search r key height =>
    simp only [step] at h
    split_ifs at h with hheight
    cases h
    exact .search r key height hheight.1 hheight.2
  | scan r =>
    obtain ⟨it, hfirst, rfl⟩ := toOption_map_eq_some h
    exact .scan r it hfirst
  | load r =>
    obtain ⟨reader, hload, rfl⟩ := toOption_map_eq_some h
    exact .load r reader hload

theorem reader_setReader (s : System ι Key Value) (r r' : ι) (reader : Reader Key) :
    (s.setReader r reader).reader r' = if r' = r then reader else s.reader r' := by
  simp only [setReader, Function.update_apply]

end System

def inserts : List (Event ι Key Value) → List (MapOp Key Value)
  | [] => []
  | .insert key value height :: es => .insert key value height :: inserts es
  | _ :: es => inserts es

theorem inserts_append (es fs : List (Event ι Key Value)) :
    inserts (es ++ fs) = inserts es ++ inserts fs := by
  induction es with
  | nil => rfl
  | cons e es ih => cases e <;> simp [inserts, ih]

/-! No reader looks at the height that a node notes of itself. -/

def withHeight (s : SkipList Key Value) (p height : ℕ) : SkipList Key Value :=
  { s with nodes := s.nodes.modify p fun node => { node with height := height } }

section Height
variable {p height : ℕ}

theorem getElem?_withHeight (q : ℕ) : (s.withHeight p height).nodes[q]? =
    s.nodes[q]?.map fun node => if p = q then { node with height := height } else node := by
  simp only [withHeight, List.getElem?_modify]
  split_ifs <;> rfl

/-- What is done with a node and not with its height is the same. -/
theorem bind_node_withHeight {α : Type} (x : NodePtr) {f : Node Key Value → Except Stop α}
    (hf : ∀ node height, f { node with height := height } = f node) :
    ((s.withHeight p height).node x >>= f) = s.node x >>= f := by
  cases x with
  | none => rfl
  | some q =>
    simp only [SkipList.node, Option.bind_some, getElem?_withHeight]
    cases s.nodes[q]? with
    | none => rfl
    | some node =>
      simp only [Option.map_some, Except.ok_bind]
      split_ifs
      · exact hf node height
      · rfl

theorem next_withHeight (x : NodePtr) (n : ℕ) :
    (s.withHeight p height).next x n = s.next x n :=
  bind_node_withHeight x fun _ _ => rfl

theorem link_withHeight {i q : ℕ} {r : NodePtr} :
    (s.withHeight p height).Link i q r ↔ s.Link i q r := by
  simp only [Link, getElem?_withHeight]
  cases s.nodes[q]? with
  | none => simp
  | some node => by_cases h : p = q <;> simp [h]

variable (cmp)

theorem keyIsAfterNode_withHeight (key : Key) (n : NodePtr) :
    (s.withHeight p height).keyIsAfterNode cmp key n = s.keyIsAfterNode cmp key n := by
  unfold keyIsAfterNode
  rw [bind_node_withHeight n fun _ _ => rfl]

theorem equalNode_withHeight (key : Key) (n : NodePtr) :
    (s.withHeight p height).equalNode cmp key n = s.equalNode cmp key n := by
  unfold equalNode
  rw [bind_node_withHeight n fun _ _ => rfl]

theorem search_withHeight (key : Key) (fuel : ℕ) (x : NodePtr) (level : ℕ) (prev : ℕ → NodePtr) :
    (s.withHeight p height).search cmp key fuel x level prev =
      s.search cmp key fuel x level prev := by
  induction fuel generalizing x level prev with
  | zero => rfl
  | succ fuel ih => simp only [search, next_withHeight, keyIsAfterNode_withHeight, ih]

theorem findGreaterOrEqual_withHeight (key : Key) (prev : ℕ → NodePtr) :
    (s.withHeight p height).findGreaterOrEqual cmp key prev =
      s.findGreaterOrEqual cmp key prev := by
  have hlen : (s.withHeight p height).nodes.length = s.nodes.length := List.length_modify ..
  rw [findGreaterOrEqual, search_withHeight, hlen]
  rfl

theorem contains_withHeight (key : Key) :
    (s.withHeight p height).contains cmp key = s.contains cmp key := by
  simp only [contains, findGreaterOrEqual_withHeight, equalNode_withHeight]

theorem findValue_withHeight (key : Key) :
    (s.withHeight p height).findValue cmp key = s.findValue cmp key := by
  have hfind : (s.withHeight p height).findEqual cmp key = s.findEqual cmp key := by
    unfold findEqual
    rw [findGreaterOrEqual_withHeight]
    congr 1
    funext ⟨x, prev⟩
    simp only
    rw [bind_node_withHeight x fun _ _ => rfl]
  unfold findValue
  rw [hfind]
  congr 1
  funext x
  rw [bind_node_withHeight x fun _ _ => rfl]

end Height

/-! What the readers see while the writer is at work. -/

/-- The towers that the list links. One of them may reach up less far than its node notes. -/
def Shows (cmp : Key → Key → Ordering) (s : SkipList Key Value) (ts : List (Tower Key Value)) :
    Prop :=
  ∃ p height, (s.withHeight p height).Represents cmp ts

section Shows
variable {ts pre post : List (Tower Key Value)} {found : Option (Tower Key Value)} {key : Key}

theorem Represents.shows (hs : s.Represents cmp ts) : s.Shows cmp ts := by
  refine ⟨s.nodes.length, 0, ?_⟩
  rwa [withHeight, List.modify_eq_self le_rfl]

theorem Shows.sorted (hs : s.Shows cmp ts) : ts.Pairwise fun t u => cmp t.key u.key = .lt := by
  obtain ⟨p, height, hrepr⟩ := hs
  exact hrepr.sorted

theorem Shows.length_lt (hs : s.Shows cmp ts) : ts.length < s.nodes.length := by
  obtain ⟨p, height, hrepr⟩ := hs
  have hlt := hrepr.length_lt
  rwa [withHeight, List.length_modify] at hlt

theorem Shows.maxHeight_le (hs : s.Shows cmp ts) : s.maxHeight ≤ kMaxHeight := by
  obtain ⟨p, height, hrepr⟩ := hs
  exact hrepr.maxHeight_le

theorem Shows.height_pos (hs : s.Shows cmp ts) : ∀ t ∈ ts, 0 < t.height := by
  obtain ⟨p, height, hrepr⟩ := hs
  exact hrepr.height_pos

theorem Shows.linked (hs : s.Shows cmp ts) {i : ℕ} (hi : i < kMaxHeight) :
    Linked (s.Link i) 0 (level i ts) := by
  obtain ⟨p, height, hrepr⟩ := hs
  exact (hrepr.linked i hi).mono fun x _ q => link_withHeight.mp

theorem Shows.linked_zero (hs : s.Shows cmp ts) : Linked (s.Link 0) 0 (ts.map (·.ptr)) := by
  rw [← level_zero hs.height_pos]
  exact hs.linked (by decide)

theorem Shows.find [TransCmp cmp] (hs : s.Shows cmp (pre ++ (found.toList ++ post)))
    (hsplits : Splits cmp key pre found post) :
    ∃ prev, s.findGreaterOrEqual cmp key (fun _ => none) =
      .ok (((found.toList ++ post).map (·.ptr)).head?, prev) := by
  obtain ⟨p, height, hrepr⟩ := hs
  obtain ⟨prev, hfind, -⟩ := hsplits.find hrepr fun _ => none
  rw [findGreaterOrEqual_withHeight] at hfind
  exact ⟨prev, hfind⟩

theorem Shows.answers [TransCmp cmp] (hs : s.Shows cmp ts) (key : Key) :
    s.findValue cmp key = .ok (lookup cmp ts key) ∧
      s.contains cmp key = .ok (lookup cmp ts key).isSome := by
  obtain ⟨p, height, hrepr⟩ := hs
  have hholds : (s.withHeight p height).Holds cmp (lookup cmp ts) := ⟨ts, hrepr, fun _ => rfl⟩
  have hfind := hholds.findValue key
  have hcontains := hholds.contains key
  rw [findValue_withHeight] at hfind
  rw [contains_withHeight] at hcontains
  exact ⟨hfind, hcontains⟩

theorem Shows.walk (hs : s.Shows cmp ts) : Iterator.walk s = .ok (ts.map (·.ptr)) :=
  Iterator.walk_eq hs.linked_zero (by rw [List.length_map]; exact hs.length_lt)

end Shows
end SkipList
end Ibdb.Base
