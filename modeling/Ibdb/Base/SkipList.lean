import Ibdb.Base.Slice

/-! The skip list: an ordered map in nodes that hold a tower of pointers each. -/
namespace Ibdb.Base

structure Random where
  seed : UInt32
  deriving DecidableEq

namespace Random

/-- `Random(s)`, which avoids the two seeds that never change. -/
def new (s : UInt32) : Random :=
  let seed := s &&& 0x7fffffff
  if seed = 0 ∨ seed = 2147483647 then ⟨1⟩ else ⟨seed⟩

def next (rnd : Random) : UInt32 × Random :=
  let product := rnd.seed.toUInt64 * 16807
  let seed := ((product >>> 31) + (product &&& 2147483647)).toUInt32
  let seed := if seed > 2147483647 then seed - 2147483647 else seed
  (seed, ⟨seed⟩)

end Random

/-- A `Node*`: the number of a node in the arena, or the null pointer. -/
abbrev NodePtr := Option ℕ

/-- `next_[n]` has no value above the height of the tower and before the first store. -/
structure Node (Key Value : Type) where
  height : ℕ
  key : Key
  value : Value
  next : ℕ → Option NodePtr

def kMaxHeight : ℕ := 12

/-- The nodes in the order in which the arena gave them out; none is given back. -/
structure SkipList (Key Value : Type) where
  nodes : List (Node Key Value)
  maxHeight : ℕ
  rnd : Random

namespace SkipList
variable {Key Value : Type}

/-- `NewNode(key, value, height)`; the height is kept in a `uint8_t`. -/
def newNode (key : Key) (value : Value) (height : ℕ) : Node Key Value :=
  ⟨height % 2 ^ 8, key, value, fun _ => none⟩

/-- `head_` is the first node made and `tail_` the second. -/
def head : NodePtr := some 0

def tail : NodePtr := some 1

def new [Inhabited Key] [Inhabited Value] : SkipList Key Value :=
  let node := newNode default default kMaxHeight
  let node := { node with next := fun i => if i < kMaxHeight then some none else none }
  ⟨[node, node], 1, Random.new 0xdeadbeef⟩

def node (s : SkipList Key Value) (x : NodePtr) : Except Stop (Node Key Value) :=
  match x.bind (s.nodes[·]?) with
  | some node => .ok node
  | none => .error (.fault .undefined)

def next (s : SkipList Key Value) (x : NodePtr) (n : ℕ) : Except Stop NodePtr := do
  match (← s.node x).next n with
  | some p => return p
  | none => throw (.fault .undefined)

def setNext (s : SkipList Key Value) (x : NodePtr) (n : ℕ) (p : NodePtr) :
    Except Stop (SkipList Key Value) := do
  if n < (← s.node x).height then
    return { s with nodes := s.nodes.modify (x.getD 0) fun node =>
      { node with next := Function.update node.next n (some p) } }
  else throw (.fault .undefined)

section Search
variable (cmp : Key → Key → Ordering) (s : SkipList Key Value) (key : Key)

def keyIsAfterNode (n : NodePtr) : Except Stop Bool :=
  if n = none then return false
  else return cmp (← s.node n).key key = .lt

def equalNode (n : NodePtr) : Except Stop Bool :=
  if n = none then return false
  else return cmp key (← s.node n).key = .eq

/-- The loop of `FindGreaterOrEqual` and `FindEqual`. An entry of `prev` without a value is `none`,
which no node has. -/
def search : ℕ → NodePtr → ℕ → (ℕ → NodePtr) → Except Stop (NodePtr × (ℕ → NodePtr))
  | 0, _, _, _ => .error .fuel
  | fuel + 1, x, level, prev => do
    let next ← s.next x level
    if ← s.keyIsAfterNode cmp key next then search fuel next level prev
    else
      let prev := Function.update prev level x
      if level = 0 then return (next, prev) else search fuel x (level - 1) prev

/-- Each step goes on to a later node or down a level. -/
def findGreaterOrEqual (prev : ℕ → NodePtr) : Except Stop (NodePtr × (ℕ → NodePtr)) :=
  s.search cmp key (s.nodes.length + s.maxHeight) head (s.maxHeight - 1) prev

def findEqual : Except Stop NodePtr := do
  let (next, _) ← s.findGreaterOrEqual cmp key fun _ => none
  if next = none then return none
  else if cmp (← s.node next).key key = .eq then return next else return none

def contains : Except Stop Bool := do
  let (x, _) ← s.findGreaterOrEqual cmp key fun _ => none
  s.equalNode cmp key x

end Search

/-- The loop of `RandomHeight`, which goes round as often as the height can still grow. -/
def growHeight : ℕ → ℕ → Random → ℕ × Random
  | 0, height, rnd => (height, rnd)
  | n + 1, height, rnd =>
    let (r, rnd) := rnd.next
    if r % 4 = 0 then growHeight n (height + 1) rnd else (height, rnd)

def randomHeight (s : SkipList Key Value) : ℕ × Random := growHeight (kMaxHeight - 1) 1 s.rnd

/-- The loop over the levels at the end of `Insert`. -/
def spliceAt (x : NodePtr) (prev : ℕ → NodePtr) (s : SkipList Key Value) (i : ℕ) :
    Except Stop (SkipList Key Value) := do
  let next ← s.next (prev i) i
  let s ← s.setNext x i next
  s.setNext (prev i) i x

/-- `Insert(key, value)` with the height that `RandomHeight()` gives. -/
def insertWith (cmp : Key → Key → Ordering) (key : Key) (value : Value) (height : ℕ)
    (s : SkipList Key Value) : Except Stop (SkipList Key Value) := do
  let (x, prev) ← s.findGreaterOrEqual cmp key fun _ => none
  if ← s.equalNode cmp key x then throw (.fault .assertFailed)
  let prev := fun i => if s.maxHeight ≤ i ∧ i < height then head else prev i
  let maxHeight := if height > s.maxHeight then height else s.maxHeight
  let x := some s.nodes.length
  let s := { s with nodes := s.nodes ++ [newNode key value height], maxHeight := maxHeight }
  (List.range height).foldlM (spliceAt x prev) s

def insert (cmp : Key → Key → Ordering) (key : Key) (value : Value) (s : SkipList Key Value) :
    Except Stop (SkipList Key Value) :=
  let (height, rnd) := s.randomHeight
  insertWith cmp key value height { s with rnd := rnd }

/-- The loop over the levels at the end of `Remove`. -/
def unspliceAt (target : NodePtr) (prev : ℕ → NodePtr) (s : SkipList Key Value) (i : ℕ) :
    Except Stop (SkipList Key Value) := do
  let next ← s.next target i
  let s ← s.setNext (prev i) i next
  s.setNext target i none

def remove (cmp : Key → Key → Ordering) (key : Key) (s : SkipList Key Value) :
    Except Stop (Bool × SkipList Key Value) := do
  if !(← s.contains cmp key) then return (false, s)
  let (target, prev) ← s.findGreaterOrEqual cmp key fun i => if i < kMaxHeight then head else none
  let s ← (List.range (← s.node target).height).foldlM (unspliceAt target prev) s
  return (true, s)

def getValue (cmp : Key → Key → Ordering) (key : Key) (s : SkipList Key Value) :
    Except Stop Value := do
  return (← s.node (← s.findEqual cmp key)).value

/-- `FindLast()`. Its steps stand in no loop, and past them there is no value to return. -/
def findLast (s : SkipList Key Value) : Except Stop NodePtr := do
  let next ← s.next head (s.maxHeight - 1)
  if next = none ∧ s.maxHeight - 1 = 0 then return head else throw (.fault .undefined)

structure Iterator where
  node : NodePtr
  deriving DecidableEq

def Iterator.valid (it : Iterator) : Bool := it.node.isSome

def Iterator.seekToLast (list : SkipList Key Value) : Except Stop Iterator := do
  let node ← list.findLast
  return ⟨if node = head then none else node⟩

end SkipList
end Ibdb.Base
