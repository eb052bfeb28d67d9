import Ibdb.Base.SkipListRun

/-! The index in the skip lists that it is made of. -/
namespace Ibdb.Storage
open Base Std

def timeStampCompare (a b : UInt64) : Ordering :=
  if a = b then .eq else if a > b then .gt else .lt

/-- `operator==` of slices. -/
def sliceEqual (x y : Bytes) : Bool := x.length = y.length && memcmp x.length x y = .eq

/-- A pointer to a list that the segment has allocated. -/
abbrev ListPtr := Option ℕ

/-- `segment_`, with the objects of `ValueEntry` and `Index` in the order in which they were made;
none is deleted. -/
structure SkipSegment where
  segment : SkipList Bytes ListPtr
  valueEntries : List (SkipList UInt64 ListPtr)
  indexes : List (SkipList Bytes ℕ)

namespace SkipSegment

def new : SkipSegment := ⟨SkipList.new, [], []⟩

def deref {α : Type} (objects : List α) (p : ListPtr) : Except Stop α :=
  match p.bind (objects[·]?) with
  | some x => .ok x
  | none => .error (.fault .undefined)

/-- The copy that `BuildKeyIndex` and `Put` make of a slice they keep. -/
def copySlice (slice : Bytes) : Except Stop Bytes :=
  (Slice.ofBuffer slice slice.length).mapError Stop.fault

def newValueEntry (seg : SkipSegment) : ListPtr × SkipSegment :=
  (some seg.valueEntries.length, { seg with valueEntries := seg.valueEntries ++ [SkipList.new] })

def newIndex (seg : SkipSegment) : ListPtr × SkipSegment :=
  (some seg.indexes.length, { seg with indexes := seg.indexes ++ [SkipList.new] })

def contains (seg : SkipSegment) (key : Bytes) : Except Stop Bool :=
  seg.segment.contains Slice.compare key

def remove (key : Bytes) (seg : SkipSegment) : Except Stop (Bool × SkipSegment) := do
  if ← seg.contains key then
    let (removed, segment) ← seg.segment.remove Slice.compare key
    return (removed, { seg with segment := segment })
  else return (false, seg)

def buildKeyIndex (key : Bytes) (seg : SkipSegment) : Except Stop (Bool × SkipSegment) := do
  if ← seg.contains key then return (false, seg)
  else
    let (valueEntry, seg) := seg.newValueEntry
    let memKey ← copySlice key
    let segment ← seg.segment.insert Slice.compare memKey valueEntry
    return (true, { seg with segment := segment })

/-- The part of `Put` that makes the index of a timestamp when there is none. -/
def touchTimestamp (valueEntry : ListPtr) (timestamp : UInt64) (seg : SkipSegment) :
    Except Stop SkipSegment := do
  let entry ← deref seg.valueEntries valueEntry
  if ← entry.contains timeStampCompare timestamp then return seg
  else
    let (index, seg) := seg.newIndex
    let entry ← entry.insert timeStampCompare timestamp index
    return { seg with valueEntries := seg.valueEntries.set (valueEntry.getD 0) entry }

def put (key : Bytes) (timestamp : UInt64) (value : Bytes) (offset : ℕ) (seg : SkipSegment) :
    Except Stop (Bool × SkipSegment) := do
  if !(← seg.contains key) then return (false, seg)
  else
    let valueEntry ← seg.segment.getValue Slice.compare key
    let seg ← seg.touchTimestamp valueEntry timestamp
    let entry ← deref seg.valueEntries valueEntry
    let index ← entry.getValue timeStampCompare timestamp
    let list ← deref seg.indexes index
    if ← list.contains Slice.compare value then return (false, seg)
    else
      let newValue ← copySlice value
      let list ← list.insert Slice.compare newValue offset
      return (true, { seg with indexes := seg.indexes.set (index.getD 0) list })

/-- `Get`, with what the out-parameter holds before and after the call. -/
def get (seg : SkipSegment) (key : Bytes) (timestamp : UInt64) (value : Bytes) (offset : ℕ) :
    Except Stop (Bool × ℕ) := do
  if !(← seg.contains key) then return (false, offset)
  else
    let entry ← deref seg.valueEntries (← seg.segment.getValue Slice.compare key)
    if !(← entry.contains timeStampCompare timestamp) then return (false, offset)
    else
      let list ← deref seg.indexes (← entry.getValue timeStampCompare timestamp)
      if !(← list.contains Slice.compare value) then return (false, offset)
      else return (true, ← list.getValue Slice.compare value)

end SkipSegment

theorem timeStampCompare_eq : timeStampCompare = compare := by
  funext a b
  change _ = compareOfLessAndEq a b
  unfold timeStampCompare compareOfLessAndEq
  have hlt : a < b ↔ a.toNat < b.toNat := UInt64.lt_iff_toNat_lt
  have hgt : b < a ↔ b.toNat < a.toNat := UInt64.lt_iff_toNat_lt
  have heq : a = b ↔ a.toNat = b.toNat := UInt64.toNat_inj.symm
  simp only [gt_iff_lt, hlt, hgt, heq]
  split_ifs <;> first | rfl | omega

instance : TransCmp timeStampCompare := by
  rw [timeStampCompare_eq]
  infer_instance

instance : LawfulEqCmp timeStampCompare := by
  rw [timeStampCompare_eq]
  infer_instance

/-- The slice order puts two slices on one place exactly when they are equal. -/
theorem sliceEqual_iff (a b : Bytes) : sliceEqual a b = true ↔ Slice.compare a b = .eq := by
  constructor
  · intro h
    unfold sliceEqual at h
    rw [Bool.and_eq_true, decide_eq_true_eq, decide_eq_true_eq] at h
    obtain ⟨hlen, hcmp⟩ := h
    simp [Slice.compare, ← hlen, hcmp]
  · intro h
    obtain rfl : a = b := LawfulEqCmp.eq_of_compare h
    unfold Slice.compare at h
    simp only [lt_self_iff_false, if_false] at h
    unfold sliceEqual
    cases hm : memcmp a.length a a with
    | eq => simp
    | lt =>
      rw [hm] at h
      cases h
    | gt =>
      rw [hm] at h
      cases h

end Ibdb.Storage
