import Ibdb.Base.Utils
import Ibdb.Lib.Exec

/-! The in-memory index: column, then timestamp, then value, to the offset of a record.
Each skip list appears as the ordered map it implements; `Insert` is only called on an
absent key. -/
namespace Ibdb.Storage
open Base Std

abbrev Index := ExtTreeMap Bytes ℕ Slice.compare
abbrev ValueEntry := ExtTreeMap UInt64 Index compare
abbrev Entries := ExtTreeMap Bytes ValueEntry Slice.compare

structure Segment where
  segment : Entries

namespace Segment

def empty : Segment := ⟨∅⟩

def contains (seg : Segment) (key : Bytes) : Bool := seg.segment.contains key

def remove (key : Bytes) (seg : Segment) : Bool × Segment :=
  if seg.contains key then (true, ⟨seg.segment.erase key⟩) else (false, seg)

/-- The key is copied into a slice of its own. -/
def buildKeyIndex (key : Bytes) : Exec Fault Segment Bool := do
  let seg ← Exec.get
  if seg.contains key then return false else
  let memKey ← Exec.lift (Slice.ofBuffer key key.length)
  Exec.modify fun seg => ⟨seg.segment.insert memKey ∅⟩
  return true

def put (key : Bytes) (timestamp : UInt64) (value : Bytes) (offset : ℕ) :
    Exec Fault Segment Bool := do
  let seg ← Exec.get
  if !seg.contains key then return false else
  let valueEntry := seg.segment.getD key ∅
  let valueEntry := if valueEntry.contains timestamp then valueEntry
    else valueEntry.insert timestamp ∅
  Exec.modify fun seg => ⟨seg.segment.insert key valueEntry⟩
  let index := valueEntry.getD timestamp ∅
  if index.contains value then return false else
  let newValue ← Exec.lift (Slice.ofBuffer value value.length)
  Exec.modify fun seg =>
    ⟨seg.segment.insert key (valueEntry.insert timestamp (index.insert newValue offset))⟩
  return true

/-- `none` is the result `false`, which leaves the out-parameter alone. -/
def get (seg : Segment) (key : Bytes) (timestamp : UInt64) (value : Bytes) : Option ℕ :=
  if !seg.contains key then none else
  let valueEntry := seg.segment.getD key ∅
  if !valueEntry.contains timestamp then none else
  let index := valueEntry.getD timestamp ∅
  if !index.contains value then none else
  index[value]?

end Segment
end Ibdb.Storage
