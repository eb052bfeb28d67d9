import Ibdb.Log.Format
import Ibdb.Base.Crc32c

/-! The writer of the log. A record is cut into fragments, none of which crosses a block. -/
namespace Ibdb.Log
open Base

/-- What the calls of libc return for one fragment, in the terms of `DiskCalls`. -/
structure FragmentIO where
  trailer : Option ℕ
  header : Option ℕ
  payload : Option ℕ
  flush : Option ℕ

def FragmentIO.ok : FragmentIO := ⟨none, none, none, none⟩

structure IbdbWriter where
  dest : UnixWritableFile
  blockOffset : ℕ
  typeCrc : List UInt32

abbrev WriterM := Exec Stop (FileSystem × IbdbWriter)

namespace IbdbWriter

/-- `InitTypeCrc`, with its variable `t` at the given address. -/
def initTypeCrc (kLittleEndian : Bool) (t : ℕ) : List UInt32 :=
  (List.range (kMaxRecordType + 1)).map fun i =>
    Crc32c.value kLittleEndian t [UInt8.ofNat i]

def new (kLittleEndian : Bool) (t : ℕ) (dest : UnixWritableFile) : IbdbWriter :=
  ⟨dest, 0, initTypeCrc kLittleEndian t⟩

/-- `IbdbWriter(dest, dest_length)`. -/
def newAt (kLittleEndian : Bool) (t : ℕ) (dest : UnixWritableFile) (destLength : ℕ) : IbdbWriter :=
  ⟨dest, destLength % kBlockSize, initTypeCrc kLittleEndian t⟩

def append (data : Bytes) (result : Option ℕ) : WriterM Status :=
  Exec.mapError .fault <|
    Exec.zoom (·.2.dest) (fun f (fs, w) => (fs, { w with dest := f }))
      (UnixWritableFile.append data result)

def flush (result : Option ℕ) : WriterM Status :=
  Exec.mapError .fault <|
    Exec.zoom (fun (fs, w) => (fs, w.dest)) (fun (fs, f) (_, w) => (fs, { w with dest := f }))
      (UnixWritableFile.flush result)

def assert (holds : Bool) : WriterM Unit :=
  if holds then return else Exec.throw (.fault .assertFailed)

/-- The payload is the `n` bytes at `ptr`. -/
def emitPhysicalRecord (kLittleEndian : Bool) (io : FragmentIO) (t : RecordType) (ptr : ℕ)
    (payload : Bytes) : WriterM Status := do
  let (_, w) ← Exec.get
  let n := payload.length
  assert (n ≤ 0xffff)
  assert (w.blockOffset + kHeaderSize + n ≤ kBlockSize)
  let crc := Crc32c.extend kLittleEndian ptr (w.typeCrc.getD t.toNat 0) payload
  let crc := Crc32c.mask crc
  let buf := encodeFixed32 kLittleEndian crc.toNat ++
    [UInt8.ofNat (n &&& 0xff), UInt8.ofNat (n >>> 8), UInt8.ofNat t.toNat]
  let s ← append buf io.header
  let s ← if s.isOk then do
      let s ← append payload io.payload
      if s.isOk then flush io.flush else pure s
    else pure s
  Exec.modify fun (fs, w) => (fs, { w with blockOffset := w.blockOffset + kHeaderSize + n })
  return s

/-- Switch to a new block when the rest of this one has no room for a header. -/
def switchBlock (io : FragmentIO) : WriterM Unit := do
  let (_, w) ← Exec.get
  let leftover : ℤ := kBlockSize - w.blockOffset
  assert (0 ≤ leftover)
  if leftover < kHeaderSize then do
    -- the status of this append is dropped
    if 0 < leftover then
      let _ ← append (List.replicate leftover.toNat 0) io.trailer
    Exec.modify fun (fs, w) => (fs, { w with blockOffset := 0 })
  let (_, w) ← Exec.get
  assert (0 ≤ (kBlockSize : ℤ) - w.blockOffset - kHeaderSize)

def recordType (begin isEnd : Bool) : RecordType :=
  if begin && isEnd then .kFullType
  else if begin then .kFirstType
  else if isEnd then .kLastType
  else .kMiddleType

/-- The loop of `AddRecord`; `ios` are the calls of the next rounds, and those after them complete. -/
def addLoop (kLittleEndian : Bool) :
    ℕ → List FragmentIO → Bool → ℕ → Bytes → WriterM Status
  | 0, _, _, _, _ => Exec.throw .fuel
  | fuel + 1, ios, begin, ptr, left => do
    let io := ios.headD .ok
    switchBlock io
    let (_, w) ← Exec.get
    let avail := kBlockSize - w.blockOffset - kHeaderSize
    let fragmentLength := if left.length < avail then left.length else avail
    let type := recordType begin (left.length = fragmentLength)
    let s ← emitPhysicalRecord kLittleEndian io type ptr (left.take fragmentLength)
    let left := left.drop fragmentLength
    if s.isOk ∧ 0 < left.length then
      addLoop kLittleEndian fuel ios.tail false (ptr + fragmentLength) left
    else return s

/-- A round takes at least a byte, but for one at the end of a block and one for an empty record. -/
def addRecord (kLittleEndian : Bool) (ios : List FragmentIO) (ptr : ℕ) (slice : Bytes) :
    WriterM Status :=
  addLoop kLittleEndian (slice.length + 2) ios true ptr slice

/-- A record after another, each at its address, where every call of libc completes. -/
def addRecords (kLittleEndian : Bool) : List (ℕ × Bytes) → WriterM (List Status)
  | [] => return []
  | (ptr, slice) :: rs => do
    let s ← addRecord kLittleEndian [] ptr slice
    return s :: (← addRecords kLittleEndian rs)

end IbdbWriter
end Ibdb.Log
