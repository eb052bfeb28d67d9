import Ibdb.Log.Format
import Ibdb.Base.Crc32c

/-! The reader of the log, which checks each fragment and puts the records together again. -/
namespace Ibdb.Log
open Base

/-- Why bytes are dropped: `Status::Corruption` with its text, or the status of the file. -/
inductive DropReason
  | corruption (reason : Bytes)
  | file (status : Status)
  deriving DecidableEq

/-- A call `Corruption(bytes, status)` of the reporter. -/
structure Report where
  bytes : UInt64
  reason : DropReason
  deriving DecidableEq

/-- `reporter` holds the calls so far, and nothing for a null pointer. `bufferData` is the address
of the bytes of `buffer_`, which are kept at `backingStore`. -/
structure Reader where
  file : UnixSequentialFile
  reporter : Option (List Report)
  checksum : Bool
  backingStore : ℕ
  buffer : Bytes
  bufferData : ℕ
  eof : Bool
  lastRecordOffset : UInt64
  endOfBufferOffset : UInt64
  initialOffset : UInt64
  resyncing : Bool

/-- The values that extend the record types. -/
def kEof : ℕ := kMaxRecordType + 1

def kBadRecord : ℕ := kMaxRecordType + 2

/-- The length that a header gives, in its bytes 4 and 5. -/
def headerLength (header : Bytes) : ℕ :=
  let a := (header.getD 4 0).toNat &&& 0xff
  let b := (header.getD 5 0).toNat &&& 0xff
  a ||| b <<< 8

/-- The type that a header gives: a `char`, which is signed, as an `unsigned int`. -/
def headerType (header : Bytes) : ℕ :=
  let c := (header.getD 6 0).toNat
  if c < 2 ^ 7 then c else 2 ^ 32 - 2 ^ 8 + c

namespace Reader

def new (file : UnixSequentialFile) (reporter : Option (List Report)) (checksum : Bool)
    (backingStore : ℕ) (initialOffset : UInt64) : Reader where
  file := file
  reporter := reporter
  checksum := checksum
  backingStore := backingStore
  buffer := []
  bufferData := 0
  eof := false
  lastRecordOffset := 0
  endOfBufferOffset := 0
  initialOffset := initialOffset
  resyncing := decide (0 < initialOffset)

def reportDrop (bytes : UInt64) (reason : DropReason) (r : Reader) : Reader :=
  match r.reporter with
  | none => r
  | some reports =>
    if r.initialOffset ≤ r.endOfBufferOffset - UInt64.ofNat r.buffer.length - bytes then
      { r with reporter := some (reports ++ [⟨bytes, reason⟩]) }
    else r

def reportCorruption (bytes : ℕ) (reason : Bytes) (r : Reader) : Reader :=
  r.reportDrop (UInt64.ofNat bytes) (.corruption reason)

def clearBuffer (r : Reader) : Reader := { r with buffer := [] }

/-- The start of the block in which `SkipToInitialBlock` looks for the offset. -/
def blockStartLocation (initialOffset : UInt64) : UInt64 :=
  let offsetInBlock := initialOffset % UInt64.ofNat kBlockSize
  let blockStartLocation := initialOffset - offsetInBlock
  -- don't search a block if we'd be in the trailer
  if UInt64.ofNat (kBlockSize - 6) < offsetInBlock then
    blockStartLocation + UInt64.ofNat kBlockSize
  else blockStartLocation

/-- The rest of `SkipToInitialBlock` once the file has skipped. -/
def afterSkip (location : UInt64) : Status × UnixSequentialFile → Reader → Bool × Reader
  | (skipStatus, file), r =>
    let r := { r with file := file }
    if !skipStatus.isOk then (false, r.reportDrop location (.file skipStatus)) else (true, r)

def skipToInitialBlock (r : Reader) : Bool × Reader :=
  let location := blockStartLocation r.initialOffset
  let r := { r with endOfBufferOffset := location }
  if 0 < location then r.afterSkip location (r.file.skip location) else (true, r)

/-- The next read of a block, and whether its status was ok. -/
def fillBuffer (r : Reader) : Bool × Reader :=
  let r := r.clearBuffer
  match r.file.read kBlockSize with
  | (.error status, file) =>
    let r := { r with file := file }
    let r := r.reportDrop (UInt64.ofNat kBlockSize) (.file status)
    (false, { r with eof := true })
  | (.ok data, file) =>
    let r := { r with
      file := file
      buffer := data
      bufferData := r.backingStore
      endOfBufferOffset := r.endOfBufferOffset + UInt64.ofNat data.length }
    (true, if data.length < kBlockSize then { r with eof := true } else r)

/-- The fragment at the front of a buffer that holds a header. `fragment` is what `*result` was. -/
def parseRecord (kLittleEndian : Bool) (fragment : Bytes) (r : Reader) : (ℕ × Bytes) × Reader :=
  let header := r.buffer
  let type := headerType header
  let length := headerLength header
  let dropSize := r.buffer.length
  if kHeaderSize + length > r.buffer.length then
    let r := r.clearBuffer
    if !r.eof then
      ((kBadRecord, fragment), r.reportCorruption dropSize (ascii "bad record length"))
    else ((kEof, fragment), r)
  else if type = RecordType.kZeroType.toNat ∧ length = 0 then
    ((kBadRecord, fragment), r.clearBuffer)
  else
  let expectedCrc := Crc32c.unmask (UInt32.ofNat (decodeFixed32 kLittleEndian header))
  let actualCrc := Crc32c.value kLittleEndian (r.bufferData + 6) ((header.drop 6).take (1 + length))
  if r.checksum ∧ actualCrc ≠ expectedCrc then
    ((kBadRecord, fragment), r.clearBuffer.reportCorruption dropSize (ascii "checksum mismatch"))
  else
  let r := { r with
    buffer := r.buffer.drop (kHeaderSize + length)
    bufferData := r.bufferData + kHeaderSize + length }
  -- skip a physical record that started before `initial_offset_`
  if r.endOfBufferOffset - UInt64.ofNat r.buffer.length - UInt64.ofNat kHeaderSize -
      UInt64.ofNat length < r.initialOffset then ((kBadRecord, []), r)
  else ((type, (header.drop kHeaderSize).take length), r)

/-- `ReadPhysicalRecord(result)`. A read that leaves no header in the buffer has set `eof_`, so its
loop goes round twice at most. -/
def readPhysicalRecord (kLittleEndian : Bool) (fragment : Bytes) (r : Reader) :
    (ℕ × Bytes) × Reader :=
  if r.buffer.length < kHeaderSize then
    if r.eof then ((kEof, fragment), r.clearBuffer)
    else
      match r.fillBuffer with
      | (false, r) => ((kEof, fragment), r)
      | (true, r) =>
        if r.buffer.length < kHeaderSize then ((kEof, fragment), r.clearBuffer)
        else r.parseRecord kLittleEndian fragment
  else r.parseRecord kLittleEndian fragment

structure Locals where
  scratch : Bytes
  inFragmentedRecord : Bool
  prospectiveRecordOffset : UInt64
  fragment : Bytes

/-- The rest of a round of `ReadRecord`, after its physical read. Either the call returns, with
`*record` if it returns true, or another round follows. -/
def round (recordType : ℕ) (v : Locals) (r : Reader) : (Option Bytes ⊕ Locals) × Reader :=
  let physicalRecordOffset := r.endOfBufferOffset - UInt64.ofNat r.buffer.length -
    UInt64.ofNat kHeaderSize - UInt64.ofNat v.fragment.length
  if r.resyncing ∧ recordType = RecordType.kMiddleType.toNat then (.inr v, r)
  else if r.resyncing ∧ recordType = RecordType.kLastType.toNat then
    (.inr v, { r with resyncing := false })
  else
  let r := { r with resyncing := false }
  if recordType = RecordType.kFullType.toNat then
    let r := if v.inFragmentedRecord ∧ v.scratch ≠ [] then
        r.reportCorruption v.scratch.length (ascii "partial record without end(1)")
      else r
    (.inl (some v.fragment), { r with lastRecordOffset := physicalRecordOffset })
  else if recordType = RecordType.kFirstType.toNat then
    let r := if v.inFragmentedRecord ∧ v.scratch ≠ [] then
        r.reportCorruption v.scratch.length (ascii "partial record without end(2)")
      else r
    (.inr { v with
      scratch := v.fragment
      inFragmentedRecord := true
      prospectiveRecordOffset := physicalRecordOffset }, r)
  else if recordType = RecordType.kMiddleType.toNat then
    if !v.inFragmentedRecord then
      (.inr v, r.reportCorruption v.fragment.length
        (ascii "missing start of fragmented record(1)"))
    else (.inr { v with scratch := v.scratch ++ v.fragment }, r)
  else if recordType = RecordType.kLastType.toNat then
    if !v.inFragmentedRecord then
      (.inr v, r.reportCorruption v.fragment.length
        (ascii "missing start of fragmented record(2)"))
    else (.inl (some (v.scratch ++ v.fragment)),
      { r with lastRecordOffset := v.prospectiveRecordOffset })
  else if recordType = kEof then (.inl none, r)
  else if recordType = kBadRecord then
    if v.inFragmentedRecord then
      (.inr { v with inFragmentedRecord := false, scratch := [] },
        r.reportCorruption v.scratch.length (ascii "error in middle of record"))
    else (.inr v, r)
  else
    let bytes := v.fragment.length + if v.inFragmentedRecord then v.scratch.length else 0
    (.inr { v with inFragmentedRecord := false, scratch := [] },
      r.reportCorruption bytes (ascii "unknown record type " ++ ascii (toString recordType)))

def recordLoop (kLittleEndian : Bool) : ℕ → Locals → Reader → Except Stop (Option Bytes × Reader)
  | 0, _, _ => .error .fuel
  | fuel + 1, v, r =>
    let ((recordType, fragment), r) := r.readPhysicalRecord kLittleEndian v.fragment
    match r.round recordType { v with fragment := fragment } with
    | (.inl record, r) => .ok (record, r)
    | (.inr v, r) => recordLoop kLittleEndian fuel v r

/-- Every round but the last takes a header out of the buffer and the rest of the file. -/
def readRecord (kLittleEndian : Bool) (r : Reader) : Except Stop (Option Bytes × Reader) :=
  let loop (r : Reader) := r.recordLoop kLittleEndian
    (r.buffer.length + (r.file.content.length - r.file.pos) + 1) ⟨[], false, 0, []⟩
  if r.lastRecordOffset < r.initialOffset then
    match r.skipToInitialBlock with
    | (false, r) => .ok (none, r)
    | (true, r) => loop r
  else loop r

/-- So many calls of `ReadRecord`, each with the record it gives and `LastRecordOffset()` after
it. -/
def readRecords (kLittleEndian : Bool) :
    ℕ → Reader → Except Stop (List (Option (Bytes × UInt64)) × Reader)
  | 0, r => .ok ([], r)
  | n + 1, r => do
    let (record, r) ← r.readRecord kLittleEndian
    let (answers, s) ← r.readRecords kLittleEndian n
    return (record.map (·, r.lastRecordOffset) :: answers, s)

end Reader
end Ibdb.Log
