import Ibdb.Log.Layout
import Ibdb.Log.Reader

/-! What the reader finds at a position of the file, whatever it has in its buffer. -/
namespace Ibdb.Log
open Base

/-- The bytes of the file from a position to the end of its block. -/
def blockRest (c : Bytes) (p : ℕ) : Bytes := (c.drop p).take (blockEnd p - p)

inductive Outcome
  | eof
  | bad
  | record (type : ℕ) (payload : Bytes)
  deriving DecidableEq

/-- The fragment at a position, if its header is complete and its length and checksum are right. -/
def outcome (c : Bytes) (checksum : Bool) (p : ℕ) : Outcome :=
  let header := blockRest c p
  let length := headerLength header
  if header.length < kHeaderSize then .eof
  else if header.length < kHeaderSize + length then
    if c.length < blockEnd p then .eof else .bad
  else if headerType header = RecordType.kZeroType.toNat ∧ length = 0 then .bad
  else if checksum = true ∧ Crc32c.checksum ((header.drop 6).take (1 + length)) ≠
      Crc32c.unmask (UInt32.ofNat (LittleEndian.decode (header.take 4))) then .bad
  else .record (headerType header) ((header.drop kHeaderSize).take length)

section BlockRest
variable {c : Bytes} {p : ℕ}

theorem blockRest_length (c : Bytes) (p : ℕ) :
    (blockRest c p).length = min (blockEnd p - p) (c.length - p) := by
  rw [blockRest, List.length_take, List.length_drop]

theorem lt_blockEnd (p : ℕ) : p < blockEnd p := by
  rw [blockEnd_eq]
  omega

theorem blockEnd_of_lt {q : ℕ} (hle : p ≤ q) (hlt : q < blockEnd p) : blockEnd q = blockEnd p := by
  rw [blockEnd_eq] at hlt ⊢
  rw [blockEnd_eq]
  omega

theorem blockRest_drop {n : ℕ} (h : p + n < blockEnd p) :
    (blockRest c p).drop n = blockRest c (p + n) := by
  rw [blockRest, blockRest, blockEnd_of_lt (Nat.le_add_right p n) h, List.drop_take, List.drop_drop,
    Nat.sub_add_eq]

theorem blockRest_of_le (h : c.length ≤ p) : blockRest c p = [] := by
  rw [blockRest, List.drop_eq_nil_of_le h, List.take_nil]

end BlockRest

namespace Reader

structure Buffered (c : Bytes) (p : ℕ) (r : Reader) : Prop where
  content : r.file.content = c
  calls : r.file.calls = []
  buffer : r.buffer = blockRest c p
  eof : r.eof = decide (c.length < blockEnd p)
  pos : r.file.pos = p + r.buffer.length
  offset : r.endOfBufferOffset = UInt64.ofNat r.file.pos

structure AtBlock (c : Bytes) (p : ℕ) (r : Reader) : Prop where
  content : r.file.content = c
  calls : r.file.calls = []
  start : p % 4096 = 0
  buffer : r.buffer = []
  eof : r.eof = false
  pos : r.file.pos = p
  offset : r.endOfBufferOffset = UInt64.ofNat r.file.pos

/-- The reader is at a position of the file. -/
def Reads (c : Bytes) (p : ℕ) (r : Reader) : Prop := Buffered c p r ∨ AtBlock c p r

structure Ended (r : Reader) : Prop where
  buffer : r.buffer = []
  eof : r.eof = true

/-- What a physical read leaves alone. -/
structure SameRecord (r s : Reader) : Prop where
  checksum : s.checksum = r.checksum
  initialOffset : s.initialOffset = r.initialOffset
  lastRecordOffset : s.lastRecordOffset = r.lastRecordOffset
  resyncing : s.resyncing = r.resyncing

theorem SameRecord.trans {r s t : Reader} (h : SameRecord r s) (h' : SameRecord s t) :
    SameRecord r t :=
  ⟨h'.checksum.trans h.checksum, h'.initialOffset.trans h.initialOffset,
    h'.lastRecordOffset.trans h.lastRecordOffset, h'.resyncing.trans h.resyncing⟩

theorem sameRecord_clearBuffer (r : Reader) : SameRecord r r.clearBuffer := ⟨rfl, rfl, rfl, rfl⟩

theorem sameRecord_reportDrop (r : Reader) (bytes : UInt64) (reason : DropReason) :
    SameRecord r (r.reportDrop bytes reason) := by
  unfold reportDrop
  split
  · exact ⟨rfl, rfl, rfl, rfl⟩
  · split <;> exact ⟨rfl, rfl, rfl, rfl⟩

section Frame
variable {c : Bytes} {p : ℕ} {r s : Reader}

/-- Where the reader is does not depend on its reporter and its records. -/
theorem Reads.congr (h : Reads c p r) (hfile : s.file = r.file) (hbuffer : s.buffer = r.buffer)
    (heof : s.eof = r.eof) (hoffset : s.endOfBufferOffset = r.endOfBufferOffset) : Reads c p s := by
  rcases h with ⟨h1, h2, h3, h4, h5, h6⟩ | ⟨h1, h2, h3, h4, h5, h6, h7⟩
  · left
    constructor <;> simp_all
  · right
    constructor <;> simp_all

theorem reads_reportDrop (bytes : UInt64) (reason : DropReason) (h : Reads c p r) :
    Reads c p (r.reportDrop bytes reason) := by
  unfold reportDrop
  split
  · exact h
  · split
    · exact h.congr rfl rfl rfl rfl
    · exact h

end Frame

section Fill
variable {c : Bytes} {p : ℕ} {r : Reader}

/-- The buffer has no room for a header because the block ends there. -/
theorem Buffered.atBlock (h : Buffered c p r) (hshort : r.buffer.length < kHeaderSize)
    (heof : r.eof = false) : AtBlock c (headerPos p) r.clearBuffer := by
  have hend : blockEnd p ≤ c.length := by
    have hdecide := h.eof
    rw [heof] at hdecide
    simpa using hdecide.symm
  have hlength := h.buffer ▸ blockRest_length c p
  have hlt := lt_blockEnd p
  have hpos : headerPos p = blockEnd p := if_pos (by omega)
  have hat : r.file.pos = blockEnd p := by
    rw [h.pos]
    omega
  exact {
    content := h.content
    calls := h.calls
    start := by rw [hpos, blockEnd_mod]
    buffer := rfl
    eof := heof
    pos := hat.trans hpos.symm
    offset := h.offset }

theorem AtBlock.headerPos_eq (h : AtBlock c p r) : headerPos p = p := by
  rw [Log.headerPos_eq, h.start]
  rfl

/-- A block is read as far as the file goes. -/
theorem AtBlock.fillBuffer (h : AtBlock c p r) :
    ∃ s, r.fillBuffer = (true, s) ∧ Buffered c p s ∧ SameRecord r s ∧ s.reporter = r.reporter := by
  have hblock : blockEnd p - p = kBlockSize := by
    have hstart := h.start
    rw [blockEnd_eq]
    unfold kBlockSize
    omega
  have hread : (c.drop p).take kBlockSize = blockRest c p := by rw [blockRest, hblock]
  have hlength := blockRest_length c p
  have hlt := lt_blockEnd p
  unfold Reader.fillBuffer UnixSequentialFile.read
  simp only [clearBuffer, h.content, h.calls, h.pos, List.headD_nil, List.tail_nil, hread]
  split
  next hshort =>
    refine ⟨_, rfl, ?_, ⟨rfl, rfl, rfl, rfl⟩, rfl⟩
    exact {
      content := rfl
      calls := rfl
      buffer := rfl
      eof := by
        rw [eq_comm, decide_eq_true_eq]
        omega
      pos := rfl
      offset := by
        rw [h.offset, h.pos]
        simp only [UInt64.ofNat_add] }
  next hfull =>
    refine ⟨_, rfl, ?_, ⟨rfl, rfl, rfl, rfl⟩, rfl⟩
    exact {
      content := rfl
      calls := rfl
      buffer := rfl
      eof := by
        simp only [h.eof]
        rw [eq_comm, decide_eq_false_iff_not]
        omega
      pos := rfl
      offset := by
        rw [h.offset, h.pos]
        simp only [UInt64.ofNat_add] }

end Fill

section Parse
variable {c : Bytes} {p : ℕ} {r : Reader}

theorem Buffered.clearBuffer (h : Buffered c p r) (hlt : p < c.length) :
    Reads c (p + (blockRest c p).length) r.clearBuffer := by
  have hlength := blockRest_length c p
  have hpos := h.buffer ▸ h.pos
  have hblock := lt_blockEnd p
  have heof := h.eof
  rcases Nat.lt_or_ge c.length (blockEnd p) with hshort | hfull
  · left
    have hend : p + (blockRest c p).length = c.length := by omega
    rw [hend] at hpos ⊢
    rw [decide_eq_true hshort] at heof
    exact {
      content := h.content
      calls := h.calls
      buffer := (blockRest_of_le le_rfl).symm
      eof := heof.trans (decide_eq_true (lt_blockEnd c.length)).symm
      pos := hpos
      offset := h.offset }
  · right
    have hend : p + (blockRest c p).length = blockEnd p := by omega
    rw [hend] at hpos ⊢
    rw [decide_eq_false (Nat.not_lt.mpr hfull)] at heof
    exact {
      content := h.content
      calls := h.calls
      start := blockEnd_mod p
      buffer := rfl
      eof := heof
      pos := hpos
      offset := h.offset }

theorem Buffered.drop (h : Buffered c p r) {n : ℕ} (hn : n ≤ (blockRest c p).length)
    {s : Reader} (hfile : s.file = r.file) (heof : s.eof = r.eof)
    (hoffset : s.endOfBufferOffset = r.endOfBufferOffset)
    (hbuffer : s.buffer = (blockRest c p).drop n) : Reads c (p + n) s := by
  have hlength := blockRest_length c p
  have hpos := h.buffer ▸ h.pos
  have hdrop := List.length_drop (i := n) (l := blockRest c p)
  have hblock := lt_blockEnd p
  rcases Nat.lt_or_ge (p + n) (blockEnd p) with hin | hout
  · left
    have hsame := blockEnd_of_lt (Nat.le_add_right p n) hin
    exact {
      content := by rw [hfile, h.content]
      calls := by rw [hfile, h.calls]
      buffer := by rw [hbuffer, blockRest_drop hin]
      eof := by rw [heof, h.eof, hsame]
      pos := by
        rw [hfile, hpos, hbuffer]
        omega
      offset := by rw [hoffset, hfile, h.offset] }
  · right
    have hend : p + n = blockEnd p := by omega
    exact {
      content := by rw [hfile, h.content]
      calls := by rw [hfile, h.calls]
      start := by rw [hend, blockEnd_mod]
      buffer := by
        rw [hbuffer]
        apply List.drop_eq_nil_of_le
        omega
      eof := by
        rw [heof, h.eof]
        apply decide_eq_false
        omega
      pos := by
        rw [hfile, hpos]
        omega
      offset := by rw [hoffset, hfile, h.offset] }

/-- A position in front of what is in the buffer, as the reader computes it. -/
theorem Reads.offset_eq (h : Reads c p r) {q n : ℕ} (hq : q + kHeaderSize + n = p) :
    r.endOfBufferOffset - UInt64.ofNat r.buffer.length - UInt64.ofNat kHeaderSize -
      UInt64.ofNat n = UInt64.ofNat q := by
  have hend : r.endOfBufferOffset = UInt64.ofNat (p + r.buffer.length) := by
    rcases h with h | h
    · rw [h.offset, h.pos]
    · rw [h.offset, h.pos, h.buffer]
      rfl
  rw [hend, ← hq]
  simp only [UInt64.ofNat_add]
  rw [UInt64.add_sub_cancel, UInt64.add_assoc, UInt64.add_comm (UInt64.ofNat kHeaderSize),
    ← UInt64.add_assoc, UInt64.add_sub_cancel, UInt64.add_sub_cancel]

/-- A physical read from the position gives the outcome. A fragment in front of `initial_offset_`
is as good as a bad one. -/
def Finds (c : Bytes) (p : ℕ) (fragment : Bytes) (r : Reader) :
    Outcome → (ℕ × Bytes) × Reader → Prop
  | .eof, (found, s) => found = (kEof, fragment) ∧ Ended s ∧ SameRecord r s ∧ s.reporter = r.reporter
  | .bad, (found, s) =>
    found = (kBadRecord, fragment) ∧ Reads c (p + (blockRest c p).length) s ∧ SameRecord r s
  | .record type payload, (found, s) =>
    found = (if UInt64.ofNat p < r.initialOffset then (kBadRecord, []) else (type, payload)) ∧
      Reads c (p + kHeaderSize + payload.length) s ∧ SameRecord r s ∧ s.reporter = r.reporter

/-- The buffer is taken apart as `outcome` says. -/
theorem Buffered.parseRecord (h : Buffered c p r) (hroom : kHeaderSize ≤ r.buffer.length)
    (kLittleEndian : Bool) (fragment : Bytes) :
    Finds c p fragment r (outcome c r.checksum p) (r.parseRecord kLittleEndian fragment) := by
  rw [h.buffer] at hroom
  have hlength := blockRest_length c p
  have hclear : Reads c (p + (blockRest c p).length) r.clearBuffer := by
    apply h.clearBuffer
    unfold kHeaderSize at hroom
    omega
  have hsame := sameRecord_clearBuffer r
  have hcrc : decodeFixed32 kLittleEndian (blockRest c p) =
      LittleEndian.decode ((blockRest c p).take 4) := by
    apply decodeFixed32_eq
    exact le_trans (by decide) hroom
  unfold Reader.parseRecord outcome
  simp only [h.buffer, hcrc, Crc32c.value_eq, gt_iff_lt]
  rw [if_neg (Nat.not_lt.mpr hroom)]
  by_cases hshort : (blockRest c p).length < kHeaderSize + headerLength (blockRest c p)
  · rw [if_pos hshort, if_pos hshort]
    by_cases hend : c.length < blockEnd p
    · have heof : r.clearBuffer.eof = true := h.eof.trans (decide_eq_true hend)
      rw [if_pos hend, heof]
      exact ⟨rfl, ⟨rfl, heof⟩, ⟨rfl, rfl, rfl, rfl⟩, rfl⟩
    · have heof : r.clearBuffer.eof = false := h.eof.trans (decide_eq_false hend)
      rw [if_neg hend, heof]
      exact ⟨rfl, reads_reportDrop _ _ hclear, hsame.trans (sameRecord_reportDrop _ _ _)⟩
  rw [if_neg hshort, if_neg hshort]
  by_cases hzero : headerType (blockRest c p) = RecordType.kZeroType.toNat ∧
      headerLength (blockRest c p) = 0
  · rw [if_pos hzero, if_pos hzero]
    exact ⟨rfl, hclear, ⟨rfl, rfl, rfl, rfl⟩⟩
  rw [if_neg hzero, if_neg hzero]
  by_cases hsum : r.checksum = true ∧
      Crc32c.checksum (((blockRest c p).drop 6).take (1 + headerLength (blockRest c p))) ≠
        Crc32c.unmask (UInt32.ofNat (LittleEndian.decode ((blockRest c p).take 4)))
  · rw [if_pos hsum, if_pos hsum]
    exact ⟨rfl, reads_reportDrop _ _ hclear, hsame.trans (sameRecord_reportDrop _ _ _)⟩
  rw [if_neg hsum, if_neg hsum]
  have hpayload : (((blockRest c p).drop kHeaderSize).take
      (headerLength (blockRest c p))).length = headerLength (blockRest c p) := by
    rw [List.length_take, List.length_drop]
    omega
  have hnext : Reads c (p + (kHeaderSize + headerLength (blockRest c p)))
      { r with
        buffer := (blockRest c p).drop (kHeaderSize + headerLength (blockRest c p))
        bufferData := r.bufferData + kHeaderSize + headerLength (blockRest c p) } :=
    h.drop (Nat.not_lt.mp hshort) rfl rfl rfl rfl
  rw [← Nat.add_assoc] at hnext
  have hoffset := hnext.offset_eq rfl
  simp only at hoffset
  rw [hoffset]
  split
  next hearly =>
    refine ⟨(if_pos hearly).symm, ?_, ⟨rfl, rfl, rfl, rfl⟩, rfl⟩
    rwa [hpayload]
  next hlate =>
    refine ⟨(if_neg hlate).symm, ?_, ⟨rfl, rfl, rfl, rfl⟩, rfl⟩
    rwa [hpayload]

theorem Finds.of_same {s : Reader} {fragment : Bytes} {o : Outcome} {found : (ℕ × Bytes) × Reader}
    (h : Finds c p fragment s o found) (hsame : SameRecord r s) (hreporter : s.reporter = r.reporter) :
    Finds c p fragment r o found := by
  cases o with
  | eof =>
    obtain ⟨hfound, hended, hs, hrep⟩ := h
    exact ⟨hfound, hended, hsame.trans hs, hrep.trans hreporter⟩
  | bad =>
    obtain ⟨hfound, hreads, hs⟩ := h
    exact ⟨hfound, hreads, hsame.trans hs⟩
  | record type payload =>
    obtain ⟨hfound, hreads, hs, hrep⟩ := h
    rw [hsame.initialOffset] at hfound
    exact ⟨hfound, hreads, hsame.trans hs, hrep.trans hreporter⟩

theorem outcome_of_short (checksum : Bool) (h : (blockRest c p).length < kHeaderSize) :
    outcome c checksum p = .eof := by
  unfold outcome
  exact if_pos h

theorem lt_blockEnd_of_eof {checksum : Bool} (hroom : kHeaderSize ≤ (blockRest c p).length)
    (h : outcome c checksum p = .eof) : c.length < blockEnd p := by
  unfold outcome at h
  dsimp only at h
  rw [if_neg (Nat.not_lt.mpr hroom)] at h
  split_ifs at h
  assumption

theorem header_le_of_bad {checksum : Bool} (h : outcome c checksum p = .bad) :
    kHeaderSize ≤ (blockRest c p).length := by
  by_contra hshort
  rw [outcome_of_short checksum (Nat.not_le.mp hshort)] at h
  cases h

theorem header_le_of_record {checksum : Bool} {type : ℕ} {payload : Bytes}
    (h : outcome c checksum p = .record type payload) :
    kHeaderSize + payload.length ≤ (blockRest c p).length := by
  unfold outcome at h
  dsimp only at h
  split_ifs at h
  cases h
  rw [List.length_take, List.length_drop]
  omega

/-- A trailer is dropped and the next block is read. -/
theorem AtBlock.readPhysicalRecord (h : AtBlock c p r.clearBuffer)
    (hshort : r.buffer.length < kHeaderSize) (kLittleEndian : Bool) (fragment : Bytes) :
    Finds c p fragment r (outcome c r.checksum p)
      (r.readPhysicalRecord kLittleEndian fragment) := by
  have heof : r.eof = false := h.eof
  obtain ⟨s, hfill, hs, hsame, hreporter⟩ := h.fillBuffer
  have hsame' : SameRecord r s := (sameRecord_clearBuffer r).trans hsame
  have hfill' : r.fillBuffer = (true, s) := hfill
  unfold Reader.readPhysicalRecord
  rw [if_pos hshort, heof, hfill']
  simp only [Bool.false_eq_true, if_false]
  split
  next hnone =>
    rw [hs.buffer] at hnone
    have hlength := blockRest_length c p
    have hstart := h.start
    have hend : c.length < blockEnd p := by
      rw [blockEnd_eq] at hlength ⊢
      unfold kHeaderSize at hnone
      omega
    rw [outcome_of_short r.checksum hnone]
    exact ⟨rfl, ⟨rfl, hs.eof.trans (decide_eq_true hend)⟩,
      hsame'.trans ⟨rfl, rfl, rfl, rfl⟩, hreporter⟩
  next hroom =>
    have hfinds := hs.parseRecord (Nat.not_lt.mp hroom) kLittleEndian fragment
    rw [hsame'.checksum] at hfinds
    exact hfinds.of_same hsame' hreporter

/-- A fragment starts where the next header can be. -/
theorem Reads.readPhysicalRecord (h : Reads c p r) (kLittleEndian : Bool) (fragment : Bytes) :
    Finds c (headerPos p) fragment r (outcome c r.checksum (headerPos p))
      (r.readPhysicalRecord kLittleEndian fragment) := by
  rcases h with h | h
  · by_cases hshort : r.buffer.length < kHeaderSize
    · by_cases heof : r.eof = true
      · have hend : c.length < blockEnd p := of_decide_eq_true (h.eof.symm.trans heof)
        have hnone : (blockRest c (headerPos p)).length < kHeaderSize := by
          unfold headerPos
          split
          · rw [blockRest_of_le hend.le]
            decide
          · rwa [← h.buffer]
        rw [outcome_of_short r.checksum hnone]
        unfold Reader.readPhysicalRecord
        rw [if_pos hshort, if_pos heof]
        exact ⟨rfl, ⟨rfl, heof⟩, ⟨rfl, rfl, rfl, rfl⟩, rfl⟩
      · have hblock := h.atBlock hshort (Bool.eq_false_of_not_eq_true heof)
        exact hblock.readPhysicalRecord hshort kLittleEndian fragment
    · have hroom := Nat.not_lt.mp hshort
      have hlength := h.buffer ▸ blockRest_length c p
      have hpos : headerPos p = p := by
        apply if_neg
        omega
      rw [hpos]
      unfold Reader.readPhysicalRecord
      rw [if_neg hshort]
      exact h.parseRecord hroom kLittleEndian fragment
  · have hshort : r.buffer.length < kHeaderSize := by
      rw [h.buffer]
      decide
    have hblock : AtBlock c p r.clearBuffer :=
      ⟨h.content, h.calls, h.start, rfl, h.eof, h.pos, h.offset⟩
    rw [h.headerPos_eq]
    exact hblock.readPhysicalRecord hshort kLittleEndian fragment

/-- At the end every physical read finds the end again. -/
theorem Ended.readPhysicalRecord (h : Ended r) (kLittleEndian : Bool) (fragment : Bytes) :
    r.readPhysicalRecord kLittleEndian fragment = ((kEof, fragment), r.clearBuffer) := by
  unfold Reader.readPhysicalRecord
  rw [h.buffer, h.eof]
  rfl

end Parse

end Reader
end Ibdb.Log
