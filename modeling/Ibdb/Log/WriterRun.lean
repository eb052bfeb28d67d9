import Ibdb.Log.Layout
import Ibdb.Log.Writer

/-! The file that a writer leaves when every append succeeds. -/
namespace Ibdb.Log
open Base Fragmented

/-- The file has the bytes, and the writer says so. -/
structure Writes (content : Bytes) (s : FileSystem × IbdbWriter) : Prop where
  filestream : s.2.dest.filestream = true
  buffer : s.2.dest.buffer = []
  file : s.1 s.2.dest.path = some content
  blockOffset_le : s.2.blockOffset ≤ kBlockSize
  blockOffset_mod : s.2.blockOffset % kBlockSize = content.length % kBlockSize
  typeCrc : ∀ t : RecordType, s.2.typeCrc.getD t.toNat 0 = Crc32c.checksum [UInt8.ofNat t.toNat]

namespace IbdbWriter
variable (kLittleEndian : Bool) {content : Bytes} {s : FileSystem × IbdbWriter}

theorem initTypeCrc_getD (t : ℕ) (type : RecordType) :
    (initTypeCrc kLittleEndian t).getD type.toNat 0 = Crc32c.checksum [UInt8.ofNat type.toNat] := by
  have hlt : type.toNat < kMaxRecordType + 1 := by cases type <;> decide
  unfold initTypeCrc
  rw [List.getD_eq_getElem _ _ (by simpa using hlt), List.getElem_map, List.getElem_range,
    Crc32c.value_eq]

theorem append_ok (h : s.2.dest.filestream = true) (data : Bytes) :
    append data none s =
      (.ok .ok, (s.1, { s.2 with dest := { s.2.dest with buffer := s.2.dest.buffer ++ data } })) := by
  simp [append, UnixWritableFile.append, Exec.bind_apply, h, written, Except.mapError]

theorem flush_ok (h : s.2.dest.filestream = true) :
    flush none s = (.ok .ok, (s.1.append s.2.dest.path s.2.dest.buffer,
      { s.2 with dest := { s.2.dest with buffer := [] } })) := by
  simp [flush, UnixWritableFile.flush, UnixWritableFile.sync, UnixWritableFile.drain,
    Exec.bind_apply, h, Except.mapError]

/-- A rest without room for a header is filled, and the fragment goes to the next block. -/
theorem switchBlock_ok (hfile : s.2.dest.filestream = true) (hle : s.2.blockOffset ≤ kBlockSize) :
    switchBlock .ok s =
      if kBlockSize - s.2.blockOffset < kHeaderSize then
        (.ok (), (s.1, { s.2 with
          dest := { s.2.dest with
            buffer := s.2.dest.buffer ++ List.replicate (kBlockSize - s.2.blockOffset) 0 }
          blockOffset := 0 }))
      else (.ok (), s) := by
  have hassert : decide (0 ≤ (kBlockSize : ℤ) - s.2.blockOffset) = true := by
    apply decide_eq_true
    omega
  have hlt : (kBlockSize : ℤ) - s.2.blockOffset < kHeaderSize ↔
      kBlockSize - s.2.blockOffset < kHeaderSize := by omega
  have hpos : 0 < (kBlockSize : ℤ) - s.2.blockOffset ↔ 0 < kBlockSize - s.2.blockOffset := by omega
  have hnat : ((kBlockSize : ℤ) - s.2.blockOffset).toNat = kBlockSize - s.2.blockOffset := by omega
  by_cases h7 : kBlockSize - s.2.blockOffset < kHeaderSize
  · have hroom : decide (0 ≤ (kBlockSize : ℤ) - (0 : ℕ) - kHeaderSize) = true := by decide
    by_cases h0 : 0 < kBlockSize - s.2.blockOffset
    · simp only [switchBlock, Exec.bind_apply, Exec.get_apply, assert, hassert, hlt, hpos, hnat, h7,
        h0, if_true, Exec.pure_apply, FragmentIO.ok, append_ok hfile, Exec.modify_apply, hroom]
    · have hzero : kBlockSize - s.2.blockOffset = 0 := by omega
      simp only [switchBlock, Exec.bind_apply, Exec.get_apply, assert, hassert, hlt, hpos, h7, h0,
        if_true, if_false, Exec.pure_apply, Exec.modify_apply, hroom]
      simp [hzero]
  · have hroom : decide (0 ≤ (kBlockSize : ℤ) - s.2.blockOffset - kHeaderSize) = true := by
      apply decide_eq_true
      omega
    simp only [switchBlock, Exec.bind_apply, Exec.get_apply, assert, hassert, hlt, h7, if_true,
      if_false, Exec.pure_apply, hroom]

/-- The bytes of a fragment that fits in the block are written out. -/
theorem emitPhysicalRecord_ok (hfile : s.2.dest.filestream = true)
    (hcrc : ∀ t : RecordType, s.2.typeCrc.getD t.toNat 0 = Crc32c.checksum [UInt8.ofNat t.toNat])
    (f : Fragment) (ptr : ℕ)
    (hroom : s.2.blockOffset + kHeaderSize + f.payload.length ≤ kBlockSize) :
    emitPhysicalRecord kLittleEndian .ok (recordTypeOf f.kind) ptr f.payload s =
      (.ok .ok, (s.1.append s.2.dest.path (s.2.dest.buffer ++ f.bytes),
        { s.2 with
          dest := { s.2.dest with buffer := [] }
          blockOffset := s.2.blockOffset + kHeaderSize + f.payload.length })) := by
  have hn : f.payload.length ≤ 0xffff := by
    unfold kBlockSize at hroom
    omega
  have hsum := Crc32c.extend_checksum kLittleEndian ptr [f.typeByte] f.payload
  rw [Fragment.typeByte, ← hcrc, List.getD_eq_getElem?_getD] at hsum
  simp [emitPhysicalRecord, Exec.bind_apply, assert, hn, hroom, append_ok, flush_ok, hfile,
    FragmentIO.ok, encodeFixed32_eq, hsum, Fragment.bytes, Fragment.header,
    Fragment.typeByte]

end IbdbWriter

theorem recordType_eq (begin isEnd : Bool) :
    IbdbWriter.recordType begin isEnd = recordTypeOf (kindOf begin isEnd) := by
  cases begin <;> cases isEnd <;> rfl

namespace Writes
variable (kLittleEndian : Bool) {content : Bytes} {s : FileSystem × IbdbWriter}

theorem switchBlock (hs : Writes content s) :
    IbdbWriter.switchBlock .ok s = (.ok (), (s.1, { s.2 with
      dest := { s.2.dest with
        buffer := List.replicate (headerPos content.length - content.length) 0 }
      blockOffset := headerPos content.length % kBlockSize })) := by
  have hle := hs.blockOffset_le
  have hmod := hs.blockOffset_mod
  have hpos := headerPos_eq content.length
  unfold kBlockSize at hle hmod
  rw [IbdbWriter.switchBlock_ok hs.filestream hs.blockOffset_le, hs.buffer]
  unfold kBlockSize kHeaderSize
  split
  next h7 =>
    have hzero : headerPos content.length % (4 * 1024) = 0 := by
      rw [hpos]
      split_ifs <;> omega
    have hfill : headerPos content.length - content.length = 4 * 1024 - s.2.blockOffset := by
      rw [hpos]
      split_ifs <;> omega
    rw [hzero, hfill, List.nil_append]
  next h7 =>
    have hsame : headerPos content.length = content.length := by
      rw [hpos, if_neg (by omega)]
    have hoff : content.length % (4 * 1024) = s.2.blockOffset := by omega
    rw [hsame, hoff, Nat.sub_self, List.replicate_zero, ← hs.buffer]

theorem fragment (hs : Writes content s) {f : Fragment} (htag : f.tag = headerPos content.length)
    (hroom : f.payload.length ≤ avail f.tag) :
    Writes (content ++ bytesFrom content.length [f])
      (s.1.append s.2.dest.path (List.replicate (f.tag - content.length) 0 ++ f.bytes),
        { s.2 with
          dest := { s.2.dest with buffer := [] }
          blockOffset := f.tag % kBlockSize + kHeaderSize + f.payload.length }) := by
  have hlaid : Laid content.length [f] := ⟨htag, hroom, trivial⟩
  have hlength := hlaid.length
  have hmod := headerPos_mod content.length
  rw [← htag] at hmod
  rw [avail_eq] at hroom
  simp only [stopFrom_cons, stopFrom_nil, Fragment.stop] at hlength
  exact {
    filestream := hs.filestream
    buffer := rfl
    file := by simp [FileSystem.append, hs.file, bytesFrom]
    blockOffset_le := by
      unfold kBlockSize kHeaderSize
      simp only
      omega
    blockOffset_mod := by
      rw [List.length_append, hlength, Nat.add_assoc, Nat.mod_add_mod, ← Nat.add_assoc]
    typeCrc := hs.typeCrc }

theorem addLoop_succ (hs : Writes content s) (fuel : ℕ) (begin : Bool) (ptr : ℕ) (left : Bytes)
    {pos n : ℕ} (hpos : headerPos content.length = pos)
    (hn : (if left.length < avail pos then left.length else avail pos) = n) :
    ∃ t, Writes (content ++ bytesFrom content.length
        [⟨kindOf begin (left.length = n), left.take n, pos⟩]) t ∧
      t.2.dest.path = s.2.dest.path ∧
      IbdbWriter.addLoop kLittleEndian (fuel + 1) [] begin ptr left s =
        if 0 < (left.drop n).length then
          IbdbWriter.addLoop kLittleEndian fuel [] false (ptr + n) (left.drop n) t
        else (.ok .ok, t) := by
  have hmod := headerPos_mod content.length
  rw [hpos] at hmod
  have havail : kBlockSize - pos % kBlockSize - kHeaderSize = avail pos := by
    rw [avail_eq]
    unfold kBlockSize kHeaderSize
    omega
  have hroom : (left.take n).length ≤ avail pos := by
    rw [List.length_take, ← hn]
    split_ifs <;> omega
  have hfits : pos % kBlockSize + kHeaderSize + (left.take n).length ≤ kBlockSize := by
    rw [avail_eq] at hroom
    unfold kBlockSize kHeaderSize
    omega
  have hemit := @IbdbWriter.emitPhysicalRecord_ok kLittleEndian (s.1, { s.2 with
      dest := { s.2.dest with buffer := List.replicate (pos - content.length) 0 }
      blockOffset := pos % kBlockSize })
    hs.filestream hs.typeCrc ⟨kindOf begin (left.length = n), left.take n, pos⟩ ptr hfits
  simp only at hemit
  have hnext := @fragment content s hs ⟨kindOf begin (left.length = n), left.take n, pos⟩
    hpos.symm hroom
  refine ⟨_, hnext, rfl, ?_⟩
  rw [IbdbWriter.addLoop]
  simp only [List.headD_nil, List.tail_nil]
  rw [Exec.bind_ok hs.switchBlock, Exec.bind_ok (Exec.get_apply _)]
  simp only [hpos, havail, hn, recordType_eq]
  rw [Exec.bind_ok hemit]
  simp only [Status.isOk_ok, true_and]
  split <;> rfl

/-- The loop writes the fragments of what is left, and its fuel is enough for them. -/
theorem addLoop (hs : Writes content s) (begin : Bool) (ptr : ℕ) (left : Bytes) {fuel : ℕ}
    (hfuel : left.length + 2 ≤ fuel ∨ 0 < avail (headerPos content.length) ∧ left.length < fuel) :
    ∃ t, Writes (content ++ bytesFrom content.length (fragments begin content.length left)) t ∧
      t.2.dest.path = s.2.dest.path ∧
      IbdbWriter.addLoop kLittleEndian fuel [] begin ptr left s = (.ok .ok, t) := by
  induction fuel generalizing content s begin ptr left with
  | zero => omega
  | succ fuel ih =>
    rcases Nat.lt_or_ge (avail (headerPos content.length)) left.length with hlt | hle
    · have hn : (if left.length < avail (headerPos content.length) then left.length
          else avail (headerPos content.length)) = avail (headerPos content.length) :=
        if_neg (Nat.lt_asymm hlt)
      obtain ⟨t, ht, hpath, hloop⟩ := hs.addLoop_succ kLittleEndian fuel begin ptr left rfl hn
      have hneg : decide (left.length = avail (headerPos content.length)) = false := by
        apply decide_eq_false
        omega
      rw [hneg] at ht
      have hlength := @length_bytesFrom_singleton content
        ⟨kindOf begin false, left.take (avail (headerPos content.length)),
          headerPos content.length⟩ rfl
      have hstop : Fragment.stop ⟨kindOf begin false,
          left.take (avail (headerPos content.length)), headerPos content.length⟩ =
          blockEnd (headerPos content.length) := by
        rw [Fragment.stop, List.length_take_of_le hlt.le, headerPos_add_avail]
      have hroom : 0 < avail (headerPos (blockEnd (headerPos content.length))) := by
        rw [headerPos_blockEnd, avail_blockEnd]
        omega
      have hdrop := List.length_drop (i := avail (headerPos content.length)) (l := left)
      rw [← hstop, ← hlength] at hroom
      obtain ⟨u, hu, hpath', hrest⟩ := ih ht false (ptr + avail (headerPos content.length))
        (left.drop (avail (headerPos content.length))) (Or.inr ⟨hroom, by omega⟩)
      rw [hlength, List.append_assoc, hstop] at hu
      refine ⟨u, ?_, hpath'.trans hpath, ?_⟩
      · rwa [fragments_of_lt begin hlt, bytesFrom_cons, hstop]
      · rw [hloop, if_pos (by omega), hrest]
    · have hn : (if left.length < avail (headerPos content.length) then left.length
          else avail (headerPos content.length)) = left.length := by
        split_ifs <;> omega
      obtain ⟨t, ht, hpath, hloop⟩ := hs.addLoop_succ kLittleEndian fuel begin ptr left rfl hn
      rw [List.take_length, decide_eq_true rfl] at ht
      rw [fragments_of_le begin hle]
      refine ⟨t, ht, hpath, ?_⟩
      rw [hloop, List.drop_length]
      rfl

theorem addRecord (hs : Writes content s) (ptr : ℕ) (slice : Bytes) :
    ∃ t, Writes (content ++ bytesFrom content.length (fragments true content.length slice)) t ∧
      t.2.dest.path = s.2.dest.path ∧
      IbdbWriter.addRecord kLittleEndian [] ptr slice s = (.ok .ok, t) :=
  hs.addLoop kLittleEndian true ptr slice (Or.inl le_rfl)

theorem addRecords (hs : Writes content s) (rs : List (ℕ × Bytes)) :
    ∃ t, Writes (content ++ bytesFrom content.length (emitted content.length (rs.map Prod.snd))) t ∧
      t.2.dest.path = s.2.dest.path ∧
      IbdbWriter.addRecords kLittleEndian rs s = (.ok (rs.map fun _ => .ok), t) := by
  induction rs generalizing content s with
  | nil =>
    refine ⟨s, ?_, rfl, rfl⟩
    rwa [List.map_nil, emitted_nil, bytesFrom, List.append_nil]
  | cons r rs ih =>
    obtain ⟨ptr, slice⟩ := r
    obtain ⟨t, ht, hpath, hadd⟩ := hs.addRecord kLittleEndian ptr slice
    have hlength : (content ++
        bytesFrom content.length (fragments true content.length slice)).length =
        stopFrom content.length (fragments true content.length slice) := by
      rw [List.length_append, (laid_fragments true content.length slice).length]
    obtain ⟨u, hu, hpath', hrest⟩ := ih ht
    rw [hlength, List.append_assoc] at hu
    refine ⟨u, ?_, hpath'.trans hpath, ?_⟩
    · rwa [List.map_cons, emitted_cons, bytesFrom_append]
    · rw [IbdbWriter.addRecords, Exec.bind_ok hadd, Exec.bind_ok hrest]
      rfl

end Writes

structure Fresh (kLittleEndian : Bool) (s : FileSystem × IbdbWriter) : Prop where
  file : s.1 s.2.dest.path = some []
  buffer : s.2.dest.buffer = []
  filestream : s.2.dest.filestream = true
  new : ∃ t, s.2 = IbdbWriter.new kLittleEndian t s.2.dest

theorem Fresh.writes {kLittleEndian : Bool} {s : FileSystem × IbdbWriter}
    (h : Fresh kLittleEndian s) : Writes [] s := by
  obtain ⟨t, hnew⟩ := h.new
  exact {
    filestream := h.filestream
    buffer := h.buffer
    file := h.file
    blockOffset_le := by
      rw [hnew]
      exact Nat.zero_le kBlockSize
    blockOffset_mod := by
      rw [hnew]
      rfl
    typeCrc := by
      rw [hnew]
      exact IbdbWriter.initTypeCrc_getD kLittleEndian t }

theorem Fresh.addRecords {kLittleEndian : Bool} {s : FileSystem × IbdbWriter}
    (h : Fresh kLittleEndian s) (rs : List (ℕ × Bytes)) :
    ∃ t, IbdbWriter.addRecords kLittleEndian rs s = (.ok (rs.map fun _ => .ok), t) ∧
      t.1 s.2.dest.path = some (layout (rs.map Prod.snd)) := by
  obtain ⟨t, ht, hpath, hadd⟩ := h.writes.addRecords kLittleEndian rs
  refine ⟨t, hadd, ?_⟩
  rw [← hpath, ht.file]
  rfl

end Ibdb.Log
