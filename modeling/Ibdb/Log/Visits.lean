import Ibdb.Lib.Ranges
import Ibdb.Log.Seek

/-! The rounds of the reader's loop over a run of calls, on a file with any bytes. -/
namespace Ibdb.Log
open Base
namespace Reader

/-- The reader whose buffer a physical read takes a header from, if it comes to one. -/
def parsed (r : Reader) : Option Reader :=
  if r.buffer.length < kHeaderSize then
    if r.eof then none
    else
      match r.fillBuffer with
      | (false, _) => none
      | (true, s) => if s.buffer.length < kHeaderSize then none else some s
  else some r

/-- The bytes of the file that the buffer holds the end of after a physical read, if it held the
end of `block` before it. -/
def blockAfter (block : AddressRange) (r : Reader) : AddressRange :=
  if r.buffer.length < kHeaderSize ∧ r.eof = false then
    ⟨r.file.pos, r.fillBuffer.2.buffer.length⟩
  else block

/-- The start of a round: the bytes of the file that the last `Read` gave, the variables, and the
reader. -/
structure Visit where
  block : AddressRange
  locals : Locals
  reader : Reader

section Visits
variable (kLittleEndian : Bool)

/-- The rounds of `recordLoop`, and the bytes that the last `Read` gave. -/
def loopVisits : ℕ → Visit → List Visit × AddressRange
  | 0, x => ([], x.block)
  | fuel + 1, x =>
    let block := x.reader.blockAfter x.block
    let ((recordType, fragment), r) := x.reader.readPhysicalRecord kLittleEndian x.locals.fragment
    match r.round recordType { x.locals with fragment := fragment } with
    | (.inl _, _) => ([x], block)
    | (.inr v, r) =>
      let (xs, last) := loopVisits fuel ⟨block, v, r⟩
      (x :: xs, last)

def callVisits (block : AddressRange) (r : Reader) : List Visit × AddressRange :=
  let loop (r : Reader) := loopVisits kLittleEndian
    (r.buffer.length + (r.file.content.length - r.file.pos) + 1) ⟨block, ⟨[], false, 0, []⟩, r⟩
  if r.lastRecordOffset < r.initialOffset then
    match r.skipToInitialBlock with
    | (false, _) => ([], block)
    | (true, r) => loop r
  else loop r

def visits : ℕ → AddressRange → Reader → List Visit
  | 0, _, _ => []
  | n + 1, block, r =>
    let (xs, block) := r.callVisits kLittleEndian block
    match r.readRecord kLittleEndian with
    | .ok (_, s) => xs ++ visits n block s
    | .error _ => xs

end Visits

/-- What is still to come: the rest of the buffer and of the file. -/
def unread (r : Reader) : ℕ := r.buffer.length + (r.file.content.length - r.file.pos)

/-- The reader goes on in the same file and takes at least so many bytes. -/
structure Advances (n : ℕ) (r s : Reader) : Prop where
  content : s.file.content = r.file.content
  initialOffset : s.initialOffset = r.initialOffset
  unread : s.unread + n ≤ r.unread

section Advances
variable {kLittleEndian : Bool} {m n : ℕ} {r s t : Reader} {fragment : Bytes}

theorem Advances.refl (r : Reader) : Advances 0 r r := ⟨rfl, rfl, le_rfl⟩

theorem Advances.trans (h : Advances m r s) (h' : Advances n s t) : Advances (m + n) r t := by
  refine ⟨h'.content.trans h.content, h'.initialOffset.trans h.initialOffset, ?_⟩
  have hm := h.unread
  have hn := h'.unread
  omega

theorem Advances.weaken (h : Advances n r s) (hle : m ≤ n) : Advances m r s :=
  ⟨h.content, h.initialOffset, le_trans (Nat.add_le_add_left hle _) h.unread⟩

theorem SamePlace.advances (h : SamePlace r s) : Advances 0 r s := by
  refine ⟨by rw [h.file], h.initialOffset, ?_⟩
  unfold Reader.unread
  rw [h.file, h.buffer]
  exact le_rfl

end Advances

/-- The buffer holds the end of a block, or less of it if the file ends there. -/
structure Placed (block : AddressRange) (r : Reader) : Prop where
  aligned : block.address % kBlockSize = 0
  small : block.bytes ≤ kBlockSize
  inFile : block.bytes = 0 ∨ block.address + block.bytes ≤ r.file.content.length
  buffer : r.buffer <:+ (r.file.content.drop block.address).take block.bytes
  pos : r.eof = false → r.file.pos % kBlockSize = 0

/-- A header is taken out of the buffer, with what comes behind it or part of that. -/
structure Consumes (r s : Reader) : Prop where
  file : s.file = r.file
  eof : s.eof = r.eof
  initialOffset : s.initialOffset = r.initialOffset
  lastRecordOffset : s.lastRecordOffset = r.lastRecordOffset
  buffer : s.buffer <:+ r.buffer
  taken : s.buffer.length + kHeaderSize ≤ r.buffer.length

section Parse
variable {kLittleEndian : Bool} {block : AddressRange} {r s t : Reader} {fragment : Bytes}

theorem Consumes.reportDrop (h : Consumes r s) (bytes : UInt64) (reason : DropReason) :
    Consumes r (s.reportDrop bytes reason) := by
  have hplace := samePlace_reportDrop s bytes reason
  have hsame := sameRecord_reportDrop s bytes reason
  exact ⟨hplace.file.trans h.file, hplace.eof.trans h.eof, hsame.initialOffset.trans h.initialOffset,
    hsame.lastRecordOffset.trans h.lastRecordOffset, hplace.buffer ▸ h.buffer,
    hplace.buffer ▸ h.taken⟩

theorem parseRecord_consumes (hroom : kHeaderSize ≤ r.buffer.length) :
    Consumes r (r.parseRecord kLittleEndian fragment).2 := by
  have hclear : Consumes r r.clearBuffer :=
    ⟨rfl, rfl, rfl, rfl, List.nil_suffix, (Nat.zero_add _).trans_le hroom⟩
  unfold Reader.parseRecord
  dsimp only
  split_ifs with hlength heof hzero hsum hearly
  · exact hclear.reportDrop _ _
  · exact hclear
  · exact hclear
  · exact hclear.reportDrop _ _
  all_goals
    refine ⟨rfl, rfl, rfl, rfl, List.drop_suffix _ _, ?_⟩
    rw [List.length_drop]
    omega

theorem Consumes.advances (h : Consumes r s) : Advances kHeaderSize r s := by
  refine ⟨by rw [h.file], h.initialOffset, ?_⟩
  have htaken := h.taken
  unfold Reader.unread
  rw [h.file]
  omega

theorem Placed.consumes (h : Placed block r) (hc : Consumes r s) : Placed block s :=
  ⟨h.aligned, h.small, hc.file ▸ h.inFile, hc.file ▸ hc.buffer.trans h.buffer,
    hc.file ▸ hc.eof ▸ h.pos⟩

theorem Placed.samePlace (h : Placed block r) (hs : SamePlace r s) : Placed block s :=
  ⟨h.aligned, h.small, hs.file ▸ h.inFile, hs.file ▸ hs.buffer ▸ h.buffer,
    hs.file ▸ hs.eof ▸ h.pos⟩

theorem Placed.nil (h : Placed block r) (hfile : s.file = r.file) (heof : s.eof = r.eof)
    (hbuffer : s.buffer = []) : Placed block s := by
  refine ⟨h.aligned, h.small, hfile ▸ h.inFile, ?_, hfile ▸ heof ▸ h.pos⟩
  rw [hbuffer]
  exact List.nil_suffix

/-- A read fails, or gives bytes that start at the position. -/
theorem read_cases (f : UnixSequentialFile) (n : ℕ) :
    (∃ status g, f.read n = (.error status, g) ∧ g.content = f.content ∧ g.pos = f.pos) ∨
    ∃ data g, f.read n = (.ok data, g) ∧ data = (f.content.drop f.pos).take data.length ∧
      data.length ≤ n ∧ g.content = f.content ∧ g.pos = f.pos + data.length := by
  have hfilled : ∀ k ≤ n, ((f.content.drop f.pos).take k).length ≤ n ∧
      (f.content.drop f.pos).take k =
        (f.content.drop f.pos).take ((f.content.drop f.pos).take k).length := by
    intro k hk
    rw [List.length_take, List.take_eq_take_iff]
    omega
  unfold UnixSequentialFile.read
  cases f.calls.headD .full with
  | full => exact .inr ⟨_, _, rfl, (hfilled n le_rfl).2, (hfilled n le_rfl).1, rfl, rfl⟩
  | short k =>
    have hk := hfilled (min n k) (Nat.min_le_left n k)
    exact .inr ⟨_, _, rfl, hk.2, hk.1, rfl, rfl⟩
  | error => exact .inl ⟨_, _, rfl, rfl, rfl⟩

/-- What a read of a block leaves: its bytes in the buffer, or the end of everything. -/
theorem fillBuffer_spec (h : Placed block r) (heof : r.eof = false) :
    ∃ ok s, r.fillBuffer = (ok, s) ∧ Placed ⟨r.file.pos, s.buffer.length⟩ s ∧ Advances 0 r s ∧
      s.lastRecordOffset = r.lastRecordOffset ∧ (ok = false → s.buffer = [] ∧ s.eof = true) := by
  have hpos := h.pos heof
  unfold Reader.fillBuffer
  rcases read_cases r.file kBlockSize with ⟨status, g, hread, hcontent, hat⟩ |
    ⟨data, g, hread, hdata, hsize, hcontent, hat⟩
  · simp only [clearBuffer, hread]
    have hplace := samePlace_reportDrop { r with file := g, buffer := [] }
      (UInt64.ofNat kBlockSize) (.file status)
    have hsame := sameRecord_reportDrop { r with file := g, buffer := [] }
      (UInt64.ofNat kBlockSize) (.file status)
    refine ⟨_, _, rfl, ⟨hpos, ?_, .inl ?_, ?_, fun hf => ?_⟩, ⟨?_, hsame.initialOffset, ?_⟩,
      hsame.lastRecordOffset, fun _ => ⟨hplace.buffer, rfl⟩⟩
    · simp [hplace.buffer]
    · simp [hplace.buffer]
    · rw [hplace.buffer]
      exact List.nil_suffix
    · cases hf
    · simp [hplace.file, hcontent]
    · simp [Reader.unread, hplace.file, hplace.buffer, hcontent, hat]
  · simp only [clearBuffer, hread]
    have hlength := congrArg List.length hdata
    rw [List.length_take, List.length_drop] at hlength
    have hbuffer : data <:+ (g.content.drop r.file.pos).take data.length := by
      rw [hcontent, ← hdata]
    have hin : data.length = 0 ∨ r.file.pos + data.length ≤ g.content.length := by
      rw [hcontent]
      omega
    have hunread : data.length + (g.content.length - g.pos) + 0 ≤
        r.buffer.length + (r.file.content.length - r.file.pos) := by
      rw [hcontent, hat]
      omega
    split_ifs with hshort
    · exact ⟨_, _, rfl, ⟨hpos, hsize, hin, hbuffer, fun hf => Bool.noConfusion hf⟩,
        ⟨hcontent, rfl, hunread⟩, rfl, fun hf => Bool.noConfusion hf⟩
    · have hfull : g.pos % kBlockSize = 0 := by
        have hlen : data.length = kBlockSize := le_antisymm hsize (Nat.not_lt.mp hshort)
        rw [hat, hlen, Nat.add_mod_right]
        exact hpos
      exact ⟨_, _, rfl, ⟨hpos, hsize, hin, hbuffer, fun _ => hfull⟩,
        ⟨hcontent, rfl, hunread⟩, rfl, fun hf => Bool.noConfusion hf⟩

theorem readPhysicalRecord_parsed (h : r.parsed = some t) :
    r.readPhysicalRecord kLittleEndian fragment = t.parseRecord kLittleEndian fragment := by
  unfold Reader.parsed at h
  unfold Reader.readPhysicalRecord
  split_ifs at h with hshort heof
  · rw [if_pos hshort, if_neg heof]
    generalize r.fillBuffer = filled at h ⊢
    obtain ⟨_ | _, s⟩ := filled
    · cases h
    · simp only at h ⊢
      split_ifs at h with hnone
      cases h
      rw [if_neg hnone]
  · cases h
    rw [if_neg hshort]

theorem Placed.parsed (h : Placed block r) (hp : r.parsed = some t) :
    Placed (r.blockAfter block) t ∧ Advances 0 r t ∧ kHeaderSize ≤ t.buffer.length := by
  unfold Reader.parsed at hp
  split_ifs at hp with hshort heof
  · have heof' := Bool.eq_false_of_not_eq_true heof
    obtain ⟨ok, s, hfill, hs, hadvances, -, -⟩ := fillBuffer_spec h heof'
    rw [Reader.blockAfter, if_pos ⟨hshort, heof'⟩]
    rw [hfill] at hp ⊢
    cases ok with
    | false => cases hp
    | true =>
      simp only at hp
      split_ifs at hp with hnone
      cases hp
      exact ⟨hs, hadvances, Nat.not_lt.mp hnone⟩
  · cases hp
    rw [Reader.blockAfter, if_neg fun hb => hshort hb.1]
    exact ⟨h, .refl r, Nat.not_lt.mp hshort⟩

/-- A physical read that comes to no header ends the file. -/
theorem Placed.readPhysicalRecord_none (h : Placed block r) (hp : r.parsed = none) :
    ∃ s, r.readPhysicalRecord kLittleEndian fragment = ((kEof, fragment), s) ∧
      Placed (r.blockAfter block) s ∧ Advances 0 r s := by
  unfold Reader.parsed at hp
  unfold Reader.readPhysicalRecord
  split_ifs at hp with hshort heof
  · rw [if_pos hshort, if_pos heof, Reader.blockAfter, if_neg (by simp [heof])]
    refine ⟨_, rfl, h.nil rfl rfl rfl, rfl, rfl, ?_⟩
    exact Nat.add_le_add_right (Nat.zero_le _) _
  · have heof' := Bool.eq_false_of_not_eq_true heof
    obtain ⟨ok, s, hfill, hs, hadvances, -, -⟩ := fillBuffer_spec h heof'
    rw [if_pos hshort, if_neg heof, Reader.blockAfter, if_pos ⟨hshort, heof'⟩]
    rw [hfill] at hp ⊢
    cases ok with
    | false => exact ⟨s, rfl, hs, hadvances⟩
    | true =>
      simp only at hp ⊢
      split_ifs at hp with hnone
      rw [if_pos hnone]
      have hclear : Advances 0 s s.clearBuffer :=
        ⟨rfl, rfl, Nat.add_le_add_right (Nat.zero_le _) _⟩
      exact ⟨_, rfl, hs.nil rfl rfl rfl, hadvances.trans hclear⟩

/-- A physical read takes a header at least, or it is the end. -/
theorem Placed.readPhysicalRecord (h : Placed block r) (kLittleEndian : Bool) (fragment : Bytes) :
    ∃ type fragment' s,
      r.readPhysicalRecord kLittleEndian fragment = ((type, fragment'), s) ∧
      Placed (r.blockAfter block) s ∧
      (type = kEof ∧ Advances 0 r s ∨ Advances kHeaderSize r s) := by
  cases hp : r.parsed with
  | none =>
    obtain ⟨s, hread, hs, hadvances⟩ := h.readPhysicalRecord_none hp
    exact ⟨_, _, s, hread, hs, .inl ⟨rfl, hadvances⟩⟩
  | some t =>
    obtain ⟨ht, hadvances, hroom⟩ := h.parsed hp
    have hc := @parseRecord_consumes kLittleEndian t fragment hroom
    rw [readPhysicalRecord_parsed hp]
    refine ⟨_, _, _, rfl, ht.consumes hc, .inr ?_⟩
    exact (hadvances.trans hc.advances).weaken (Nat.zero_add _).ge

theorem skip_forward (p : ℕ) {k : ℕ} (h : k < 2 ^ 63) :
    (p : ℤ) + (k : ℤ).bmod (2 ^ 64) = p + k := by
  rw [Int.bmod_def]
  split_ifs <;> omega

/-- The file goes forward so many bytes, or stays where it is. -/
theorem skip_cases {f : UnixSequentialFile} {n : UInt64} (h : n.toNat < 2 ^ 63 ∨ f.pos = 0) :
    (f.skip n).2 = f ∨ (f.skip n).2 = { f with pos := f.pos + n.toNat } := by
  rcases h with hsmall | hstart
  · have hpos := skip_forward f.pos hsmall
    unfold UnixSequentialFile.skip
    generalize (f.pos : ℤ) + (n.toNat : ℤ).bmod (2 ^ 64) = pos at hpos ⊢
    have hnat : pos.toNat = f.pos + n.toNat := by omega
    simp only [hnat]
    split_ifs
    · exact .inr rfl
    · exact .inl rfl
  · rw [skip_start hstart]
    split_ifs
    · right
      rw [hstart, Nat.zero_add]
    · exact .inl rfl

theorem Placed.skipToInitialBlock (h : Placed block r)
    (hlocation : (blockStartLocation r.initialOffset).toNat < 2 ^ 63 ∨ r.file.pos = 0) :
    ∃ ok s, r.skipToInitialBlock = (ok, s) ∧ Placed block s ∧ Advances 0 r s := by
  have hmod := blockStartLocation_mod r.initialOffset
  unfold Reader.skipToInitialBlock
  generalize blockStartLocation r.initialOffset = location at hlocation hmod ⊢
  dsimp only
  split_ifs with hpositive
  · have hcases := skip_cases hlocation
    generalize r.file.skip location = skipped at hcases ⊢
    obtain ⟨status, g⟩ := skipped
    have hmoved : Placed block { r with endOfBufferOffset := location, file := g } ∧
        Advances 0 r { r with endOfBufferOffset := location, file := g } := by
      rcases hcases with hg | hg <;> obtain rfl : g = _ := hg
      · exact ⟨⟨h.aligned, h.small, h.inFile, h.buffer, h.pos⟩, rfl, rfl, le_rfl⟩
      · refine ⟨⟨h.aligned, h.small, h.inFile, h.buffer, fun heof => ?_⟩, rfl, rfl, ?_⟩
        · have hpos := h.pos heof
          change (r.file.pos + location.toNat) % 4096 = 0
          unfold kBlockSize at hpos
          omega
        · simp only [Reader.unread]
          omega
    unfold afterSkip
    dsimp only
    split_ifs
    · have hplace := samePlace_reportDrop { r with endOfBufferOffset := location, file := g }
        location (.file status)
      exact ⟨_, _, rfl, hmoved.1.samePlace hplace, hmoved.2.trans hplace.advances⟩
    · exact ⟨_, _, rfl, hmoved⟩
  · exact ⟨_, _, rfl, ⟨h.aligned, h.small, h.inFile, h.buffer, h.pos⟩, rfl, rfl, le_rfl⟩

end Parse

section Run
variable (kLittleEndian : Bool) {block : AddressRange} {r : Reader}

/-- A round of the run, in the file and with its buffer where it should be. -/
structure Visit.InFile (content : Bytes) (x : Visit) : Prop where
  content : x.reader.file.content = content
  placed : Placed x.block x.reader

/-- With fuel for the bytes that are left the loop comes to its end. A record costs a header. -/
theorem recordLoop_ends (h : Placed block r) {fuel : ℕ} (v : Locals) (hfuel : r.unread < fuel) :
    ∃ record s, r.recordLoop kLittleEndian fuel v = .ok (record, s) ∧
      Placed (loopVisits kLittleEndian fuel ⟨block, v, r⟩).2 s ∧
      Advances (kHeaderSize * record.toList.length) r s ∧
      ∀ x ∈ (loopVisits kLittleEndian fuel ⟨block, v, r⟩).1, x.InFile r.file.content := by
  induction fuel generalizing block r v with
  | zero => exact absurd hfuel (Nat.not_lt_zero _)
  | succ fuel ih =>
    obtain ⟨type, fragment, s, hread, hs, hadvances⟩ :=
      h.readPhysicalRecord kLittleEndian v.fragment
    have hplace := round_samePlace type { v with fragment := fragment } s
    have heof := (round_eof { v with fragment := fragment } s).1
    rw [recordLoop, loopVisits]
    simp only [hread]
    generalize hround : s.round type { v with fragment := fragment } = round at hplace ⊢
    obtain ⟨record | w, t⟩ := round
    · refine ⟨record, t, rfl, hs.samePlace hplace, ?_, ?_⟩
      · rcases hadvances with ⟨rfl, hadvances⟩ | hadvances
        · rw [hround] at heof
          cases heof
          exact hadvances.trans hplace.advances
        · refine (hadvances.trans hplace.advances).weaken ?_
          cases record <;> simp
      · simpa using ⟨rfl, h⟩
    · have hconsumed : Advances kHeaderSize r t := by
        rcases hadvances with ⟨rfl, -⟩ | hadvances
        · rw [hround] at heof
          cases heof
        · exact hadvances.trans hplace.advances
      have hless : t.unread < fuel := by
        have htaken := hconsumed.unread
        unfold kHeaderSize at htaken
        omega
      obtain ⟨record, u, hloop, hu, hlater, hvisits⟩ := ih (hs.samePlace hplace) w hless
      refine ⟨record, u, hloop, hu, ?_, ?_⟩
      · exact (hconsumed.trans hlater).weaken (Nat.le_add_left _ _)
      · simp only [List.forall_mem_cons]
        rw [hconsumed.content] at hvisits
        exact ⟨⟨rfl, h⟩, hvisits⟩

end Run
end Reader
end Ibdb.Log
