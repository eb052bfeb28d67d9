import Ibdb.Log.Visits

/-! Reading a file of any bytes comes to an end and stays within the blocks that were read. -/
namespace Ibdb.Log
open Base Reader
namespace Reader

/-- The bytes at the front of the buffer that are used: a header, and its fragment if the buffer
has so many bytes. -/
def used (r : Reader) : ℕ :=
  if kHeaderSize + headerLength r.buffer > r.buffer.length then kHeaderSize
  else kHeaderSize + headerLength r.buffer

/-- The header and the fragment that a round uses are bytes of the one block that they were read
from. -/
def Visit.WithinBlock (content : Bytes) (x : Visit) : Prop :=
  ∀ t, x.reader.parsed = some t →
    let block := x.reader.blockAfter x.block
    let start := block.address + block.bytes - t.buffer.length
    block.address % kBlockSize = 0 ∧ block.bytes ≤ kBlockSize ∧
      block.address + block.bytes ≤ content.length ∧
      AddressRange.Inside ⟨start, t.used⟩ block ∧
      t.buffer.take t.used = (content.drop start).take t.used

section Ends
variable (kLittleEndian : Bool) {block : AddressRange} {content : Bytes} {r : Reader}

theorem used_le {r : Reader} (h : kHeaderSize ≤ r.buffer.length) : r.used ≤ r.buffer.length := by
  unfold used
  split_ifs with hlength
  · exact h
  · exact Nat.not_lt.mp hlength

/-- The end of a piece of a list, by its position in the list. -/
theorem take_of_suffix {α : Type} {xs ys : List α} {a m n : ℕ} (h : xs <:+ (ys.drop a).take m)
    (hm : a + m ≤ ys.length) (hn : n ≤ xs.length) :
    xs.length ≤ m ∧ xs.take n = (ys.drop (a + m - xs.length)).take n := by
  have hlength : ((ys.drop a).take m).length = m := by
    rw [List.length_take, List.length_drop]
    omega
  have hle := h.length_le
  rw [hlength] at hle
  refine ⟨hle, ?_⟩
  have hdrop := List.suffix_iff_eq_drop.mp h
  rw [hlength, List.drop_take, List.drop_drop] at hdrop
  have hsub : m - (m - xs.length) = xs.length := Nat.sub_sub_self hle
  have hstart : a + (m - xs.length) = a + m - xs.length := (Nat.add_sub_assoc hle a).symm
  rw [hsub, hstart] at hdrop
  calc xs.take n = ((ys.drop (a + m - xs.length)).take xs.length).take n := by rw [← hdrop]
    _ = (ys.drop (a + m - xs.length)).take n := by rw [List.take_take, Nat.min_eq_left hn]

theorem Visit.InFile.withinBlock {x : Visit} (h : x.InFile content) : x.WithinBlock content := by
  intro t ht
  obtain ⟨hplaced, hadvances, hroom⟩ := h.placed.parsed ht
  have hcontent : t.file.content = content := hadvances.content.trans h.content
  have hused := used_le hroom
  have hnonempty : 0 < t.buffer.length := lt_of_lt_of_le (by decide) hroom
  have hin : (x.reader.blockAfter x.block).address + (x.reader.blockAfter x.block).bytes ≤
      content.length := by
    rcases hplaced.inFile with hnone | hin
    · have hlength := hplaced.buffer.length_le
      rw [hnone, List.take_zero, List.length_nil] at hlength
      exact absurd hlength (Nat.not_le.mpr hnonempty)
    · rwa [hcontent] at hin
  have hbuffer := hplaced.buffer
  rw [hcontent] at hbuffer
  obtain ⟨hle, htake⟩ := take_of_suffix hbuffer hin hused
  refine ⟨hplaced.aligned, hplaced.small, hin, ⟨?_, ?_⟩, htake⟩
  · simp only
    omega
  · simp only
    omega

/-- A call comes to its end, and each record costs a header. -/
theorem readRecord_ends (h : Placed block r)
    (hlocation : (blockStartLocation r.initialOffset).toNat < 2 ^ 63 ∨ Refused r) :
    ∃ record s, r.readRecord kLittleEndian = .ok (record, s) ∧
      Placed (r.callVisits kLittleEndian block).2 s ∧
      Advances (kHeaderSize * record.toList.length) r s ∧
      ∀ x ∈ (r.callVisits kLittleEndian block).1, x.InFile r.file.content := by
  have hloop : ∀ {s : Reader}, Placed block s →
      ∃ record t, s.recordLoop kLittleEndian
          (s.buffer.length + (s.file.content.length - s.file.pos) + 1) ⟨[], false, 0, []⟩ =
            .ok (record, t) ∧ _ :=
    fun hs => recordLoop_ends kLittleEndian hs ⟨[], false, 0, []⟩ (Nat.lt_succ_self _)
  unfold Reader.readRecord callVisits
  dsimp only
  split_ifs with hearly
  · obtain ⟨ok, s, hskip, hs, hadvances⟩ := h.skipToInitialBlock (hlocation.imp_right (·.pos))
    rw [hskip]
    cases ok with
    | false => exact ⟨none, s, rfl, hs, hadvances, by simp⟩
    | true =>
      obtain ⟨record, t, ht, hplaced, hlater, hvisits⟩ := hloop hs
      refine ⟨record, t, ht, hplaced, (hadvances.trans hlater).weaken (Nat.zero_add _).ge, ?_⟩
      rw [← hadvances.content]
      exact hvisits
  · exact hloop h

theorem readRecords_ends (h : Placed block r)
    (hlocation : (blockStartLocation r.initialOffset).toNat < 2 ^ 63 ∨ Refused r) (n : ℕ) :
    ∃ answers s, r.readRecords kLittleEndian n = .ok (answers, s) ∧
      kHeaderSize * answers.countP Option.isSome ≤ r.unread ∧
      ∀ x ∈ visits kLittleEndian n block r, x.InFile r.file.content := by
  induction n generalizing block r with
  | zero => exact ⟨[], r, rfl, Nat.zero_le _, by simp [visits]⟩
  | succ n ih =>
    obtain ⟨record, s, hread, hs, hadvances, hfirst⟩ := readRecord_ends kLittleEndian h hlocation
    have hlocation' : (blockStartLocation s.initialOffset).toNat < 2 ^ 63 ∨ Refused s := by
      rcases hlocation with hlt | hrefused
      · rw [hadvances.initialOffset]
        exact .inl hlt
      · obtain ⟨s', hread', hrefused'⟩ := hrefused.readRecord kLittleEndian
        cases hread.symm.trans hread'
        exact .inr hrefused'
    obtain ⟨answers, t, hreads, hcount, hlater⟩ := ih hs hlocation'
    refine ⟨record.map (·, s.lastRecordOffset) :: answers, t, ?_, ?_, ?_⟩
    · rw [Reader.readRecords, hread, Except.ok_bind]
      simp only [hreads, Except.ok_bind]
      rfl
    · have hunread := hadvances.unread
      rw [List.countP_cons]
      cases record <;> simp [Nat.mul_add] at hunread ⊢ <;> omega
    · rw [visits]
      simp only [hread]
      intro x hx
      rcases List.mem_append.mp hx with hx | hx
      · exact hfirst x hx
      · rw [← hadvances.content]
        exact hlater x hx

end Ends
end Reader

/-- A file of any bytes, read with any outcomes of `read`: every call comes to an end, there are no
more records than headers fit into the file, and each round stays within a block. -/
theorem reading_ends (content filename : Bytes) (calls : List ReadCall)
    (reporter : Option (List Report)) (checksum : Bool) (backingStore : ℕ) (initial : UInt64)
    (kLittleEndian : Bool) (n : ℕ) :
    let r := Reader.new ⟨filename, content, 0, calls⟩ reporter checksum backingStore initial
    ∃ answers s, r.readRecords kLittleEndian n = .ok (answers, s) ∧
      answers.countP Option.isSome ≤ content.length / 7 ∧
      ∀ x ∈ visits kLittleEndian n ⟨0, 0⟩ r, x.WithinBlock content := by
  intro r
  have hplaced : Placed ⟨0, 0⟩ r := by
    refine ⟨rfl, Nat.zero_le _, .inl rfl, List.nil_suffix, fun _ => rfl⟩
  have hlocation : (blockStartLocation r.initialOffset).toNat < 2 ^ 63 ∨ Refused r := by
    rcases Nat.lt_or_ge (blockStartLocation initial).toNat (2 ^ 63) with hlt | hge
    · exact .inl hlt
    · refine .inr ⟨rfl, hge, UInt64.pos_iff_ne_zero.mpr ?_⟩
      rintro rfl
      exact absurd hge (by decide)
  obtain ⟨answers, s, hreads, hcount, hvisits⟩ :=
    readRecords_ends kLittleEndian hplaced hlocation n
  refine ⟨answers, s, hreads, ?_, fun x hx => (hvisits x hx).withinBlock⟩
  rw [Nat.le_div_iff_mul_le (by decide), Nat.mul_comm]
  exact hcount.trans (Nat.zero_add _).le

end Ibdb.Log
