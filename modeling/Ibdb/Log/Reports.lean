import Ibdb.Log.Visits

/-! What the reader reports: reports are only added, and in the file they pass the test on the
initial offset. -/
namespace Ibdb.Log
open Base
namespace Reader

def Grows (r s : Reader) : Prop := ∃ more, s.reporter = r.reporter.map (· ++ more)

section Grows
variable {kLittleEndian : Bool} {r s t : Reader} {fragment : Bytes}

theorem Grows.of_eq (h : s.reporter = r.reporter) : Grows r s := by
  refine ⟨[], ?_⟩
  rw [h]
  cases r.reporter <;> simp

theorem Grows.trans (h : Grows r s) (h' : Grows s t) : Grows r t := by
  obtain ⟨more, hs⟩ := h
  obtain ⟨rest, ht⟩ := h'
  refine ⟨more ++ rest, ?_⟩
  rw [ht, hs]
  cases r.reporter <;> simp

theorem Grows.isSome (h : Grows r s) (hr : r.reporter.isSome = true) :
    s.reporter.isSome = true := by
  obtain ⟨more, hs⟩ := h
  rw [hs, Option.isSome_map]
  exact hr

/-- One report, or none. -/
theorem reportDrop_cases (r : Reader) (bytes : UInt64) (reason : DropReason) :
    (r.reportDrop bytes reason).reporter = r.reporter ∨
      (r.reportDrop bytes reason).reporter = r.reporter.map (· ++ [⟨bytes, reason⟩]) := by
  unfold reportDrop
  cases hreporter : r.reporter with
  | none => exact .inl hreporter
  | some reports =>
    dsimp only
    split_ifs
    · exact .inr rfl
    · exact .inl hreporter

theorem reportDrop_grows (r : Reader) (bytes : UInt64) (reason : DropReason) :
    Grows r (r.reportDrop bytes reason) := by
  rcases reportDrop_cases r bytes reason with h | h
  · exact .of_eq h
  · exact ⟨_, h⟩

theorem parseRecord_grows : Grows r (r.parseRecord kLittleEndian fragment).2 := by
  unfold Reader.parseRecord
  dsimp only
  split_ifs
  · exact reportDrop_grows r.clearBuffer _ _
  · exact .of_eq rfl
  · exact .of_eq rfl
  · exact reportDrop_grows r.clearBuffer _ _
  · exact .of_eq rfl
  · exact .of_eq rfl

theorem fillBuffer_grows : Grows r r.fillBuffer.2 := by
  unfold Reader.fillBuffer
  rcases hread : r.file.read kBlockSize with ⟨status | data, file⟩
  · simp only [clearBuffer, hread]
    exact (reportDrop_grows { r.clearBuffer with file := file } _ _).trans (.of_eq rfl)
  · simp only [clearBuffer, hread]
    split_ifs
    · exact .of_eq rfl
    · exact .of_eq rfl

theorem readPhysicalRecord_grows : Grows r (r.readPhysicalRecord kLittleEndian fragment).2 := by
  have hfill := @fillBuffer_grows r
  unfold Reader.readPhysicalRecord
  generalize r.fillBuffer = filled at hfill ⊢
  obtain ⟨_ | _, s⟩ := filled
  · split_ifs
    · exact .of_eq rfl
    · exact hfill
    · exact parseRecord_grows
  · dsimp only
    split_ifs
    · exact .of_eq rfl
    · exact hfill.trans (.of_eq rfl)
    · exact hfill.trans parseRecord_grows
    · exact parseRecord_grows

theorem round_grows (type : ℕ) (v : Locals) (r : Reader) : Grows r (r.round type v).2 := by
  have hself : Grows r r := .of_eq rfl
  have hsync : Grows r { r with resyncing := false } := .of_eq rfl
  have hreport : ∀ bytes reason, Grows r
      ({ r with resyncing := false }.reportCorruption bytes reason) :=
    fun bytes reason => hsync.trans (reportDrop_grows _ _ _)
  unfold Reader.round
  dsimp only
  split_ifs
  all_goals first
    | exact hself
    | exact hsync
    | exact hreport _ _

theorem recordLoop_grows {fuel : ℕ} {v : Locals} {record : Option Bytes}
    (h : r.recordLoop kLittleEndian fuel v = .ok (record, s)) : Grows r s := by
  induction fuel generalizing r v with
  | zero => cases h
  | succ fuel ih =>
    rw [recordLoop] at h
    have hread := @readPhysicalRecord_grows kLittleEndian r v.fragment
    generalize r.readPhysicalRecord kLittleEndian v.fragment = found at h hread
    obtain ⟨⟨type, fragment⟩, t⟩ := found
    have hround := round_grows type { v with fragment := fragment } t
    dsimp only at h
    generalize t.round type { v with fragment := fragment } = round at h hround
    obtain ⟨record | w, u⟩ := round
    · cases h
      exact hread.trans hround
    · exact (hread.trans hround).trans (ih h)

theorem afterSkip_same (r : Reader) (location : UInt64) (skip : Status × UnixSequentialFile) :
    SameRecord r (r.afterSkip location skip).2 := by
  obtain ⟨status, file⟩ := skip
  have hmoved : SameRecord r { r with file := file } := ⟨rfl, rfl, rfl, rfl⟩
  unfold afterSkip
  dsimp only
  split_ifs
  · exact hmoved.trans (sameRecord_reportDrop _ _ _)
  · exact hmoved

theorem skipToInitialBlock_same (r : Reader) : SameRecord r r.skipToInitialBlock.2 := by
  unfold Reader.skipToInitialBlock
  generalize blockStartLocation r.initialOffset = location
  have hmoved : SameRecord r { r with endOfBufferOffset := location } := ⟨rfl, rfl, rfl, rfl⟩
  dsimp only
  split_ifs
  · exact hmoved.trans (afterSkip_same _ _ _)
  · exact hmoved

theorem afterSkip_grows (r : Reader) (location : UInt64) (skip : Status × UnixSequentialFile) :
    Grows r (r.afterSkip location skip).2 := by
  obtain ⟨status, file⟩ := skip
  have hmoved : Grows r { r with file := file } := .of_eq rfl
  unfold afterSkip
  dsimp only
  split_ifs
  · exact hmoved.trans (reportDrop_grows _ _ _)
  · exact hmoved

theorem skipToInitialBlock_grows (r : Reader) : Grows r r.skipToInitialBlock.2 := by
  unfold Reader.skipToInitialBlock
  generalize blockStartLocation r.initialOffset = location
  have hmoved : Grows r { r with endOfBufferOffset := location } := .of_eq rfl
  dsimp only
  split_ifs
  · exact hmoved.trans (afterSkip_grows _ _ _)
  · exact hmoved

end Grows

section Test
variable {c : Bytes} {p : ℕ} {r : Reader}

/-- The first byte of the buffer, by its position in the file. -/
def position (r : Reader) : ℕ := r.file.pos - r.buffer.length

theorem Reads.position (h : Reads c p r) : r.position = p := by
  unfold Reader.position
  rcases h with h | h
  · rw [h.pos, Nat.add_sub_cancel]
  · rw [h.buffer, h.pos]
    rfl

/-- What lies from the initial offset on is reported when it is dropped. -/
theorem Reads.reportDrop (h : Reads c p r) {bytes : ℕ} (hp : p < 2 ^ 64)
    (hbytes : r.initialOffset.toNat + bytes ≤ p) (reason : DropReason) :
    (r.reportDrop (UInt64.ofNat bytes) reason).reporter =
      r.reporter.map (· ++ [⟨UInt64.ofNat bytes, reason⟩]) := by
  have hend : r.endOfBufferOffset - UInt64.ofNat r.buffer.length - UInt64.ofNat bytes =
      UInt64.ofNat (p - bytes) := by
    have hoffset : r.endOfBufferOffset = UInt64.ofNat (p + r.buffer.length) := by
      rcases h with h | h
      · rw [h.offset, h.pos]
      · rw [h.offset, h.pos, h.buffer]
        rfl
    have hsplit : p = (p - bytes) + bytes := by omega
    rw [hoffset, UInt64.ofNat_add, UInt64.add_sub_cancel]
    conv_lhs => rw [hsplit, UInt64.ofNat_add, UInt64.add_sub_cancel]
  unfold Reader.reportDrop
  cases hreporter : r.reporter with
  | none => simp [hreporter]
  | some reports =>
    have hpasses : r.initialOffset ≤ UInt64.ofNat (p - bytes) := by
      rw [UInt64.le_iff_toNat_le, UInt64.toNat_ofNat_of_lt' (lt_of_le_of_lt (Nat.sub_le _ _) hp)]
      omega
    dsimp only
    rw [hend, if_pos hpasses]
    rfl

end Test
end Reader
end Ibdb.Log
