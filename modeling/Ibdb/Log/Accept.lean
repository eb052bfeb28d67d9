import Ibdb.Log.ReaderRun
import Ibdb.Log.WriterRun

/-! The reader accepts the fragments that the writer wrote. -/
namespace Ibdb.Log
open Base Fragmented

section Header
variable (f : Fragment) (x : Bytes)

private theorem lowHigh {n : ℕ} (h : n < 2 ^ 16) :
    ((UInt8.ofNat (n &&& 0xff)).toNat &&& 0xff) |||
      ((UInt8.ofNat (n >>> 8)).toNat &&& 0xff) <<< 8 = n := by
  have hmask : ∀ m : ℕ, m &&& 0xff = m % 256 := fun m => Nat.and_two_pow_sub_one_eq_mod m 8
  have hlow : (UInt8.ofNat (n &&& 0xff)).toNat &&& 0xff = n % 2 ^ 8 := by
    rw [hmask, hmask, UInt8.toNat_ofNat']
    omega
  have hhigh : (UInt8.ofNat (n >>> 8)).toNat &&& 0xff = n / 2 ^ 8 := by
    rw [hmask, UInt8.toNat_ofNat', Nat.shiftRight_eq_div_pow]
    omega
  rw [hlow, hhigh, Nat.lor_comm, ← Nat.shiftLeft_add_eq_or_of_lt (Nat.mod_lt n (by decide)),
    Nat.shiftLeft_eq]
  omega

theorem headerLength_header (h : f.payload.length < 2 ^ 16) :
    headerLength (f.header ++ x) = f.payload.length := by
  have h4 : (f.header ++ x).getD 4 0 = UInt8.ofNat (f.payload.length &&& 0xff) := rfl
  have h5 : (f.header ++ x).getD 5 0 = UInt8.ofNat (f.payload.length >>> 8) := rfl
  unfold headerLength
  dsimp only
  rw [h4, h5]
  exact lowHigh h

theorem headerType_header : headerType (f.header ++ x) = (recordTypeOf f.kind).toNat := by
  have h6 : (f.header ++ x).getD 6 0 = f.typeByte := rfl
  unfold headerType
  dsimp only
  rw [h6, Fragment.typeByte]
  cases f.kind <;> rfl

/-- The checksum in the header is that of the type and the payload. -/
theorem checksum_header :
    Crc32c.unmask (UInt32.ofNat (LittleEndian.decode ((f.header ++ x).take 4))) =
      Crc32c.checksum (f.typeByte :: f.payload) := by
  have htake : (f.header ++ x).take 4 = LittleEndian.encode 4
      (Crc32c.mask (Crc32c.checksum (f.typeByte :: f.payload))).toNat := rfl
  have hlt := (Crc32c.mask (Crc32c.checksum (f.typeByte :: f.payload))).toNat_lt
  rw [htake, LittleEndian.decode_encode, Nat.mod_eq_of_lt (by omega), UInt32.ofNat_toNat,
    Crc32c.unmask_mask]

end Header

structure Fits (f : Fragment) : Prop where
  mod : f.tag % 4096 ≤ 4089
  room : f.payload.length ≤ avail f.tag

theorem Fits.stop_le {f : Fragment} (h : Fits f) : Fragment.stop f ≤ blockEnd f.tag := by
  have hmod := h.mod
  have hroom := h.room
  rw [avail_eq] at hroom
  rw [blockEnd_eq]
  unfold Fragment.stop kHeaderSize
  omega

theorem outcome_of_written {c : Bytes} {f : Fragment} (hf : Fits f)
    (h : Fragment.bytes f <+: c.drop f.tag) (checksum : Bool) :
    outcome c checksum f.tag = .record (recordTypeOf f.kind).toNat f.payload := by
  obtain ⟨rest, hrest⟩ := h
  have hstop := hf.stop_le
  have hlt : f.payload.length < 2 ^ 16 := by
    have hroom := hf.room
    rw [avail_eq] at hroom
    omega
  have hblock : blockRest c f.tag = Fragment.header f ++ (f.payload ++
      rest.take (blockEnd f.tag - f.tag - (Fragment.bytes f).length)) := by
    have hle : (Fragment.bytes f).length ≤ blockEnd f.tag - f.tag := by
      rw [Fragment.bytes_length]
      unfold Fragment.stop at hstop
      omega
    rw [blockRest, ← hrest, List.take_append, List.take_of_length_le hle, Fragment.bytes,
      List.append_assoc]
  have hzero : ¬ ((recordTypeOf f.kind).toNat = RecordType.kZeroType.toNat ∧
      f.payload.length = 0) := by
    intro hzero
    have htype := hzero.1
    cases hkind : f.kind <;> rw [hkind] at htype <;> cases htype
  have hsum : ∀ y : Bytes, ((Fragment.header f ++ (f.payload ++ y)).drop 6).take
      (1 + f.payload.length) = Fragment.typeByte f :: f.payload := by
    intro y
    have hdrop : (Fragment.header f ++ (f.payload ++ y)).drop 6 =
        Fragment.typeByte f :: (f.payload ++ y) := rfl
    rw [hdrop, Nat.add_comm, List.take_succ_cons, List.take_left]
  unfold outcome
  dsimp only
  rw [hblock, headerLength_header f _ hlt, headerType_header, checksum_header, hsum,
    List.length_append, List.length_append, Fragment.header_length, if_neg (by omega),
    if_neg (by omega), if_neg hzero, if_neg (by simp)]
  congr 1
  have hdrop : ∀ y : Bytes, (Fragment.header f ++ y).drop kHeaderSize = y := fun y => rfl
  rw [hdrop, List.take_left]

/-- A fragment that the file ends in is not there. -/
theorem outcome_of_cut {c : Bytes} {f : Fragment} (hf : Fits f)
    (h : c.drop f.tag <+: Fragment.bytes f) (hlt : (c.drop f.tag).length < (Fragment.bytes f).length)
    (checksum : Bool) : outcome c checksum f.tag = .eof := by
  have hstop := hf.stop_le
  have hlength : f.payload.length < 2 ^ 16 := by
    have hroom := hf.room
    rw [avail_eq] at hroom
    omega
  rw [Fragment.bytes_length] at hlt
  have hend : c.length < blockEnd f.tag := by
    rw [List.length_drop] at hlt
    unfold Fragment.stop at hstop
    omega
  have hblock : blockRest c f.tag = c.drop f.tag := by
    rw [blockRest]
    apply List.take_of_length_le
    rw [List.length_drop]
    omega
  by_cases hshort : (c.drop f.tag).length < kHeaderSize
  · apply Reader.outcome_of_short
    rwa [hblock]
  obtain ⟨x, hx⟩ : ∃ x, c.drop f.tag = Fragment.header f ++ x := by
    refine ⟨f.payload.take ((c.drop f.tag).length - kHeaderSize), ?_⟩
    have htake := List.prefix_iff_eq_take.mp h
    rwa [Fragment.bytes, List.take_append, Fragment.header_length, List.take_of_length_le] at htake
    rw [Fragment.header_length]
    exact Nat.not_lt.mp hshort
  unfold outcome
  dsimp only
  rw [hblock, if_neg hshort, hx, headerLength_header f x hlength, ← hx, if_pos hlt, if_pos hend]

theorem Laid.fits {len : ℕ} {fs : List Fragment} (h : Laid len fs) {f : Fragment} (hf : f ∈ fs) :
    Fits f := by
  induction fs generalizing len with
  | nil => cases hf
  | cons g fs ih =>
    obtain ⟨htag, hroom, hrest⟩ := h
    rcases List.mem_cons.mp hf with rfl | hf
    · refine ⟨?_, hroom⟩
      rw [htag]
      exact headerPos_mod len
    · exact ih hrest hf

theorem outcome_of_le {c : Bytes} {p : ℕ} (h : c.length ≤ p) (checksum : Bool) :
    outcome c checksum (headerPos p) = .eof := by
  apply Reader.outcome_of_short
  rw [blockRest_of_le (h.trans (le_headerPos p))]
  decide

/-- A file that is cut off somewhere has the fragments that are in it whole, and then the end. -/
theorem scan_take {content c : Bytes} {cut : ℕ} {fs : List Fragment} (h : Laid content.length fs)
    (hc : c = (content ++ bytesFrom content.length fs).take cut) (hcut : content.length ≤ cut)
    (checksum : Bool) :
    Scan c checksum 0 content.length
      ((fs.takeWhile fun f => decide (Fragment.stop f ≤ cut)).map .piece) := by
  induction fs generalizing content with
  | nil =>
    apply Scan.eof
    apply outcome_of_le
    rw [hc, bytesFrom, List.append_nil, List.length_take]
    exact Nat.min_le_right _ _
  | cons f fs ih =>
    have hfits := h.fits List.mem_cons_self
    obtain ⟨htag, hroom, hrest⟩ := h
    have hlength := length_bytesFrom_singleton htag
    have hle := le_headerPos content.length
    have hdrop : c.drop f.tag =
        (Fragment.bytes f ++ bytesFrom (Fragment.stop f) fs).take (cut - f.tag) := by
      rw [hc, List.drop_take, drop_bytesFrom htag]
    by_cases hin : Fragment.stop f ≤ cut
    · rw [List.takeWhile_cons_of_pos (by simpa using hin), List.map_cons]
      refine .piece ?_ htag (UInt64.not_lt_zero) ?_
      · rw [← htag]
        apply outcome_of_written hfits
        rw [hdrop, List.take_append, List.take_of_length_le]
        · exact List.prefix_append _ _
        · rw [Fragment.bytes_length]
          unfold Fragment.stop at hin
          omega
      · rw [← hlength]
        apply ih
        · rwa [hlength]
        · rw [hc, hlength, bytesFrom_cons, List.append_assoc]
        · rwa [hlength]
    · rw [List.takeWhile_cons_of_neg (by simpa using hin)]
      apply Scan.eof
      rw [← htag]
      have hshort : cut - f.tag < (Fragment.bytes f).length := by
        rw [Fragment.bytes_length]
        unfold Fragment.stop kHeaderSize at hin
        unfold kHeaderSize
        omega
      rw [List.take_append_of_le_length hshort.le] at hdrop
      apply outcome_of_cut hfits
      · rw [hdrop]
        exact List.take_prefix _ _
      · rw [hdrop, List.length_take]
        omega

end Ibdb.Log
