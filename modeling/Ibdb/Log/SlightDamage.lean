import Ibdb.Base.Crc32cErrors
import Ibdb.Log.Damage

/-! A log in which the checksums find what is wrong: no assumption is left on what the reader
accepts, and it returns all records but those with a fragment behind a damaged one in its block. -/
namespace Ibdb.Log
open Base Fragmented Reader

namespace Fragment

def body (f : Fragment) : Bytes := f.typeByte :: f.payload

def storedChecksum (f : Fragment) : Bytes :=
  LittleEndian.encode 4 (Crc32c.mask (Crc32c.checksum f.body)).toNat

def lengthBytes (f : Fragment) : Bytes :=
  [UInt8.ofNat (f.payload.length &&& 0xff), UInt8.ofNat (f.payload.length >>> 8)]

/-- The fragment's bytes with another checksum, type and payload; the length is as it was. -/
def altered (f : Fragment) (stored body : Bytes) : Bytes := stored ++ f.lengthBytes ++ body

end Fragment

/-- Errors in at most three or an odd number of bits, or all within 32 bits. -/
def Slight (e : List Bool) : Prop :=
  e.count true ≤ 3 ∨ e.count true % 2 = 1 ∨
    ∀ i j, e[i]? = some true → e[j]? = some true → j < i + 32

/-- Either the checksum in the header is another one, or the type and the payload have errors. -/
inductive Altered (f : Fragment) : Bytes → Bytes → Prop
  | stored {stored : Bytes} (length : stored.length = 4) (ne : stored ≠ Fragment.storedChecksum f) :
      Altered f stored (Fragment.body f)
  | body {body : Bytes} (length : body.length = (Fragment.body f).length)
      (ne : body ≠ Fragment.body f) (slight : Slight (Crc32c.flips (Fragment.body f) body)) :
      Altered f (Fragment.storedChecksum f) body

def Untouched (c : Bytes) (f : Fragment) : Prop := Fragment.bytes f <+: c.drop f.tag

instance (c : Bytes) (f : Fragment) : Decidable (Untouched c f) :=
  inferInstanceAs (Decidable (_ <+: _))

structure SlightlyDamaged (all : List Fragment) (c : Bytes) : Prop where
  length : c.length = stopFrom 0 all
  each : ∀ f ∈ all, Untouched c f ∨
    ∃ stored body, Altered f stored body ∧ Fragment.altered f stored body <+: c.drop f.tag

section Checksum
variable {f : Fragment} {stored body : Bytes}

/-- Four bytes stand for the checksum of no more than one string. -/
theorem stored_of_unmask {crc : UInt32} (hlength : stored.length = 4)
    (h : Crc32c.unmask (UInt32.ofNat (LittleEndian.decode stored)) = crc) :
    stored = LittleEndian.encode 4 (Crc32c.mask crc).toNat := by
  have hlt := LittleEndian.decode_lt stored
  rw [hlength] at hlt
  rw [← h, Crc32c.mask_unmask, UInt32.toNat_ofNat_of_lt' (by omega), ← hlength,
    LittleEndian.encode_decode]

/-- The checksum finds slight errors. -/
theorem Altered.checksum_ne (h : Altered f stored body) (hf : f.payload.length < 2 ^ 16) :
    stored.length = 4 ∧ body.length = 1 + f.payload.length ∧
      Crc32c.checksum body ≠ Crc32c.unmask (UInt32.ofNat (LittleEndian.decode stored)) := by
  have hbody : (Fragment.body f).length = 1 + f.payload.length := by
    rw [Fragment.body, List.length_cons, Nat.add_comm]
  cases h with
  | stored length ne =>
    refine ⟨length, hbody, fun heq => ne ?_⟩
    exact stored_of_unmask length heq.symm
  | @body body length ne slight =>
    refine ⟨by simp [Fragment.storedChecksum], length.trans hbody, fun heq => ?_⟩
    have hencode : Crc32c.unmask (UInt32.ofNat (LittleEndian.decode (Fragment.storedChecksum f))) =
        Crc32c.checksum (Fragment.body f) := checksum_header f []
    rw [hencode, ← Crc32c.value_eq true 0, ← Crc32c.value_eq true 0] at heq
    obtain ⟨⟨i, j, hij, hi, hj⟩, heven, hfour⟩ :=
      Crc32c.equal_checksums true 0 0 0 length.symm ne.symm heq.symm
    rcases slight with hfew | hodd | hclose
    · have hmany := hfour (by omega)
      omega
    · omega
    · have hfar := hclose i j hi hj
      omega

end Checksum

section Outcome
variable {c : Bytes} {all : List Fragment} {f : Fragment}

theorem outcome_altered {stored body : Bytes} (hf : Fits f) (haltered : Altered f stored body)
    (h : Fragment.altered f stored body <+: c.drop f.tag) : outcome c true f.tag = .bad := by
  obtain ⟨rest, hrest⟩ := h
  have hstop := hf.stop_le
  have hlt : f.payload.length < 2 ^ 16 := by
    have hroom := hf.room
    rw [avail_eq] at hroom
    omega
  obtain ⟨hstored, hbody, hne⟩ := haltered.checksum_ne hlt
  match stored, hstored with
  | [a, b, d, e], _ =>
    have hsize : (Fragment.altered f [a, b, d, e] body).length =
        kHeaderSize + f.payload.length := by
      rw [Fragment.altered, List.length_append, hbody]
      simp only [kHeaderSize, Fragment.lengthBytes, List.length_append, List.length_cons,
        List.length_nil]
      omega
    obtain ⟨y, hblock⟩ : ∃ y, blockRest c f.tag =
        Fragment.altered f [a, b, d, e] body ++ y := by
      refine ⟨rest.take (blockEnd f.tag - f.tag - (kHeaderSize + f.payload.length)), ?_⟩
      have hle : kHeaderSize + f.payload.length ≤ blockEnd f.tag - f.tag := by
        unfold Fragment.stop at hstop
        omega
      rw [blockRest, ← hrest, List.take_append, List.take_of_length_le (hsize.trans_le hle), hsize]
    have hlength : headerLength (blockRest c f.tag) = f.payload.length := by
      have hlow : ∀ x : Bytes, (Fragment.header f ++ x).getD 4 0 =
          UInt8.ofNat (f.payload.length &&& 0xff) := fun _ => rfl
      have hhigh : ∀ x : Bytes, (Fragment.header f ++ x).getD 5 0 =
          UInt8.ofNat (f.payload.length >>> 8) := fun _ => rfl
      have hheader := headerLength_header f [] hlt
      unfold headerLength at hheader ⊢
      dsimp only at hheader ⊢
      rw [hlow, hhigh] at hheader
      rw [hblock]
      exact hheader
    have htake : (blockRest c f.tag).take 4 = [a, b, d, e] := by rw [hblock]; rfl
    have hdrop : ((blockRest c f.tag).drop 6).take (1 + f.payload.length) = body := by
      have hsplit : (blockRest c f.tag).drop 6 = body ++ y := by rw [hblock]; rfl
      rw [hsplit, ← hbody, List.take_left]
    have hlong : kHeaderSize + f.payload.length ≤ (blockRest c f.tag).length := by
      rw [hblock, List.length_append, hsize]
      omega
    unfold outcome
    dsimp only
    rw [hlength, htake, hdrop, if_neg (by omega), if_neg (by omega), if_pos (⟨rfl, hne⟩ : _ ∧ _)]
    split_ifs <;> rfl

theorem outcome_past {p : ℕ} (h : c.length ≤ p) : outcome c true p = .eof := by
  apply Reader.outcome_of_short
  rw [blockRest_of_le h]
  decide

theorem SlightlyDamaged.eq_of_record (h : SlightlyDamaged all c) (hf : f ∈ all) (hfits : Fits f)
    {type : ℕ} {payload : Bytes} (hrecord : outcome c true f.tag = .record type payload) :
    (recordTypeOf f.kind).toNat = type ∧ f.payload = payload := by
  rcases h.each f hf with huntouched | ⟨stored, body, haltered, hprefix⟩
  · rw [outcome_of_written hfits huntouched true] at hrecord
    cases hrecord
    exact ⟨rfl, rfl⟩
  · rw [outcome_altered hfits haltered hprefix] at hrecord
    cases hrecord

theorem SlightlyDamaged.accepted_iff (h : SlightlyDamaged all c) (hf : f ∈ all) (hfits : Fits f) :
    Accepted c f ↔ Untouched c f := by
  constructor
  · intro haccepted
    rcases h.each f hf with huntouched | ⟨stored, body, haltered, hprefix⟩
    · exact huntouched
    · unfold Accepted at haccepted
      rw [outcome_altered hfits haltered hprefix] at haccepted
      cases haccepted
  · exact fun huntouched => outcome_of_written hfits huntouched true

/-- Behind a fragment comes the next one, or the end of the file. -/
theorem Laid.next {p : ℕ} {fs : List Fragment} (h : Laid p fs) (hf : f ∈ fs) :
    (∃ g ∈ fs, g.tag = headerPos (Fragment.stop f)) ∨ Fragment.stop f = stopFrom p fs := by
  induction fs generalizing p with
  | nil => cases hf
  | cons g fs ih =>
    obtain ⟨-, -, hrest⟩ := h
    rcases List.mem_cons.mp hf with rfl | hf
    · cases fs with
      | nil => exact .inr rfl
      | cons g fs => exact .inl ⟨g, List.mem_cons_of_mem f List.mem_cons_self, hrest.1⟩
    · rcases ih hrest hf with ⟨g', hg', htag⟩ | hend
      · exact .inl ⟨g', List.mem_cons_of_mem g hg', htag⟩
      · exact .inr hend

/-- Every block that the file reaches into starts with a fragment. -/
theorem Laid.tag_of_block {p b : ℕ} {fs : List Fragment} (h : Laid p fs) (hb : b % 4096 = 0)
    (hp : p ≤ b) (hlt : b < stopFrom p fs) : ∃ g ∈ fs, g.tag = b := by
  induction fs generalizing p with
  | nil => exact absurd hlt (Nat.not_lt.mpr hp)
  | cons f fs ih =>
    have hstop := (h.fits List.mem_cons_self).stop_le
    obtain ⟨htag, -, hrest⟩ := h
    have hpos := headerPos_eq p
    rw [blockEnd_eq] at hstop
    by_cases hle : b ≤ f.tag
    · refine ⟨f, List.mem_cons_self, ?_⟩
      split_ifs at hpos <;> omega
    · obtain ⟨g, hg, hgb⟩ := ih hrest (by omega) hlt
      exact ⟨g, List.mem_cons_of_mem f hg, hgb⟩

/-- The reader looks for a header only where one was written, or at the end. -/
theorem SlightlyDamaged.reached (h : SlightlyDamaged all c) (hlaid : Laid 0 all) {p : ℕ}
    (hp : Reached c p) : (∃ f ∈ all, f.tag = p) ∨ c.length ≤ p := by
  induction hp with
  | start =>
    cases hall : all with
    | nil =>
      right
      rw [h.length, hall]
      rfl
    | cons f fs =>
      rw [hall] at hlaid
      exact .inl ⟨f, List.mem_cons_self, hlaid.1⟩
  | @record p type payload _ found ih =>
    rcases ih with ⟨f, hf, rfl⟩ | hp
    · obtain ⟨-, rfl⟩ := h.eq_of_record hf (hlaid.fits hf) found
      rcases hlaid.next hf with hnext | hstop
      · exact .inl hnext
      · right
        rw [h.length, ← hstop]
        exact le_headerPos _
    · rw [outcome_past hp] at found
      cases found
  | @bad p _ found ih =>
    rcases ih with ⟨f, hf, rfl⟩ | hp
    · have hlength := blockRest_length c f.tag
      have hstop := hlaid.stop_le hf
      have hblock := lt_blockEnd f.tag
      unfold Fragment.stop at hstop
      rw [← h.length] at hstop
      by_cases hlast : c.length ≤ blockEnd f.tag
      · right
        have hle := le_headerPos (f.tag + (blockRest c f.tag).length)
        omega
      · left
        have hnext : f.tag + (blockRest c f.tag).length = blockEnd f.tag := by omega
        rw [hnext, headerPos_blockEnd]
        apply hlaid.tag_of_block (blockEnd_mod f.tag) (Nat.zero_le _)
        rw [← h.length]
        omega
    · rw [outcome_past hp] at found
      cases found

theorem SlightlyDamaged.damaged (h : SlightlyDamaged all c) (hlaid : Laid 0 all) :
    Damaged c Set.univ all where
  length := h.length
  laid := hlaid
  intact := fun _ _ hout => absurd (Set.mem_univ _) hout
  checked := by
    intro p hp _ type payload hrecord
    rcases h.reached hlaid hp with ⟨f, hf, rfl⟩ | hend
    · exact ⟨f, hf, rfl, h.eq_of_record hf (hlaid.fits hf) hrecord⟩
    · rw [outcome_past hend] at hrecord
      cases hrecord

end Outcome

/-- No fragment is damaged from the start of the fragment's block up to it. -/
def Clear (c : Bytes) (all : List Fragment) (f : Fragment) : Prop :=
  ∀ g ∈ all, blockEnd g.tag = blockEnd f.tag → g.tag ≤ f.tag → Untouched c g

instance (c : Bytes) (all : List Fragment) (f : Fragment) : Decidable (Clear c all f) :=
  inferInstanceAs (Decidable (∀ g ∈ all, _ → _ → Untouched c g))

/-- However many fragments are damaged, when each is damaged only slightly the reader returns the
records whose fragments are clear, in their order, and nothing else. -/
theorem slightDamage_read {rs : List Bytes} {content damaged : Bytes} (hlog : IsLog rs content)
    (hlength : damaged.length = content.length)
    (heach : ∀ f ∈ emitted 0 rs, Untouched damaged f ∨ ∃ stored body,
      Altered f stored body ∧ Fragment.altered f stored body <+: damaged.drop f.tag)
    (kLittleEndian : Bool) (filename : Bytes) (reporter : Option (List Report))
    (backingStore n : ℕ) :
    ∃ out r, (Reader.onFile damaged filename reporter true backingStore 0).readRecords
        kLittleEndian n = .ok (out, r) ∧
      out.map (Option.map Prod.fst) = recordsThenFalse n
        (((recordsFrom 0 rs).filter fun m =>
          m.pieces.all fun f => decide (Clear damaged (emitted 0 rs) f)).map Message.content) := by
  have hlaid := laid_emitted 0 rs
  have hslight : SlightlyDamaged (emitted 0 rs) damaged := {
    length := by rw [hlength, isLog_iff.mp hlog, length_layout]
    each := heach }
  have h := hslight.damaged hlaid
  have hsynced : Synced damaged (emitted 0 rs) [] (emitted 0 rs) 0 := {
    split := rfl
    before := fun g hg => by cases hg
    laid := hlaid
    length := h.length.symm
    reached := .start
    accepted := fun g hg => by cases hg }
  obtain ⟨evs, hscan, htrace⟩ := (scan_damaged h [] (emitted 0 rs)).1 0 hsynced
  have hclear : ∀ f, decide (Survives damaged (emitted 0 rs) f) =
      decide (Clear damaged (emitted 0 rs) f) := by
    intro f
    apply decide_eq_decide.mpr
    exact forall₂_congr fun g hg => by rw [hslight.accepted_iff hg (hlaid.fits hg)]
  simp only [hclear] at htrace
  obtain ⟨r, hr, -⟩ := @readRecords_spec kLittleEndian _ _ _ False reporter _ _ _
    ⟨reads_onFile damaged filename reporter true backingStore 0, hscan, rfl, rfl⟩
    UInt64.not_lt_zero (fun x _ => UInt64.not_lt_zero) False.elim n
  refine ⟨_, r, hr, ?_⟩
  rw [assemble_eq htrace, answers_records]
  rfl

/-- A log of two records, in the second of which one bit is wrong. -/
def oneFlip : Bytes :=
  Fragment.bytes ⟨.full, [1], 0⟩ ++
    Fragment.altered ⟨.full, [2], 8⟩ (Fragment.storedChecksum ⟨.full, [2], 8⟩) [1, 3]

theorem slightDamage_read_flip : ∃ out r,
    (Reader.onFile oneFlip [] none true 0 0).readRecords true 3 = .ok (out, r) ∧
      out.map (Option.map Prod.fst) = recordsThenFalse 3
        (((recordsFrom 0 [[1], [2]]).filter fun m => m.pieces.all fun f =>
          decide (Clear oneFlip (emitted 0 [[1], [2]]) f)).map Message.content) := by
  refine slightDamage_read (isLog_iff.mpr rfl) ?_ ?_ true [] none 0 3
  · rw [length_layout_pair]
    rfl
  · rw [emitted_pair]
    intro f hf
    rcases List.mem_pair.mp hf with rfl | rfl
    · exact .inl (by decide +kernel)
    · refine .inr ⟨_, [1, 3], .body rfl (by decide) (.inl (by decide +kernel)), ?_⟩
      exact List.prefix_refl _

end Ibdb.Log
