import Ibdb.Base.Crc32c
import Ibdb.Lib.CrcErrors
import Mathlib.NumberTheory.LucasLehmer

/-! The errors that the checksum of the log's records finds. -/
namespace Ibdb.Base.Crc32c

def flips (a b : Bytes) : List Bool := Crc.flips (messageBits a) (messageBits b)

theorem length_messageBits (a : Bytes) : (messageBits a).length = 8 * a.length := by
  induction a with
  | nil => rfl
  | cons x a ih =>
    rw [show messageBits (x :: a) = (List.range 8).map x.toBitVec.getLsbD ++ messageBits a from rfl,
      List.length_append, ih]
    simp
    omega

theorem length_flips {a b : Bytes} (h : a.length = b.length) :
    (flips a b).length = 8 * a.length := by
  rw [flips, Crc.flips, List.length_zipWith, length_messageBits, length_messageBits, h, min_self]

theorem messageBits_injective {a b : Bytes} (h : messageBits a = messageBits b) : a = b := by
  induction a generalizing b with
  | nil =>
    have hlength := congrArg List.length h
    rw [length_messageBits, length_messageBits] at hlength
    have hempty : b.length = 0 := by
      rw [List.length_nil] at hlength
      omega
    exact (List.eq_nil_of_length_eq_zero hempty).symm
  | cons x a ih =>
    cases b with
    | nil =>
      have hlength := congrArg List.length h
      rw [length_messageBits, length_messageBits, List.length_cons, List.length_nil] at hlength
      omega
    | cons y b =>
      obtain ⟨hbyte, hrest⟩ := List.append_inj
        (show (List.range 8).map x.toBitVec.getLsbD ++ messageBits a =
          (List.range 8).map y.toBitVec.getLsbD ++ messageBits b from h) (by simp)
      congr 1
      · apply UInt8.toBitVec_inj.mp
        apply BitVec.eq_of_getLsbD_eq
        intro i hi
        exact List.map_inj_left.mp hbyte i (List.mem_range.mpr hi)
      · exact ih hrest

/-- Different strings of one length differ in some bit. -/
theorem flips_of_ne {a b : Bytes} (hlength : a.length = b.length) (hne : a ≠ b) :
    true ∈ flips a b := by
  by_contra hnone
  apply hne
  apply messageBits_injective
  have hbits : (messageBits a).length = (messageBits b).length := by
    rw [length_messageBits, length_messageBits, hlength]
  apply List.ext_getElem hbits
  intro i hi hi'
  have hin : i < (flips a b).length := by rwa [length_flips hlength, ← length_messageBits]
  have hflip : (flips a b)[i] = ((messageBits a)[i] ^^ (messageBits b)[i]) := List.getElem_zipWith
  have hmem := List.getElem_mem hin
  rw [hflip] at hmem
  by_contra hdiff
  have hxor : ((messageBits a)[i] ^^ (messageBits b)[i]) = true := by
    rw [bne_iff_ne]
    exact hdiff
  rw [hxor] at hmem
  exact hnone hmem

theorem extend_eq_iff (kLittleEndian : Bool) (pval pval' : ℕ) (crc : UInt32) {a b : Bytes}
    (h : a.length = b.length) : extend kLittleEndian pval crc a = extend kLittleEndian pval' crc b ↔
      Crc.Missed polynomial (flips a b) := by
  have hbits : (messageBits a).length = (messageBits b).length := by
    rw [length_messageBits, length_messageBits, h]
  rw [extend_eq, extend_eq, UInt32.xor_left_inj, ← UInt32.toBitVec_inj, foldl_step1_serial,
    foldl_step1_serial, Crc.serial_eq_iff _ hbits]
  rfl

theorem polynomial_msb : polynomial.msb = true := by decide

theorem polynomial_parity : Crc.parity 32 polynomial = true := by decide

/-- The register comes back after as many steps as a maximal one has states. -/
theorem polynomial_period : Crc.steps polynomial (2 ^ 31 - 1) 1#32 = 1#32 := by
  have hround : (Crc.square polynomial)^[31] (Crc.bitStep polynomial (Crc.top 32)) =
      Crc.bitStep polynomial (Crc.top 32) := by decide +kernel
  have htop : Crc.steps polynomial (2 ^ 31 - 1) (Crc.top 32) = Crc.top 32 := by
    apply Crc.bitStep_injective polynomial_msb
    rw [← hround, ← Crc.steps_two_pow]
    exact (Crc.steps_add polynomial _ 1 (2 ^ 31 - 1)).symm
  have hone : 1#32 = Crc.steps polynomial 31 (Crc.top 32) := by decide +kernel
  rw [hone, ← Crc.steps_add, Nat.add_comm, Crc.steps_add, htop]

theorem prime_period : (2 ^ 31 - 1).Prime :=
  lucas_lehmer_sufficiency 31 (by norm_num) (by norm_num)

/-- Two strings of one length with the same checksum differ in an even number of bits that spread
over more than 32 of them, and in at least four bits if they are shorter than 2^28 bytes. -/
theorem equal_checksums (kLittleEndian : Bool) (pval pval' : ℕ) (crc : UInt32) {a b : Bytes}
    (hlength : a.length = b.length) (hne : a ≠ b)
    (h : extend kLittleEndian pval crc a = extend kLittleEndian pval' crc b) :
    (∃ i j, i + 32 ≤ j ∧ (flips a b)[i]? = some true ∧ (flips a b)[j]? = some true) ∧
      (flips a b).count true % 2 = 0 ∧
      (a.length < 2 ^ 28 → 4 ≤ (flips a b).count true) := by
  have hmissed := (extend_eq_iff kLittleEndian pval pval' crc hlength).mp h
  have hset := flips_of_ne hlength hne
  have heven := Crc.missed_even (by decide) polynomial_parity hmissed
  refine ⟨Crc.missed_wide polynomial_msb hmissed hset, heven, fun hshort => ?_⟩
  have hpos := List.count_pos_iff.mpr hset
  have htwo : (flips a b).count true ≠ 2 := by
    intro htwo
    have hlong := Crc.missed_two_of_prime polynomial_msb prime_period polynomial_period
      (by decide) hmissed htwo
    rw [length_flips hlength] at hlong
    omega
  omega

/-- The bits of the polynomial, which are missed. -/
theorem equal_checksums_five :
    (∃ i j, i + 32 ≤ j ∧ (flips [0, 0, 0, 0, 0] [0xf1, 0x76, 0xec, 0x05, 0x01])[i]? = some true ∧
      (flips [0, 0, 0, 0, 0] [0xf1, 0x76, 0xec, 0x05, 0x01])[j]? = some true) ∧
      (flips [0, 0, 0, 0, 0] [0xf1, 0x76, 0xec, 0x05, 0x01]).count true % 2 = 0 ∧
      (5 < 2 ^ 28 → 4 ≤ (flips [0, 0, 0, 0, 0] [0xf1, 0x76, 0xec, 0x05, 0x01]).count true) :=
  equal_checksums true 0 0 0 rfl (by decide) (by decide +kernel)

end Ibdb.Base.Crc32c
