import Ibdb.Base.Utils
import Mathlib.Data.Nat.Digits.Defs

/-! Numbers and bytes as text. -/
namespace Ibdb.Base

def decimal (n : ℕ) : Bytes := (Nat.toDigits 10 n).map fun c => UInt8.ofNat c.toNat

/-- `AppendNumberTo`; `snprintf` has room for 29 digits. -/
def appendNumberTo (str : Bytes) (num : UInt64) : Bytes := str ++ (decimal num.toNat).take 29

def numberToString (num : UInt64) : Bytes := appendNumberTo [] num

def kMaxUint64 : UInt64 := 18446744073709551615

def kLastDigitOfMaxUint64 : UInt8 := 48 + (kMaxUint64 % 10).toUInt8

/-- The loop of `ConsumeDecimalNumber`: the value and the digits consumed, nothing on overflow. -/
def consumeDigits : Bytes → UInt64 → ℕ → Option (UInt64 × ℕ)
  | [], value, consumed => some (value, consumed)
  | ch :: rest, value, consumed =>
    if ch < 48 ∨ 57 < ch then some (value, consumed)
    else if kMaxUint64 / 10 < value ∨ (value = kMaxUint64 / 10 ∧ kLastDigitOfMaxUint64 < ch) then
      none
    else consumeDigits rest (value * 10 + (ch - 48).toUInt64) (consumed + 1)

/-- `ConsumeDecimalNumber(in, val)`: the answer, and what `*in` and `*val` then are. -/
def consumeDecimalNumber (input : Bytes) (val : UInt64) : Bool × Bytes × UInt64 :=
  match consumeDigits input 0 0 with
  | none => (false, input, val)
  | some (value, consumed) => (consumed ≠ 0, input.drop consumed, value)

def isDigit (ch : UInt8) : Bool := 48 ≤ ch ∧ ch ≤ 57

/-- The number that digits stand for after those of `n`. -/
def digitsValue (n : ℕ) (digits : Bytes) : ℕ :=
  digits.foldl (fun n ch => n * 10 + (ch.toNat - 48)) n

theorem digitsValue_cons (n : ℕ) (ch : UInt8) (rest : Bytes) :
    digitsValue n (ch :: rest) = digitsValue (n * 10 + (ch.toNat - 48)) rest := by
  rw [digitsValue, List.foldl_cons, ← digitsValue]

theorem digitsValue_append (n : ℕ) (digits more : Bytes) :
    digitsValue n (digits ++ more) = digitsValue (digitsValue n digits) more := by
  rw [digitsValue, List.foldl_append, ← digitsValue, ← digitsValue]

theorem le_digitsValue (n : ℕ) (digits : Bytes) : n ≤ digitsValue n digits := by
  induction digits generalizing n with
  | nil => exact le_rfl
  | cons ch rest ih =>
    have hnext : n ≤ n * 10 + (ch.toNat - 48) := by omega
    exact hnext.trans (ih _)

theorem isDigit_iff {ch : UInt8} : isDigit ch = true ↔ 48 ≤ ch.toNat ∧ ch.toNat ≤ 57 := by
  simp [isDigit, UInt8.le_iff_toNat_le]

/-- The check before each digit is exact. -/
theorem overflow_iff {value : UInt64} {ch : UInt8} (h : isDigit ch = true) :
    kMaxUint64 / 10 < value ∨ (value = kMaxUint64 / 10 ∧ kLastDigitOfMaxUint64 < ch) ↔
      2 ^ 64 ≤ value.toNat * 10 + (ch.toNat - 48) := by
  have hrange := isDigit_iff.mp h
  rw [show kMaxUint64 / 10 = 1844674407370955161 from rfl,
    show kLastDigitOfMaxUint64 = 53 from rfl, UInt64.lt_iff_toNat_lt, ← UInt64.toNat_inj,
    UInt8.lt_iff_toNat_lt]
  simp only [UInt64.reduceToNat, UInt8.reduceToNat]
  omega

theorem toNat_next {value : UInt64} {ch : UInt8} (h : isDigit ch = true)
    (hfits : value.toNat * 10 + (ch.toNat - 48) < 2 ^ 64) :
    (value * 10 + (ch - 48).toUInt64).toNat = value.toNat * 10 + (ch.toNat - 48) := by
  have hsub : (ch - 48).toNat = ch.toNat - 48 :=
    UInt8.toNat_sub_of_le _ _ (UInt8.le_iff_toNat_le.mpr (isDigit_iff.mp h).1)
  rw [UInt64.toNat_add, UInt64.toNat_mul, UInt8.toNat_toUInt64, hsub]
  simp only [UInt64.reduceToNat]
  omega

/-- The loop reads the digits in front; it fails just when their number does not fit. -/
theorem consumeDigits_eq (input : Bytes) (value : UInt64) (consumed : ℕ) :
    consumeDigits input value consumed =
      if digitsValue value.toNat (input.takeWhile isDigit) < 2 ^ 64 then
        some (UInt64.ofNat (digitsValue value.toNat (input.takeWhile isDigit)),
          consumed + (input.takeWhile isDigit).length)
      else none := by
  induction input generalizing value consumed with
  | nil =>
    rw [consumeDigits, List.takeWhile_nil, digitsValue, List.foldl_nil, if_pos value.toNat_lt,
      UInt64.ofNat_toNat]
    rfl
  | cons ch rest ih =>
    rw [consumeDigits]
    by_cases hdigit : isDigit ch = true
    · have hrange := isDigit_iff.mp hdigit
      have hnot : ¬ (ch < 48 ∨ 57 < ch) := by
        simp only [UInt8.lt_iff_toNat_lt, UInt8.reduceToNat]
        omega
      rw [if_neg hnot, List.takeWhile_cons_of_pos hdigit, digitsValue_cons]
      by_cases hover : 2 ^ 64 ≤ value.toNat * 10 + (ch.toNat - 48)
      · rw [if_pos ((overflow_iff hdigit).mpr hover),
          if_neg (not_lt.mpr (hover.trans (le_digitsValue _ _)))]
      · rw [if_neg (mt (overflow_iff hdigit).mp hover), ih, toNat_next hdigit (not_le.mp hover),
          List.length_cons, Nat.add_assoc, Nat.add_comm 1]
    · have hother : ch < 48 ∨ 57 < ch := by
        rw [isDigit_iff] at hdigit
        simp only [UInt8.lt_iff_toNat_lt, UInt8.reduceToNat]
        omega
      rw [if_pos hother, List.takeWhile_cons_of_neg hdigit, digitsValue, List.foldl_nil,
        if_pos value.toNat_lt, UInt64.ofNat_toNat]
      rfl

theorem consumeDecimalNumber_eq (input : Bytes) (val : UInt64) :
    consumeDecimalNumber input val =
      if digitsValue 0 (input.takeWhile isDigit) < 2 ^ 64 then
        (decide (input.takeWhile isDigit ≠ []), input.dropWhile isDigit,
          UInt64.ofNat (digitsValue 0 (input.takeWhile isDigit)))
      else (false, input, val) := by
  have hdrop : input.drop (input.takeWhile isDigit).length = input.dropWhile isDigit := by
    calc input.drop (input.takeWhile isDigit).length
        = (input.takeWhile isDigit ++ input.dropWhile isDigit).drop
            (input.takeWhile isDigit).length := by rw [List.takeWhile_append_dropWhile]
      _ = input.dropWhile isDigit := List.drop_left
  rw [consumeDecimalNumber, consumeDigits_eq, UInt64.toNat_zero, Nat.zero_add]
  split_ifs with hfits
  · simp only [hdrop, List.length_eq_zero_iff, ne_eq]
  · rfl

section Decimal

theorem decimal_of_lt {n : ℕ} (h : n < 10) : decimal n = [UInt8.ofNat (48 + n)] := by
  rw [decimal, Nat.toDigits_of_lt_base h, List.map_singleton, Nat.toNat_digitChar_of_lt_ten h]

theorem decimal_next {n d : ℕ} (hn : 0 < n) (hd : d < 10) :
    decimal (n * 10 + d) = decimal n ++ [UInt8.ofNat (48 + d)] := by
  rw [← decimal_of_lt hd, decimal, decimal, decimal, ← List.map_append,
    Nat.toDigits_append_toDigits (by norm_num) hn hd, Nat.mul_comm]

theorem toNat_digit {d : ℕ} (hd : d < 10) : (UInt8.ofNat (48 + d)).toNat = 48 + d :=
  UInt8.toNat_ofNat_of_lt' (show 48 + d < 256 by omega)

/-- What is printed is digits of the number. -/
theorem decimal_digits (n : ℕ) :
    (∀ ch ∈ decimal n, isDigit ch = true) ∧ digitsValue 0 (decimal n) = n := by
  induction n using Nat.strong_induction_on with
  | _ n ih =>
    have hlast := toNat_digit (Nat.mod_lt n (by norm_num : 10 > 0))
    rcases Nat.lt_or_ge n 10 with hlt | hge
    · rw [Nat.mod_eq_of_lt hlt] at hlast
      rw [decimal_of_lt hlt, List.forall_mem_singleton, isDigit_iff, digitsValue, List.foldl_cons,
        List.foldl_nil, hlast]
      omega
    · obtain ⟨hdigits, hvalue⟩ := ih (n / 10) (by omega)
      have hn : decimal n = decimal (n / 10) ++ [UInt8.ofNat (48 + n % 10)] := by
        rw [← decimal_next (by omega) (Nat.mod_lt n (by norm_num)), Nat.div_add_mod']
      rw [hn, digitsValue_append, hvalue, digitsValue, List.foldl_cons, List.foldl_nil, hlast]
      refine ⟨List.forall_mem_append.mpr ⟨hdigits, ?_⟩, by omega⟩
      rw [List.forall_mem_singleton, isDigit_iff, hlast]
      omega

theorem digitsValue_zeros (k : ℕ) (digits : Bytes) :
    digitsValue 0 (List.replicate k 48 ++ digits) = digitsValue 0 digits := by
  induction k with
  | zero => rfl
  | succ k ih =>
    rw [List.replicate_succ, List.cons_append, digitsValue_cons]
    exact ih

/-- Digits are zeros and then what is printed of their number. -/
theorem eq_zeros_decimal {digits : Bytes} (hne : digits ≠ [])
    (h : ∀ ch ∈ digits, isDigit ch = true) :
    ∃ k, digits = List.replicate k 48 ++ decimal (digitsValue 0 digits) := by
  induction digits using List.reverseRecOn with
  | nil => exact absurd rfl hne
  | append_singleton front ch ih =>
    have hrange := isDigit_iff.mp (h ch (by simp))
    have hch : UInt8.ofNat (48 + (ch.toNat - 48)) = ch := by
      rw [Nat.add_sub_cancel' hrange.1, UInt8.ofNat_toNat]
    have hvalue : digitsValue 0 (front ++ [ch]) = digitsValue 0 front * 10 + (ch.toNat - 48) :=
      digitsValue_append _ _ _
    rw [hvalue]
    rcases Nat.eq_zero_or_pos (digitsValue 0 front) with hzero | hpos
    · rw [hzero, Nat.zero_mul, Nat.zero_add, decimal_of_lt (by omega), hch]
      rcases eq_or_ne front [] with rfl | hfront
      · exact ⟨0, rfl⟩
      · obtain ⟨k, hk⟩ := ih hfront fun b hb => h b (List.mem_append_left _ hb)
        refine ⟨k + 1, ?_⟩
        rw [hzero] at hk
        rw [hk, List.replicate_succ']
        rfl
    · have hfront : front ≠ [] := by
        rintro rfl
        exact absurd hpos (lt_irrefl 0)
      obtain ⟨k, hk⟩ := ih hfront fun b hb => h b (List.mem_append_left _ hb)
      refine ⟨k, ?_⟩
      rw [decimal_next hpos (by omega), hch, ← List.append_assoc, ← hk]

theorem numberToString_eq (num : UInt64) : numberToString num = decimal num.toNat := by
  have hlength : (decimal num.toNat).length ≤ 29 := by
    rw [decimal, List.length_map]
    exact Nat.toDigits_length 10 num.toNat 29 (by norm_num) (num.toNat_lt.trans (by norm_num))
  rw [numberToString, appendNumberTo, List.nil_append, List.take_of_length_le hlength]

end Decimal

/-- `ConsumeDecimalNumber` reads exactly what `NumberToString` prints of a number, zeros before it
allowed, up to the first byte that is no digit. -/
theorem consumeDecimalNumber_iff (input rest : Bytes) (val num : UInt64) :
    consumeDecimalNumber input val = (true, rest, num) ↔
      (∀ ch ∈ rest.head?, isDigit ch = false) ∧
        ∃ k, input = List.replicate k 48 ++ numberToString num ++ rest := by
  rw [consumeDecimalNumber_eq, numberToString_eq]
  constructor
  · intro h
    split_ifs at h with hfits
    · obtain ⟨hsome, hrest, hnum⟩ := by simpa only [Prod.mk.injEq] using h
      subst hrest
      subst hnum
      refine ⟨fun ch hch => ?_, ?_⟩
      · have hstop := List.head?_dropWhile_not isDigit input
        rw [hch] at hstop
        exact hstop
      · obtain ⟨k, hk⟩ := eq_zeros_decimal (of_decide_eq_true hsome)
          fun ch hch => List.mem_takeWhile_imp hch
        refine ⟨k, ?_⟩
        rw [UInt64.toNat_ofNat_of_lt' hfits, ← hk, List.takeWhile_append_dropWhile]
    · cases h
  · rintro ⟨hrest, k, rfl⟩
    obtain ⟨hdigits, hvalue⟩ := decimal_digits num.toNat
    have hall : ∀ ch ∈ List.replicate k 48 ++ decimal num.toNat, isDigit ch = true := by
      intro ch hch
      rcases List.mem_append.mp hch with hzero | hch
      · rw [List.eq_of_mem_replicate hzero]
        rfl
      · exact hdigits ch hch
    have hstop : rest.takeWhile isDigit = [] ∧ rest.dropWhile isDigit = rest := by
      cases rest with
      | nil => exact ⟨rfl, rfl⟩
      | cons ch rest => simp [hrest ch rfl]
    have hne : List.replicate k 48 ++ decimal num.toNat ≠ [] := by
      intro hnil
      have hzero := List.append_eq_nil_iff.mp hnil
      simp [decimal] at hzero
    rw [List.takeWhile_append_of_pos hall, List.dropWhile_append_of_pos hall, hstop.1, hstop.2,
      List.append_nil, digitsValue_zeros, hvalue, if_pos num.toNat_lt, UInt64.ofNat_toNat,
      decide_eq_true hne]

example : consumeDecimalNumber (ascii "007 bytes") 0 = (true, ascii " bytes", 7) := by decide

/-! Text with the bytes that cannot be printed written out. -/

def hexDigit (n : ℕ) : UInt8 := UInt8.ofNat (if n < 10 then 48 + n else 87 + n)

/-- A byte from 128 on is negative as a `char`, and below the blank. -/
def isPrintable (c : UInt8) : Bool := 32 ≤ c ∧ c ≤ 126

/-- What `AppendEscapedStringTo` appends for a byte: the byte, or `\x` and two digits. -/
def escapedByte (c : UInt8) : Bytes :=
  if isPrintable c then [c] else [92, 120, hexDigit (c.toNat / 16), hexDigit (c.toNat % 16)]

def appendEscapedStringTo (str value : Bytes) : Bytes :=
  value.foldl (fun str c => str ++ escapedByte c) str

def escapeString (value : Bytes) : Bytes := appendEscapedStringTo [] value

theorem escapeString_eq (value : Bytes) : escapeString value = value.flatMap escapedByte := by
  have happend : ∀ str, appendEscapedStringTo str value = str ++ value.flatMap escapedByte := by
    induction value with
    | nil => exact fun str => (List.append_nil str).symm
    | cons c rest ih =>
      intro str
      rw [appendEscapedStringTo, List.foldl_cons, ← appendEscapedStringTo, ih,
        List.flatMap_cons, List.append_assoc]
  rw [escapeString, happend, List.nil_append]

theorem escapeString_cons (c : UInt8) (rest : Bytes) :
    escapeString (c :: rest) = escapedByte c ++ escapeString rest := by
  rw [escapeString_eq, escapeString_eq, List.flatMap_cons]

theorem isPrintable_hexDigit : ∀ n < 16, isPrintable (hexDigit n) = true ∧ hexDigit n ≠ 92 := by
  decide

theorem escapedByte_of_not {c : UInt8} (h : isPrintable c = false) :
    escapedByte c = [92, 120, hexDigit (c.toNat / 16), hexDigit (c.toNat % 16)] := by
  rw [escapedByte, h, if_neg Bool.false_ne_true]

theorem escapedByte_of_printable {c : UInt8} (h : isPrintable c = true) : escapedByte c = [c] :=
  if_pos h

theorem printable_escapedByte {c ch : UInt8} (h : ch ∈ escapedByte c) : isPrintable ch = true := by
  cases hc : isPrintable c with
  | true =>
    rw [escapedByte_of_printable hc, List.mem_singleton] at h
    rw [h, hc]
  | false =>
    have hhigh := (isPrintable_hexDigit (c.toNat / 16) (by have := c.toNat_lt; omega)).1
    have hlow := (isPrintable_hexDigit (c.toNat % 16) (by omega)).1
    rw [escapedByte_of_not hc] at h
    simp only [List.mem_cons, List.not_mem_nil, or_false] at h
    rcases h with rfl | rfl | rfl | rfl
    · rfl
    · rfl
    · exact hhigh
    · exact hlow

/-- Text that can be printed is its own escape. -/
theorem escapeString_append {text : Bytes} (h : ∀ ch ∈ text, isPrintable ch = true)
    (rest : Bytes) : escapeString (text ++ rest) = text ++ escapeString rest := by
  induction text with
  | nil => rfl
  | cons c text ih =>
    rw [List.cons_append, escapeString_cons, escapedByte_of_printable (h c List.mem_cons_self),
      ih fun ch hch => h ch (List.mem_cons_of_mem _ hch)]
    rfl

def hexValue (ch : UInt8) : Option ℕ :=
  if 48 ≤ ch ∧ ch ≤ 57 then some (ch.toNat - 48)
  else if 97 ≤ ch ∧ ch ≤ 102 then some (ch.toNat - 87)
  else none

/-- The byte that is written out at the front of a text. -/
def escapedAt : Bytes → Option UInt8
  | 92 :: 120 :: high :: low :: _ => do
    let h ← hexValue high
    let l ← hexValue low
    let c := UInt8.ofNat (16 * h + l)
    if isPrintable c then none else some c
  | _ => none

/-- A text with each byte for what is written out for it. -/
def unescape : Bytes → Bytes
  | [] => []
  | c :: rest =>
    match escapedAt (c :: rest) with
    | some b => b :: unescape (rest.drop 3)
    | none => c :: unescape rest
termination_by text => text.length
decreasing_by all_goals simp [List.length_drop]

theorem hexValue_hexDigit : ∀ n < 16, hexValue (hexDigit n) = some n := by decide

theorem hexDigit_of_hexValue {ch : UInt8} {n : ℕ} (h : hexValue ch = some n) :
    n < 16 ∧ hexDigit n = ch := by
  unfold hexValue at h
  split_ifs at h with hdecimal hletter
  · have hrange : 48 ≤ ch.toNat ∧ ch.toNat ≤ 57 := by
      simpa [UInt8.le_iff_toNat_le] using hdecimal
    cases h
    refine ⟨by omega, ?_⟩
    rw [hexDigit, if_pos (by omega), Nat.add_sub_cancel' hrange.1, UInt8.ofNat_toNat]
  · have hrange : 97 ≤ ch.toNat ∧ ch.toNat ≤ 102 := by
      simpa [UInt8.le_iff_toNat_le] using hletter
    cases h
    refine ⟨by omega, ?_⟩
    rw [hexDigit, if_neg (by omega), Nat.add_sub_cancel' (by omega), UInt8.ofNat_toNat]

theorem escapedAt_eq_some {text : Bytes} {b : UInt8} :
    escapedAt text = some b ↔ isPrintable b = false ∧ ∃ rest, text = escapedByte b ++ rest := by
  constructor
  · intro h
    unfold escapedAt at h
    split at h
    · rename_i high low rest
      simp only [Option.bind_eq_bind, Option.bind_eq_some_iff] at h
      obtain ⟨x, hx, y, hy, h⟩ := h
      obtain ⟨hx16, hhigh⟩ := hexDigit_of_hexValue hx
      obtain ⟨hy16, hlow⟩ := hexDigit_of_hexValue hy
      split_ifs at h with hprintable
      cases h
      have hbyte : (UInt8.ofNat (16 * x + y)).toNat = 16 * x + y :=
        UInt8.toNat_ofNat_of_lt' (show 16 * x + y < 256 by omega)
      have hnot := Bool.eq_false_iff.mpr hprintable
      refine ⟨hnot, rest, ?_⟩
      rw [escapedByte_of_not hnot, hbyte, show (16 * x + y) / 16 = x by omega,
        show (16 * x + y) % 16 = y by omega, hhigh, hlow]
      rfl
    · cases h
  · rintro ⟨hnot, rest, rfl⟩
    have hlt := b.toNat_lt
    rw [escapedByte_of_not hnot]
    simp only [List.cons_append, List.nil_append, escapedAt,
      hexValue_hexDigit (b.toNat / 16) (by omega), hexValue_hexDigit (b.toNat % 16) (by omega),
      Option.bind_eq_bind, Option.bind_some, Nat.div_add_mod, UInt8.ofNat_toNat, hnot]
    rfl

theorem escapedAt_cons {c b : UInt8} {rest : Bytes} (h : escapedAt (c :: rest) = some b) :
    isPrintable b = false ∧ c :: rest = escapedByte b ++ rest.drop 3 := by
  obtain ⟨hnot, text, htext⟩ := escapedAt_eq_some.mp h
  refine ⟨hnot, ?_⟩
  rw [htext]
  rw [escapedByte_of_not hnot] at htext ⊢
  rw [(List.cons.inj htext).2]
  rfl

theorem unescape_escapedByte {b : UInt8} (h : isPrintable b = false) (rest : Bytes) :
    unescape (escapedByte b ++ rest) = b :: unescape rest := by
  have hat : escapedAt (escapedByte b ++ rest) = some b := escapedAt_eq_some.mpr ⟨h, rest, rfl⟩
  rw [escapedByte_of_not h] at hat ⊢
  simp only [List.cons_append, List.nil_append] at hat ⊢
  rw [unescape, hat]
  rfl

theorem unescape_cons {c : UInt8} {rest : Bytes} (h : escapedAt (c :: rest) = none) :
    unescape (c :: rest) = c :: unescape rest := by
  rw [unescape, h]

/-- What an escape begins with the value does, unless that is a backslash. -/
theorem of_escapeString_cons {value text : Bytes} {ch : UInt8} (hch : ch ≠ 92)
    (h : escapeString value = ch :: text) :
    ∃ rest, value = ch :: rest ∧ escapeString rest = text := by
  cases value with
  | nil => cases h
  | cons c rest =>
    rw [escapeString_cons] at h
    cases hc : isPrintable c with
    | true =>
      rw [escapedByte_of_printable hc] at h
      obtain ⟨rfl, htext⟩ := List.cons.inj h
      exact ⟨rest, rfl, htext⟩
    | false =>
      rw [escapedByte_of_not hc] at h
      exact absurd (List.cons.inj h).1.symm hch

/-- The escape of a value has at its front what the value has. -/
theorem escapedAt_escapeString {c : UInt8} {rest : Bytes} (h : escapedAt (c :: rest) = none) :
    escapedAt (c :: escapeString rest) = none := by
  by_contra hsome
  obtain ⟨b, hb⟩ := Option.ne_none_iff_exists'.mp hsome
  obtain ⟨hnot, text, htext⟩ := escapedAt_eq_some.mp hb
  have hlt := b.toNat_lt
  rw [escapedByte_of_not hnot] at htext
  obtain ⟨rfl, h1⟩ := List.cons.inj htext
  obtain ⟨rest1, rfl, h2⟩ := of_escapeString_cons (by decide) h1
  obtain ⟨rest2, rfl, h3⟩ := of_escapeString_cons (isPrintable_hexDigit _ (by omega)).2 h2
  obtain ⟨rest3, rfl, -⟩ := of_escapeString_cons (isPrintable_hexDigit _ (by omega)).2 h3
  have hold : escapedAt (92 :: 120 :: hexDigit (b.toNat / 16) :: hexDigit (b.toNat % 16) ::
      rest3) = some b :=
    escapedAt_eq_some.mpr ⟨hnot, rest3, by rw [escapedByte_of_not hnot]; rfl⟩
  rw [hold] at h
  cases h

/-- Escaping and reading back gives what reading the value gives. -/
theorem unescape_escapeString (value : Bytes) :
    unescape (escapeString value) = unescape value := by
  induction value using unescape.induct with
  | case1 => rfl
  | case2 c rest b hat ih =>
    obtain ⟨hnot, htext⟩ := escapedAt_cons hat
    rw [htext, escapeString_append (fun ch hch => printable_escapedByte hch),
      unescape_escapedByte hnot, unescape_escapedByte hnot, ih]
  | case3 c rest hat ih =>
    rw [unescape_cons hat, escapeString_cons]
    cases hc : isPrintable c with
    | true =>
      rw [escapedByte_of_printable hc, List.singleton_append,
        unescape_cons (escapedAt_escapeString hat), ih]
    | false => rw [unescape_escapedByte hc, ih]

/-- A byte and what is written out for it have one escape. -/
theorem escapeString_unescape (value : Bytes) :
    escapeString (unescape value) = escapeString value := by
  induction value using unescape.induct with
  | case1 => rw [unescape]
  | case2 c rest b hat ih =>
    obtain ⟨hnot, htext⟩ := escapedAt_cons hat
    rw [htext, unescape_escapedByte hnot, escapeString_cons, ih,
      escapeString_append fun ch hch => printable_escapedByte hch]
  | case3 c rest hat ih => rw [unescape_cons hat, escapeString_cons, escapeString_cons, ih]

/-- The escape of a value can be printed, and reads back as the value does. Two values have one
escape exactly when they differ only in bytes that one has and the other has written out. -/
theorem escapeString_reads (value other : Bytes) :
    (∀ ch ∈ escapeString value, isPrintable ch = true) ∧
      unescape (escapeString value) = unescape value ∧
      (escapeString value = escapeString other ↔ unescape value = unescape other) := by
  refine ⟨fun ch hch => ?_, unescape_escapeString value, fun h => ?_, fun h => ?_⟩
  · rw [escapeString_eq] at hch
    obtain ⟨c, -, hc⟩ := List.mem_flatMap.mp hch
    exact printable_escapedByte hc
  · rw [← unescape_escapeString value, h, unescape_escapeString]
  · rw [← escapeString_unescape value, h, escapeString_unescape]

example : escapeString [1] = escapeString (ascii "\\x01") := by decide

end Ibdb.Base
