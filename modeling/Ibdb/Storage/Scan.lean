import Ibdb.Lib.SortedMap
import Ibdb.Storage.Record

/-! The two searches behind a read: through the sparse index to a record at or before the one
wanted, and from there through the log. -/
namespace Ibdb.Storage
open Base Log
open Std (ExtTreeMap)

/-- What a read of record `i` gives while the file holds the first `f` bytes of the log. -/
def readRecord (ms : List Bytes) (f i : ℕ) : Except Fault (Option Bytes) :=
  match ms[i]? with
  | none => .ok none
  | some m =>
    if f < position ms i + 12 then .ok none
    else if m.length = 2 ^ 31 - 1 then .error .badAlloc
    else if position ms (i + 1) ≤ f then .ok (some m)
    else .ok none

theorem readRecord_of_lt {ms : List Bytes} {f i : ℕ} (h : f < position ms i + 12) :
    readRecord ms f i = .ok none := by
  unfold readRecord
  split
  · rfl
  · rw [if_pos h]

theorem readRecord_of_length_le {ms : List Bytes} {f i : ℕ} (h : ms.length ≤ i) :
    readRecord ms f i = .ok none := by
  simp [readRecord, h]

/-- A message that can be read is read exactly when all of its record is in the file. -/
theorem readRecord_of_short {ms : List Bytes} {f i : ℕ} (h : i < ms.length)
    (hm : ms[i].length < 2 ^ 31 - 1) :
    readRecord ms f i = .ok (if position ms (i + 1) ≤ f then some ms[i] else none) := by
  have hs := position_succ h
  simp only [readRecord, List.getElem?_eq_getElem h]
  split_ifs <;> first | rfl | omega

theorem readRecord_eq_some {ms : List Bytes} {f i : ℕ} {m : Bytes}
    (h : readRecord ms f i = .ok (some m)) : ms[i]? = some m ∧ position ms (i + 1) ≤ f := by
  unfold readRecord at h
  cases hi : ms[i]? with
  | none => simp [hi] at h
  | some n =>
    simp only [hi] at h
    split_ifs at h with h1 h2 h3
    · simp at h
    · exact ⟨by simpa using h, h3⟩
    · simp at h

theorem readRecord_length_ne {ms : List Bytes} {f i : ℕ} {m : Bytes}
    (h : readRecord ms f i = .ok (some m)) :
    m.length ≠ 2 ^ 31 - 1 := by
  have hm := (readRecord_eq_some h).1
  intro hlen
  unfold readRecord at h
  simp only [hm, hlen, if_true] at h
  split_ifs at h
  cases h

private theorem getMessageOffset_at_end (env : Env) {content : Bytes} {pos : ℕ}
    (h : content.length ≤ pos) :
    RandomAccessFileHandle.getMessageOffset env content pos =
      .error (.ioError (ascii "read_size is not equal offset_length")) := by
  simp [RandomAccessFileHandle.getMessageOffset, pread, List.drop_eq_nil_of_le h]

/-- The loop of `FindMessage`, entered at the true position of a record at or before the one
wanted, reads the record wanted. Induction on the rounds left; `k` is the record the loop is at,
and no position on the way leaves 32 bits. -/
theorem scanMessages_eq (env : Env) {ms : List Bytes} {f i : ℕ}
    (hpos : position ms (min i ms.length) < 2 ^ 32) (hms : ∀ m ∈ ms, m.length < 2 ^ 31)
    {fuel k : ℕ} (hfuel : Table.scanBound i k ≤ fuel) (hki : k ≤ i) (hkn : k ≤ ms.length) :
    Table.scanMessages env ((logBytes ms).take f) i fuel k (position ms k) =
      some (readRecord ms f i) := by
  have hbound : Table.scanBound i k = i - k + 1 := rfl
  induction fuel generalizing k with
  | zero => omega
  | succ fuel ih =>
    rw [Table.scanMessages]
    by_cases hk : k < ms.length
    · obtain ⟨rest, hrest⟩ := drop_position hk
      have hcontent : ((logBytes ms).take f).drop (position ms k) =
          (record k ms[k] ++ rest).take (f - position ms k) := by
        rw [List.drop_take, hrest]
      have hle : position ms k ≤ position ms (min i ms.length) := position_mono ms (by omega)
      have h64 : k < 2 ^ 64 := by
        have := le_position hkn
        omega
      have hmi : position ms k ≤ position ms i := position_mono ms hki
      rw [getMessageOffset_record env hcontent h64]
      split_ifs with h8
      · simp only [ne_eq, not_true_eq_false, if_false]
        by_cases hik : i = k
        · -- the record wanted
          subst hik
          have hs := position_succ hk
          simp only [if_true, getMessage_record env hcontent (hms _ (List.getElem_mem hk)),
            readRecord, List.getElem?_eq_getElem hk]
          split_ifs <;> first | rfl | omega
        · -- a record before it: on to the next header
          have hnext : position ms (k + 1) ≤ position ms (min i ms.length) :=
            position_mono ms (by omega)
          have hs := position_succ hk
          have hgt : ¬ k > i := by omega
          simp only [hik, if_false, hgt,
            getMessageSize_record env hcontent (show ms[k].length < 2 ^ 32 by omega)]
          split_ifs with h12
          · simp only []
            rw [← hs, Nat.mod_eq_of_lt (by omega)]
            exact ih (by unfold Table.scanBound; omega) (by omega) (by omega) rfl
          · rw [readRecord_of_lt (by omega)]
      · rw [readRecord_of_lt (by omega)]
    · -- past the last record: the file ends here
      have hn : ms.length ≤ k := by omega
      have hend : ((logBytes ms).take f).length ≤ position ms k := by
        rw [position_of_length_le hn]
        simp
      rw [getMessageOffset_at_end env hend, readRecord_of_length_le (by omega)]

/-! The sparse index. -/

private theorem scanOffsets_past {offset : ℕ} {l : List (ℕ × ℕ)} (best : ℕ × ℕ)
    (h : ∀ e ∈ l, offset < e.1) : (Table.scanOffsets offset l best).1 = best := by
  cases l with
  | nil => rfl
  | cons e l => simp [Table.scanOffsets, h e List.mem_cons_self]

/-- On ascending entries the inner loop of `FindOffsetPosition` ends with the last one that is
not past the offset, when there is one. -/
theorem scanOffsets_spec {offset : ℕ} {l : List (ℕ × ℕ)} (best : ℕ × ℕ)
    (hl : l.Pairwise fun a b => a.1 < b.1) (h : ∃ e ∈ l, e.1 ≤ offset) :
    (Table.scanOffsets offset l best).1 ∈ l ∧
      (Table.scanOffsets offset l best).1.1 ≤ offset ∧
      ∀ e ∈ l, e.1 ≤ offset → e.1 ≤ (Table.scanOffsets offset l best).1.1 := by
  induction l generalizing best with
  | nil => simp at h
  | cons entry rest ih =>
    obtain ⟨hfirst, hrest⟩ := List.pairwise_cons.mp hl
    have hentry : entry.1 ≤ offset := by
      obtain ⟨e, he, hle⟩ := h
      rcases List.mem_cons.mp he with rfl | he
      · exact hle
      · exact (hfirst e he).le.trans hle
    rw [Table.scanOffsets, if_neg (Nat.not_lt.mpr hentry)]
    by_cases hmore : ∃ e ∈ rest, e.1 ≤ offset
    · obtain ⟨hmem, hle, hmax⟩ := ih entry hrest hmore
      refine ⟨List.mem_cons_of_mem _ hmem, hle, ?_⟩
      intro e he hoff
      rcases List.mem_cons.mp he with rfl | he
      · exact (hfirst _ hmem).le
      · exact hmax e he hoff
    · push Not at hmore
      rw [scanOffsets_past entry hmore]
      refine ⟨List.mem_cons_self, hentry, ?_⟩
      intro e he hoff
      rcases List.mem_cons.mp he with rfl | he
      · exact le_rfl
      · exact absurd (hmore e he) (not_lt.mpr hoff)

/-- The entries of the log file: every `s`-th record, at the position its 32-bit counter had. -/
def SparseEntries (s : ℕ) (ms : List Bytes) (entries : ExtTreeMap ℕ ℕ compare) : Prop :=
  ∀ j p, entries[j]? = some p ↔
    (j < ms.length ∧ j < 2 ^ 64) ∧ s ∣ j ∧ p = position ms j % 2 ^ 32

/-- The sparse index of a log that holds the messages `ms`. -/
def SparseIndex (s : ℕ) (ms : List Bytes) (m : OffsetPosMap) : Prop :=
  (ms = [] ∧ m = ∅) ∨
    (ms ≠ [] ∧ ∃ entries, m = (∅ : OffsetPosMap).insertIfNew Table.logName entries ∧
      SparseEntries s ms entries)

theorem SparseIndex.empty (s : ℕ) : SparseIndex s [] ∅ := Or.inl ⟨rfl, rfl⟩

private theorem singleton_getElem? (entries : ExtTreeMap ℕ ℕ compare) (file : Bytes) :
    ((∅ : OffsetPosMap).insertIfNew Table.logName entries)[file]? =
      if Table.logName = file then some entries else none := by
  rw [ExtTreeMap.getElem?_insertIfNew]
  simp

private theorem recordPos_empty (offset pos : ℕ) :
    Table.recordPos ∅ Table.logName offset pos =
      (∅ : OffsetPosMap).insertIfNew Table.logName
        ((∅ : ExtTreeMap ℕ ℕ compare).insertIfNew offset pos) := by
  simp [Table.recordPos]

private theorem recordPos_singleton (entries : ExtTreeMap ℕ ℕ compare) (offset pos : ℕ) :
    Table.recordPos ((∅ : OffsetPosMap).insertIfNew Table.logName entries) Table.logName
        offset pos =
      (∅ : OffsetPosMap).insertIfNew Table.logName (entries.insertIfNew offset pos) := by
  simp only [Table.recordPos, singleton_getElem?, if_true]
  apply ExtTreeMap.ext_getElem?
  intro file
  rw [ExtTreeMap.getElem?_insert, singleton_getElem?, singleton_getElem?]
  by_cases hf : Table.logName = file <;> simp [hf]

private theorem SparseEntries.concat {s : ℕ} {ms : List Bytes} {entries : ExtTreeMap ℕ ℕ compare}
    (h : SparseEntries s ms entries) (message : Bytes) :
    SparseEntries s (ms ++ [message])
      (if ms.length % 2 ^ 64 % s = 0
        then entries.insertIfNew (ms.length % 2 ^ 64) (position ms ms.length % 2 ^ 32)
        else entries) := by
  intro j p
  have hpos : j ≤ ms.length → position (ms ++ [message]) j = position ms j := position_append
  have hlen : (ms ++ [message]).length = ms.length + 1 := by simp
  rw [hlen]
  by_cases hn : ms.length < 2 ^ 64
  · have hnew : entries[ms.length]? = none := by
      by_contra hne
      obtain ⟨q, hq⟩ := Option.ne_none_iff_exists'.mp hne
      exact absurd ((h ms.length q).mp hq).1.1 (lt_irrefl _)
    rw [Nat.mod_eq_of_lt hn]
    by_cases hj : j = ms.length
    · subst hj
      have hmem : ms.length ∉ entries := by simpa using hnew
      rw [hpos le_rfl]
      split_ifs with hs
      · have hd := Nat.dvd_of_mod_eq_zero hs
        rw [ExtTreeMap.getElem?_insertIfNew, if_pos ⟨Std.ReflCmp.compare_self, hmem⟩, Option.some.injEq]
        constructor
        · intro heq
          subst heq
          exact ⟨⟨Nat.lt_succ_self _, hn⟩, hd, rfl⟩
        · rintro ⟨-, -, rfl⟩
          rfl
      · have hd : ¬ s ∣ ms.length := fun hd => hs (Nat.mod_eq_zero_of_dvd hd)
        simp [hnew, hd]
    · have hsame : (if ms.length % s = 0
          then entries.insertIfNew ms.length (position ms ms.length % 2 ^ 32)
          else entries)[j]? = entries[j]? := by
        split_ifs
        · rw [ExtTreeMap.getElem?_insertIfNew]
          simp [Ne.symm hj]
        · rfl
      rw [hsame, h]
      constructor
      · rintro ⟨⟨h1, h2⟩, h3, rfl⟩
        exact ⟨⟨by omega, h2⟩, h3, by rw [hpos h1.le]⟩
      · rintro ⟨⟨h1, h2⟩, h3, rfl⟩
        exact ⟨⟨by omega, h2⟩, h3, by rw [hpos (by omega)]⟩
  · -- the offset counter has wrapped: its entry is there already
    have hlt : ms.length % 2 ^ 64 < 2 ^ 64 := Nat.mod_lt _ (by norm_num)
    have hsame : (if ms.length % 2 ^ 64 % s = 0
        then entries.insertIfNew (ms.length % 2 ^ 64) (position ms ms.length % 2 ^ 32)
        else entries)[j]? = entries[j]? := by
      split_ifs with hs
      · have hmem : ms.length % 2 ^ 64 ∈ entries := by
          have hq := (h (ms.length % 2 ^ 64) _).mpr
            ⟨⟨by omega, hlt⟩, Nat.dvd_of_mod_eq_zero hs, rfl⟩
          exact ExtTreeMap.mem_iff_isSome_getElem?.mpr (by rw [hq]; rfl)
        rw [ExtTreeMap.getElem?_insertIfNew, if_neg fun hc => hc.2 hmem]
      · rfl
    rw [hsame, h]
    constructor
    · rintro ⟨⟨h1, h2⟩, h3, rfl⟩
      exact ⟨⟨by omega, h2⟩, h3, by rw [hpos h1.le]⟩
    · rintro ⟨⟨h1, h2⟩, h3, rfl⟩
      exact ⟨⟨by omega, h2⟩, h3, by rw [hpos (by omega)]⟩

/-- One more record: `PutDisk` notes the position of every `s`-th. -/
theorem SparseIndex.concat {s : ℕ} {ms : List Bytes} {m : OffsetPosMap} (h : SparseIndex s ms m)
    (message : Bytes) :
    SparseIndex s (ms ++ [message])
      (if ms.length % 2 ^ 64 % s = 0
        then Table.recordPos m Table.logName (ms.length % 2 ^ 64) (position ms ms.length % 2 ^ 32)
        else m) := by
  right
  refine ⟨by simp, ?_⟩
  rcases h with ⟨rfl, rfl⟩ | ⟨hne, entries, rfl, hentries⟩
  · have hnone : SparseEntries s [] ∅ := by
      intro j p
      simp
    refine ⟨_, ?_, hnone.concat message⟩
    simp [recordPos_empty]
  · refine ⟨_, ?_, hentries.concat message⟩
    rw [recordPos_singleton]
    split_ifs <;> rfl

/-- Record `offset` of `file` is in the index, at position `pos`. -/
def Indexed (m : OffsetPosMap) (file : Bytes) (offset pos : ℕ) : Prop :=
  ∃ offsetPos, m[file]? = some offsetPos ∧ offsetPos[offset]? = some pos

theorem SparseIndex.indexed_iff {s : ℕ} {ms : List Bytes} {m : OffsetPosMap}
    (h : SparseIndex s ms m) {file : Bytes} {offset pos : ℕ} :
    Indexed m file offset pos ↔ file = Table.logName ∧ (offset < ms.length ∧ offset < 2 ^ 64) ∧
      s ∣ offset ∧ pos = position ms offset % 2 ^ 32 := by
  rcases h with ⟨rfl, rfl⟩ | ⟨-, entries, rfl, hentries⟩
  · simp [Indexed]
  · rw [← hentries offset pos]
    unfold Indexed
    rw [singleton_getElem?]
    by_cases hf : file = Table.logName
    · simp [hf]
    · simp [hf, Ne.symm hf]

private theorem findOffsetPosition_singleton (entries : ExtTreeMap ℕ ℕ compare) (offset : ℕ) :
    Table.findOffsetPosition ((∅ : OffsetPosMap).insertIfNew Table.logName entries) offset =
      (Table.logName, (Table.scanOffsets offset entries.toList (0, 0)).1) := by
  have hl : ((∅ : OffsetPosMap).insertIfNew Table.logName entries).toList =
      [(Table.logName, entries)] := by
    rw [SortedMap.toList_insertIfNew_of_lt (by simp)]
    simp
  rw [Table.findOffsetPosition, hl, Table.scanFiles]
  rcases hscan : Table.scanOffsets offset entries.toList (0, 0) with ⟨best, _ | _⟩ <;> rfl

/-- `FindOffsetPosition` finds the last indexed record at or before the offset. -/
theorem findOffsetPosition_spec {s : ℕ} {ms : List Bytes} {m : OffsetPosMap}
    (h : SparseIndex s ms m) (hne : ms ≠ []) (offset : ℕ) :
    ∃ start pos, Table.findOffsetPosition m offset = (Table.logName, start, pos) ∧
      Indexed m Table.logName start pos ∧ start ≤ offset ∧
      ∀ j p, Indexed m Table.logName j p → j ≤ offset → j ≤ start := by
  have hindexed := @SparseIndex.indexed_iff s ms m h
  rcases h with ⟨hnil, -⟩ | ⟨-, entries, rfl, hentries⟩
  · exact absurd hnil hne
  have hmem : ∀ j p, (j, p) ∈ entries.toList ↔ Indexed ((∅ : OffsetPosMap).insertIfNew
      Table.logName entries) Table.logName j p := by
    intro j p
    rw [ExtTreeMap.mem_toList_iff_getElem?_eq_some, hentries j p, hindexed]
    simp
  have hzero : (0, 0) ∈ entries.toList := by
    rw [ExtTreeMap.mem_toList_iff_getElem?_eq_some, hentries]
    simpa using List.length_pos_iff.mpr hne
  have hasc : entries.toList.Pairwise fun a b => a.1 < b.1 :=
    ExtTreeMap.ordered_keys_toList.imp fun hlt => Nat.compare_eq_lt.mp hlt
  obtain ⟨hin, hle, hmax⟩ := scanOffsets_spec (0, 0) hasc ⟨(0, 0), hzero, Nat.zero_le offset⟩
  refine ⟨_, _, findOffsetPosition_singleton entries offset, (hmem _ _).mp hin, hle, ?_⟩
  intro j p hj hoff
  exact hmax (j, p) ((hmem j p).mpr hj) hoff

end Ibdb.Storage
