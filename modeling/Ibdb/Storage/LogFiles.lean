import Ibdb.Storage.Scan

/-! The search of the sparse index when it covers several log files. -/
namespace Ibdb.Storage
open Base Log
open Std (ExtTreeMap)

/-- The names of the files sort in the order in which their records were written, and each file
has a record in the index. -/
structure InWriteOrder (m : OffsetPosMap) : Prop where
  indexed : ∀ (file : Bytes) entries, m[file]? = some entries → ∃ j p, Indexed m file j p
  ascending : ∀ file file' j p j' p', compare file file' = .lt → Indexed m file j p →
    Indexed m file' j' p' → j < j'

/-- The greatest indexed offset that is not past the one wanted, with its own file and position. -/
structure FindsEntry (m : OffsetPosMap) (offset : ℕ) (found : Bytes × ℕ × ℕ) : Prop where
  indexed : Indexed m found.1 found.2.1 found.2.2
  le : found.2.1 ≤ offset
  greatest : ∀ file j p, Indexed m file j p → j ≤ offset → j ≤ found.2.1

section ScanFiles
variable {offset : ℕ}

theorem scanOffsets_flag (entries : List (ℕ × ℕ)) (best : ℕ × ℕ) :
    (Table.scanOffsets offset entries best).2 = true ↔ ∃ e ∈ entries, offset < e.1 := by
  induction entries generalizing best with
  | nil => simp [Table.scanOffsets]
  | cons e entries ih =>
    rw [Table.scanOffsets]
    split_ifs with he
    · simp [he]
    · simp [ih, he]

/-- A file that has nothing past the offset is gone through. -/
theorem scanFiles_append {front : List (Bytes × ExtTreeMap ℕ ℕ compare)}
    (h : ∀ f ∈ front, ∀ e ∈ f.2.toList, e.1 ≤ offset)
    (rest : List (Bytes × ExtTreeMap ℕ ℕ compare)) (file : Bytes) (best : ℕ × ℕ) :
    ∃ file' best', Table.scanFiles offset (front ++ rest) file best =
      Table.scanFiles offset rest file' best' := by
  induction front generalizing file best with
  | nil => exact ⟨file, best, rfl⟩
  | cons f front ih =>
    obtain ⟨name, entries⟩ := f
    have hflag := @scanOffsets_flag offset entries.toList best
    have hle := h (name, entries) List.mem_cons_self
    rw [List.cons_append, Table.scanFiles]
    rcases hscan : Table.scanOffsets offset entries.toList best with ⟨best', _ | _⟩
    · exact ih (fun f hf => h f (List.mem_cons_of_mem _ hf)) name best'
    · rw [hscan] at hflag
      obtain ⟨e, he, hlt⟩ := hflag.mp rfl
      exact absurd hlt (Nat.not_lt.mpr (hle e he))

/-- The search ends with a file that has something past the offset, or with the last one. -/
theorem scanFiles_stop (name file : Bytes) (entries : ExtTreeMap ℕ ℕ compare) (best : ℕ × ℕ)
    {rest : List (Bytes × ExtTreeMap ℕ ℕ compare)}
    (h : (∃ e ∈ entries.toList, offset < e.1) ∨ rest = []) :
    Table.scanFiles offset ((name, entries) :: rest) file best =
      (name, (Table.scanOffsets offset entries.toList best).1) := by
  have hflag := @scanOffsets_flag offset entries.toList best
  rw [Table.scanFiles]
  rcases hscan : Table.scanOffsets offset entries.toList best with ⟨best', _ | _⟩
  · rw [hscan] at hflag
    rcases h with h | rfl
    · cases hflag.mpr h
    · rfl
  · rfl

end ScanFiles

section FindOffsetPosition
variable {m : OffsetPosMap} {offset : ℕ}

theorem mem_toList_iff {file : Bytes} {entries : ExtTreeMap ℕ ℕ compare} :
    (file, entries) ∈ m.toList ↔ m[file]? = some entries :=
  ExtTreeMap.mem_toList_iff_getElem?_eq_some

theorem indexed_of_mem {file : Bytes} {entries : ExtTreeMap ℕ ℕ compare}
    (h : (file, entries) ∈ m.toList) {j p : ℕ} :
    Indexed m file j p ↔ (j, p) ∈ entries.toList := by
  have hfile := mem_toList_iff.mp h
  rw [ExtTreeMap.mem_toList_iff_getElem?_eq_some]
  unfold Indexed
  constructor
  · rintro ⟨entries', hentries, hj⟩
    rwa [Option.some.inj (hfile.symm.trans hentries)]
  · intro hj
    exact ⟨entries, hfile, hj⟩

/-- No file on the way has anything past the offset, and the search stops in this one. -/
theorem exists_stop (h : ∃ file j p, Indexed m file j p) (offset : ℕ) :
    ∃ front name entries rest, m.toList = front ++ (name, entries) :: rest ∧
      (∀ f ∈ front, ∀ e ∈ f.2.toList, e.1 ≤ offset) ∧
      ((∃ e ∈ entries.toList, offset < e.1) ∨ rest = [] ∧ ∀ e ∈ entries.toList, e.1 ≤ offset) := by
  cases hfind : m.toList.find? fun f => f.2.toList.any fun e => decide (offset < e.1) with
  | some f =>
    obtain ⟨hf, front, rest, hsplit, hfront⟩ := List.find?_eq_some_iff_append.mp hfind
    refine ⟨front, f.1, f.2, rest, hsplit, ?_, Or.inl (by simpa using hf)⟩
    intro g hg e he
    have hnone := hfront g hg
    simp only [Bool.not_eq_true', List.any_eq_false, decide_eq_true_eq, Nat.not_lt] at hnone
    exact hnone e he
  | none =>
    have hall : ∀ f ∈ m.toList, ∀ e ∈ f.2.toList, e.1 ≤ offset := by
      intro f hf e he
      have hnone := List.find?_eq_none.mp hfind f hf
      simp only [List.any_eq_true, decide_eq_true_eq, not_exists, not_and, Nat.not_lt] at hnone
      exact hnone e he
    rcases List.eq_nil_or_concat m.toList with hnil | ⟨front, f, hsplit⟩
    · obtain ⟨file, j, p, entries, hfile, -⟩ := h
      rw [← mem_toList_iff, hnil] at hfile
      cases hfile
    · rw [List.concat_eq_append] at hsplit
      rw [hsplit] at hall
      refine ⟨front, f.1, f.2, [], hsplit, ?_, Or.inr ⟨rfl, ?_⟩⟩
      · intro g hg
        exact hall g (List.mem_append_left _ hg)
      · exact hall f (List.mem_append_right _ List.mem_cons_self)

/-- The offset is not between the last entry of one file and the first of the next. -/
def WithinFile (m : OffsetPosMap) (offset : ℕ) : Prop :=
  (∃ file, (∃ j p, Indexed m file j p ∧ j ≤ offset) ∧ ∃ j p, Indexed m file j p ∧ offset < j) ∨
    ∀ file j p, Indexed m file j p → j ≤ offset

/-- With several files the entry is found with its own file exactly when that file has a later
entry past the offset, or no file has. -/
theorem findsEntry_iff (hm : InWriteOrder m)
    (hfirst : ∃ file j p, Indexed m file j p ∧ j ≤ offset) :
    FindsEntry m offset (Table.findOffsetPosition m offset) ↔ WithinFile m offset := by
  obtain ⟨first, j₀, p₀, hindexed₀, hle₀⟩ := hfirst
  obtain ⟨front, name, entries, rest, hsplit, hfront, hstop⟩ :=
    exists_stop ⟨first, j₀, p₀, hindexed₀⟩ offset
  obtain ⟨file', best', hscan⟩ := scanFiles_append hfront ((name, entries) :: rest) [] (0, 0)
  rw [scanFiles_stop name file' entries best' (hstop.imp_right And.left)] at hscan
  have hfound : Table.findOffsetPosition m offset =
      (name, (Table.scanOffsets offset entries.toList best').1) := by
    rw [Table.findOffsetPosition, hsplit, hscan]
  have hname : (name, entries) ∈ m.toList := by
    rw [hsplit]
    exact List.mem_append_right front List.mem_cons_self
  have hmem : ∀ {j p}, Indexed m name j p ↔ (j, p) ∈ entries.toList := indexed_of_mem hname
  have horder := ExtTreeMap.ordered_keys_toList (t := m)
  rw [hsplit, List.pairwise_append, List.pairwise_cons] at horder
  obtain ⟨-, ⟨hafter, -⟩, hbefore⟩ := horder
  have hwhere : ∀ file j p, Indexed m file j p →
      compare file name = .lt ∧ j ≤ offset ∨ file = name ∨ compare name file = .lt ∧ rest ≠ [] := by
    rintro file j p ⟨entries', hfile, hj⟩
    have hin := mem_toList_iff.mpr hfile
    rw [hsplit] at hin
    rcases List.mem_append.mp hin with hin | hin
    · have hjmem := ExtTreeMap.mem_toList_iff_getElem?_eq_some.mpr hj
      exact Or.inl ⟨hbefore _ hin _ List.mem_cons_self, hfront _ hin _ hjmem⟩
    · rcases List.mem_cons.mp hin with heq | hin
      · exact Or.inr (Or.inl (congrArg Prod.fst heq))
      · exact Or.inr (Or.inr ⟨hafter _ hin, List.ne_nil_of_mem hin⟩)
  rw [hfound]
  constructor
  · intro h
    rcases hstop with ⟨e, he, hlt⟩ | ⟨hnil, hall⟩
    · exact Or.inl ⟨name, ⟨_, _, h.indexed, h.le⟩, e.1, e.2, hmem.mpr he, hlt⟩
    · right
      intro file j p hj
      rcases hwhere file j p hj with ⟨-, hle⟩ | rfl | ⟨-, hne⟩
      · exact hle
      · exact hall (j, p) (hmem.mp hj)
      · exact absurd hnil hne
  · intro h
    have hsome : ∃ e ∈ entries.toList, e.1 ≤ offset := by
      obtain ⟨j, p, hj⟩ := hm.indexed name entries (mem_toList_iff.mp hname)
      rcases h with ⟨file, ⟨k, q, hk, hle⟩, l, t, hl, hlt⟩ | hall
      · rcases hwhere file l t hl with ⟨-, hle'⟩ | rfl | ⟨hafter', -⟩
        · exact absurd hlt (Nat.not_lt.mpr hle')
        · exact ⟨(k, q), hmem.mp hk, hle⟩
        · exact ⟨(j, p), hmem.mp hj, (hm.ascending _ _ _ _ _ _ hafter' hj hk).le.trans hle⟩
      · exact ⟨(j, p), hmem.mp hj, hall name j p hj⟩
    have hasc : entries.toList.Pairwise fun a b => a.1 < b.1 :=
      ExtTreeMap.ordered_keys_toList.imp fun hlt => Nat.compare_eq_lt.mp hlt
    obtain ⟨hin, hle, hmax⟩ := scanOffsets_spec best' hasc hsome
    refine ⟨hmem.mpr hin, hle, ?_⟩
    intro file j p hj hjle
    rcases hwhere file j p hj with ⟨hlt, -⟩ | rfl | ⟨hlt, hne⟩
    · exact (hm.ascending _ _ _ _ _ _ hlt hj (hmem.mpr hin)).le
    · exact hmax (j, p) (hmem.mp hj) hjle
    · rcases hstop with ⟨e, he, hpast⟩ | ⟨hnil, -⟩
      · have hlater := hm.ascending _ _ _ _ _ _ hlt (hmem.mpr he) hj
        omega
      · exact absurd hnil hne

end FindOffsetPosition

def twoFiles : OffsetPosMap :=
  ((∅ : OffsetPosMap).insertIfNew (ascii "00000000.log")
    ((∅ : ExtTreeMap ℕ ℕ compare).insertIfNew 0 0)).insertIfNew (ascii "00000001.log")
      ((∅ : ExtTreeMap ℕ ℕ compare).insertIfNew 5 0)

theorem toList_twoFiles : twoFiles.toList =
    [(ascii "00000000.log", (∅ : ExtTreeMap ℕ ℕ compare).insertIfNew 0 0),
      (ascii "00000001.log", (∅ : ExtTreeMap ℕ ℕ compare).insertIfNew 5 0)] := by
  unfold twoFiles
  rw [SortedMap.toList_insertIfNew_of_lt, SortedMap.toList_insertIfNew_of_lt]
  · simp
  · simp
  · rw [SortedMap.toList_insertIfNew_of_lt (by simp)]
    simp [ascii]
    decide

theorem indexed_twoFiles {file : Bytes} {j p : ℕ} :
    Indexed twoFiles file j p ↔ file = ascii "00000000.log" ∧ j = 0 ∧ p = 0 ∨
      file = ascii "00000001.log" ∧ j = 5 ∧ p = 0 := by
  have hentry : ∀ k, ((∅ : ExtTreeMap ℕ ℕ compare).insertIfNew k 0)[j]? = some p ↔
      j = k ∧ p = 0 := by
    intro k
    rw [ExtTreeMap.getElem?_insertIfNew]
    simp [@eq_comm ℕ j, @eq_comm ℕ p]
  unfold Indexed
  simp only [← mem_toList_iff, toList_twoFiles, List.mem_cons, Prod.mk.injEq, List.not_mem_nil,
    or_false]
  constructor
  · rintro ⟨entries, ⟨rfl, rfl⟩ | ⟨rfl, rfl⟩, hj⟩
    · exact Or.inl ⟨rfl, (hentry 0).mp hj⟩
    · exact Or.inr ⟨rfl, (hentry 5).mp hj⟩
  · intro hcase
    rcases hcase with ⟨rfl, hj⟩ | ⟨rfl, hj⟩
    · exact ⟨_, Or.inl ⟨rfl, rfl⟩, (hentry 0).mpr hj⟩
    · exact ⟨_, Or.inr ⟨rfl, rfl⟩, (hentry 5).mpr hj⟩

theorem inWriteOrder_twoFiles : InWriteOrder twoFiles where
  indexed := by
    intro file entries hfile
    rw [← mem_toList_iff, toList_twoFiles] at hfile
    simp only [List.mem_cons, Prod.mk.injEq, List.not_mem_nil, or_false] at hfile
    rcases hfile with ⟨rfl, -⟩ | ⟨rfl, -⟩
    · exact ⟨0, 0, indexed_twoFiles.mpr (Or.inl ⟨rfl, rfl, rfl⟩)⟩
    · exact ⟨5, 0, indexed_twoFiles.mpr (Or.inr ⟨rfl, rfl, rfl⟩)⟩
  ascending := by
    intro file file' j p j' p' hlt hj hj'
    rcases indexed_twoFiles.mp hj with ⟨rfl, rfl, -⟩ | ⟨rfl, rfl, -⟩ <;>
      rcases indexed_twoFiles.mp hj' with ⟨rfl, rfl, -⟩ | ⟨rfl, rfl, -⟩ <;>
      first | decide | exact absurd hlt (by decide)

theorem findsEntry_iff_twoFiles :
    FindsEntry twoFiles 5 (Table.findOffsetPosition twoFiles 5) ↔ WithinFile twoFiles 5 :=
  findsEntry_iff inWriteOrder_twoFiles
    ⟨ascii "00000000.log", 0, 0, indexed_twoFiles.mpr (Or.inl ⟨rfl, rfl, rfl⟩), Nat.zero_le 5⟩

/-- Record 3 is in the first file, and the search names the second. -/
theorem finds_wrong_file :
    InWriteOrder twoFiles ∧ (∃ file j p, Indexed twoFiles file j p ∧ j ≤ 3) ∧
      Table.findOffsetPosition twoFiles 3 = (ascii "00000001.log", 0, 0) ∧
      ¬ FindsEntry twoFiles 3 (Table.findOffsetPosition twoFiles 3) := by
  have hfound : Table.findOffsetPosition twoFiles 3 = (ascii "00000001.log", 0, 0) := by
    decide +kernel
  refine ⟨inWriteOrder_twoFiles, ⟨ascii "00000000.log", 0, 0,
    indexed_twoFiles.mpr (Or.inl ⟨rfl, rfl, rfl⟩), by decide⟩, hfound, ?_⟩
  rw [hfound]
  intro h
  rcases indexed_twoFiles.mp h.indexed with ⟨hfile, -⟩ | ⟨-, hoffset, -⟩
  · exact absurd hfile (by decide)
  · exact absurd hoffset (by decide)

end Ibdb.Storage
