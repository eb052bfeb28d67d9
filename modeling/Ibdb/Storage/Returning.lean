import Ibdb.Storage.AnyContent
import Ibdb.Storage.Cache
import Ibdb.Storage.Outcomes

/-! Which calls of `Put` and `Get` return, in any state and for any statement. -/
namespace Ibdb.Storage
open Base Log

/-- The index takes the value: it is there, or its length is not negative as an `int`. -/
def Storable (seg : Segment) (key : Bytes) (timestamp : UInt64) (value : Bytes) : Prop :=
  seg.get key timestamp value ≠ none ∨ value.length % 2 ^ 32 < 2 ^ 31

namespace Segment

section Put
variable {seg : Segment} {key : Bytes} {timestamp : UInt64} {value : Bytes} {offset : ℕ}

theorem put_returns_iff (hkey : seg.contains key = true) :
    (∃ b, (put key timestamp value offset seg).1 = .ok b) ↔ Storable seg key timestamp value := by
  rw [put_eq hkey]
  unfold Storable
  dsimp only
  split_ifs with hthere hlength
  · exact iff_of_true ⟨false, rfl⟩ (Or.inl hthere)
  · exact iff_of_true ⟨true, rfl⟩ (Or.inr hlength)
  · exact iff_of_false (by simp) (not_or.mpr ⟨hthere, hlength⟩)

/-- A value too long for the index is in it afterwards only if it was before. -/
theorem storable_put_iff (hkey : seg.contains key = true) (k : Bytes) (t : UInt64) (v : Bytes) :
    Storable (put key timestamp value offset seg).2 k t v ↔ Storable seg k t v := by
  unfold Storable
  apply or_congr_left'
  intro hlong
  have hmid := @get_insert_touched seg key timestamp hkey k t v
  rw [put_eq hkey]
  dsimp only
  split_ifs with hthere hlength
  · rw [hmid]
  · have hne : ¬ v = value.take (value.length % 2 ^ 32) := by
      intro heq
      apply hlong
      rw [heq, ← stored, stored_length, Nat.mod_mod]
      exact hlength
    have hcompare : Slice.compare (value.take (value.length % 2 ^ 32)) v ≠ .eq :=
      fun hc => hne (Std.LawfulEqCmp.eq_of_compare hc).symm
    rw [get_insert]
    split_ifs with hk
    · rw [lookup_insert]
      split_ifs with ht
      · rw [Std.ExtTreeMap.getElem?_insert, if_neg hcompare, getElem?_getD,
          lookup_touched hkey, hk, ht]
      · rw [lookup_touched hkey, hk]
    · rw [hmid]
  · rw [hmid]

end Put
end Segment

/-- Every key column in the list, from place `i` on, has a value that the index takes. -/
def Fits (seg : Segment) (timestamp : UInt64) (keys valueResult : List Bytes) (i : ℕ) : Prop :=
  ∀ j key, keys[j]? = some key → seg.contains key = true →
    ∃ value, valueResult[i + j]? = some value ∧ Storable seg key timestamp value

section Columns
variable {seg : Segment} {timestamp : UInt64} {key : Bytes} {keys valueResult : List Bytes} {i : ℕ}

theorem fits_cons :
    Fits seg timestamp (key :: keys) valueResult i ↔
      (seg.contains key = true →
        ∃ value, valueResult[i]? = some value ∧ Storable seg key timestamp value) ∧
      Fits seg timestamp keys valueResult (i + 1) := by
  constructor
  · intro h
    refine ⟨h 0 key rfl, fun j k hk hc => ?_⟩
    rw [Nat.add_assoc, Nat.add_comm 1 j]
    exact h (j + 1) k hk hc
  · intro hw j k hk hc
    obtain ⟨h0, h⟩ := hw
    cases j with
    | zero =>
      have heq : key = k := by simpa using hk
      subst heq
      exact h0 hc
    | succ j =>
      have hj := h j k hk hc
      rwa [Nat.add_assoc, Nat.add_comm 1 j] at hj

/-- The loop of `Put` returns when each key column has a value that the index takes. Induction on
the columns left; the ones before change nothing about it. -/
theorem putColumns_returns_iff (offset : ℕ) :
    (∃ b, (Segment.putColumns timestamp valueResult offset i keys seg).1 = .ok b) ↔
      Fits seg timestamp keys valueResult i := by
  induction keys generalizing i seg with
  | nil =>
    refine iff_of_true ⟨true, rfl⟩ ?_
    intro j key hkey
    simp at hkey
  | cons key rest ih =>
    rw [Segment.putColumns, Exec.bind_ok (Exec.get_apply seg), fits_cons]
    by_cases hkey : seg.contains key = true
    · simp only [hkey, if_true, forall_const]
      cases hvalue : valueResult[i]? with
      | none =>
        rw [Exec.bind_error (vectorAt_of_none hvalue seg)]
        refine iff_of_false (not_returns Bool _) ?_
        intro hw
        obtain ⟨value, hsome, -⟩ := hw.1
        cases hsome
      | some value =>
        rw [Exec.bind_ok (vectorAt_of_some hvalue seg)]
        have hput := @Segment.put_returns_iff seg key timestamp value offset hkey
        have hcontains := (Segment.put_result hkey timestamp value offset).2
        have hstorable := @Segment.storable_put_iff seg key timestamp value offset hkey
        rcases hrun : Segment.put key timestamp value offset seg with ⟨fault | b, seg'⟩ <;>
          rw [hrun] at hput hcontains hstorable
        · rw [Exec.bind_error hrun]
          refine iff_of_false (not_returns Bool _) ?_
          intro hw
          obtain ⟨value', hsome, hfits⟩ := hw.1
          cases hsome
          exact not_returns Bool fault (hput.mpr hfits)
        · rw [Exec.bind_ok hrun, ih]
          have hvalue' : ∃ value', some value = some value' ∧ Storable seg key timestamp value' :=
            ⟨value, rfl, hput.mp ⟨b, rfl⟩⟩
          simp only [hvalue', true_and]
          unfold Fits
          simp only [hcontains, hstorable]
    · simp only [hkey, Bool.false_eq_true, if_false, ih, false_implies, true_and]

end Columns

/-- The statement has its fields, and its values fit the index if its timestamp parses. -/
def Readable (env : Env) (seg : Segment) (statement : Bytes) : Prop :=
  ∃ columns values text, fields env statement = some (columns, values, text) ∧
    ∀ timestamp, env.lexicalCast text = some timestamp → Fits seg timestamp columns values 0

theorem indexStatement_returns_iff (env : Env) (statement : Bytes) (offset : ℕ) (seg : Segment) :
    (∃ b, (Segment.indexStatement env (splitString env statement (ascii " ")) offset seg).1 =
        .ok b) ↔ Readable env seg statement := by
  rw [Segment.indexStatement_eq]
  unfold Readable
  cases hfields : fields env statement with
  | none =>
    refine iff_of_false (not_returns Bool _) ?_
    rintro ⟨columns, values, text, hsome, -⟩
    cases hsome
  | some parsed =>
    obtain ⟨columns, values, text⟩ := parsed
    simp only
    cases htime : env.lexicalCast text with
    | none =>
      refine iff_of_true ⟨false, rfl⟩ ⟨columns, values, text, rfl, ?_⟩
      intro timestamp heq
      rw [htime] at heq
      cases heq
    | some timestamp =>
      simp only
      rw [putColumns_returns_iff]
      constructor
      · intro hfits
        refine ⟨columns, values, text, rfl, fun timestamp' heq => ?_⟩
        cases htime.symm.trans heq
        exact hfits
      · rintro ⟨_, _, _, hsome, hfits⟩
        cases hsome
        exact hfits timestamp htime

/-- What a `Put` needs of its table and its statement to return, with `true` or with `false`: a
stream to write to, a length that is not negative as an `int`, and fields, unless its `Sync`
fails. -/
structure PutReturns (env : Env) (io : DiskCalls) (statement : Bytes) (table : Table) : Prop where
  stream : table.wf.fileHandle.filestream = true
  length : statement.length % 2 ^ 32 < 2 ^ 31
  fields : (table.SyncDue → io.sync = none) → Readable env table.segmentIndex statement

theorem put_returns_iff {env : Env} {io : DiskCalls} {statement : Bytes} {s : TableState} :
    (∃ b, (Table.put env io statement s).1 = .ok b) ↔ PutReturns env io statement s.table := by
  by_cases hwrites : s.table.wf.fileHandle.filestream = true ∧ statement.length % 2 ^ 32 < 2 ^ 31
  · obtain ⟨hf, hs⟩ := hwrites
    by_cases hsync : s.table.SyncDue → io.sync = none
    · obtain ⟨t, ht, -, -, -, hsegment⟩ := putDisk_written env io hf hs hsync
      have hput : (Table.put env io statement s).1 =
          (Segment.indexStatement env (splitString env statement (ascii " "))
            s.table.currentOffset s.table.segmentIndex).1 := by
        rw [put_of_putDisk ht, ← hsegment]
        rfl
      rw [hput, indexStatement_returns_iff]
      exact ⟨fun h => ⟨hf, hs, fun _ => h⟩, fun h => h.fields hsync⟩
    · have hfailed : s.table.SyncDue ∧ io.sync ≠ none := by tauto
      obtain ⟨k, hk⟩ := Option.ne_none_iff_exists'.mp hfailed.2
      obtain ⟨t, ht, -⟩ := putDisk_sync_failed env io hf hs hfailed.1 hk
      rw [put_of_putDisk_false ht]
      exact iff_of_true ⟨false, rfl⟩ ⟨hf, hs, fun h => absurd h hsync⟩
  · refine iff_of_false ?_ fun h => hwrites ⟨h.stream, h.length⟩
    rintro ⟨b, hb⟩
    apply hwrites
    apply @stream_and_length_of_put env io statement s
    intro fault hfault
    rw [hb] at hfault
    cases hfault

/-! The search of the log. -/

theorem scanOffsets_le (offset : ℕ) (entries : List (ℕ × ℕ)) {best : ℕ × ℕ}
    (h : best.1 ≤ offset) : (Table.scanOffsets offset entries best).1.1 ≤ offset := by
  induction entries generalizing best with
  | nil => exact h
  | cons entry rest ih =>
    rw [Table.scanOffsets]
    split_ifs with hgt
    · exact h
    · exact ih (Nat.not_lt.mp hgt)

theorem scanFiles_le (offset : ℕ) (files : List (Bytes × Std.ExtTreeMap ℕ ℕ compare))
    (file : Bytes) {best : ℕ × ℕ} (h : best.1 ≤ offset) :
    (Table.scanFiles offset files file best).2.1 ≤ offset := by
  induction files generalizing file best with
  | nil => exact h
  | cons entry rest ih =>
    obtain ⟨name, offsetMap⟩ := entry
    have hle := scanOffsets_le offset offsetMap.toList h
    rw [Table.scanFiles]
    rcases hscan : Table.scanOffsets offset offsetMap.toList best with ⟨found, _ | _⟩ <;>
      rw [hscan] at hle
    · exact ih name hle
    · exact hle

theorem findOffsetPosition_le (m : OffsetPosMap) (offset : ℕ) :
    (Table.findOffsetPosition m offset).2.1 ≤ offset :=
  scanFiles_le offset m.toList [] (Nat.zero_le offset)

def searchedFile (env : Env) (offset : ℕ) (s : TableState) : Bytes :=
  Table.logDir env s.table.tableManifest.name ++ ascii "/" ++
    (Table.findOffsetPosition s.table.offsetPosMap offset).1

def searchedBytes (env : Env) (offset : ℕ) (s : TableState) : Bytes :=
  (s.table.logReaderMap[searchedFile env offset s]?.getD
    ⟨resolve env.workingDirectory (searchedFile env offset s)⟩).content s.fs

/-- What the search for a record needs to return: a file that is open or can be opened, headers
with the offsets that are counted, and a record without a length from `2 ^ 31 - 1` on. -/
structure SearchReturns (env : Env) (offset : ℕ) (s : TableState) : Prop where
  opens : s.table.logReaderMap[searchedFile env offset s]? ≠ none ∨
    (s.fs (resolve env.workingDirectory (searchedFile env offset s))).isSome = true
  headers : let found := Table.findOffsetPosition s.table.offsetPosMap offset
    ¬ Misses env (searchedBytes env offset s) offset found.2.1 found.2.2
  length : let found := Table.findOffsetPosition s.table.offsetPosMap offset
    ∀ p, Reaches env (searchedBytes env offset s) offset found.2.1 found.2.2 p →
      ∀ n, Declares (searchedBytes env offset s) p n → n < 2 ^ 31 - 1

section Search
variable {env : Env} {offset : ℕ} {s : TableState}

theorem reader_returns_iff {logFile : Bytes} :
    (∃ rf, (Table.reader env logFile s).1 = .ok rf) ↔
      s.table.logReaderMap[logFile]? ≠ none ∨
        (s.fs (resolve env.workingDirectory logFile)).isSome = true := by
  rw [Table.reader, Exec.bind_ok (Exec.get_apply s)]
  cases hrf : s.table.logReaderMap[logFile]? with
  | some rf => exact iff_of_true ⟨rf, rfl⟩ (Or.inl (Option.some_ne_none rf))
  | none =>
    simp only [RandomAccessFileHandle.new, ne_eq, not_true_eq_false, false_or]
    split_ifs with hfile
    · exact iff_of_true ⟨_, rfl⟩ hfile
    · exact iff_of_false (not_returns RandomAccessFileHandle _) hfile

/-- The search returns unless it comes to a wrong header or a bad length. -/
theorem scanMessages_returns_iff {content : Bytes} {start pos : ℕ} (hle : start ≤ offset) :
    (∃ r, Table.scanMessages env content offset (Table.scanBound offset start) start pos =
        some (.ok r)) ↔
      ¬ Misses env content offset start pos ∧
        ∀ p, Reaches env content offset start pos p → ∀ n, Declares content p n →
          n < 2 ^ 31 - 1 := by
  obtain ⟨result, hscan⟩ := Option.isSome_iff_exists.mp
    (Table.scanMessages_isSome env content offset (le_refl (Table.scanBound offset start)) pos)
  rw [hscan]
  simp only [Option.some.injEq]
  constructor
  · rintro ⟨r, rfl⟩
    refine ⟨fun hmiss => ?_, fun p hp => ?_⟩
    · cases hscan.symm.trans (hmiss.scanMessages le_rfl)
    · rw [← @foundMessage_returns_iff env]
      exact ⟨r, (Option.some.inj (hscan.symm.trans (hp.scanMessages le_rfl))).symm⟩
  · rintro ⟨hmiss, hlength⟩
    rcases scanMessages_cases hle hscan with rfl | ⟨-, hmisses⟩ | ⟨p, hp, rfl⟩
    · exact ⟨none, rfl⟩
    · exact absurd hmisses hmiss
    · exact foundMessage_returns_iff.mpr (hlength p hp)

theorem fetch_returns_iff (hcache : s.table.offsetMessage[offset]? = none) :
    (∃ r, (Table.fetch env offset s).1 = .ok r) ↔ SearchReturns env offset s := by
  generalize hfound : Table.findOffsetPosition s.table.offsetPosMap offset = found
  have hle : found.2.1 ≤ offset := hfound ▸ findOffsetPosition_le s.table.offsetPosMap offset
  have hfile : Table.logDir env s.table.tableManifest.name ++ ascii "/" ++ found.1 =
      searchedFile env offset s := by
    rw [searchedFile, hfound]
  have hfetch : (∃ r, (Table.fetch env offset s).1 = .ok r) ↔
      ∃ r, (Table.findMessage env offset found.2.1 found.2.2 found.1 s).1 = .ok r := by
    rw [fetch_of_find hcache (by rw [hfound])]
    rcases (Table.findMessage env offset found.2.1 found.2.2 found.1 s).1 with fault | r
    · exact iff_of_false (not_returns (Option Bytes) fault) (not_returns (Option Bytes) fault)
    · exact iff_of_true ⟨_, rfl⟩ ⟨r, rfl⟩
  have hsearch : SearchReturns env offset s ↔
      (∃ rf, (Table.reader env (searchedFile env offset s) s).1 = .ok rf) ∧
        ∃ r, Table.scanMessages env (searchedBytes env offset s) offset
          (Table.scanBound offset found.2.1) found.2.1 found.2.2 = some (.ok r) := by
    rw [reader_returns_iff, scanMessages_returns_iff hle]
    constructor
    · intro h
      refine ⟨h.opens, ?_, ?_⟩
      · rw [← hfound]
        exact h.headers
      · rw [← hfound]
        exact h.length
    · rintro ⟨hopens, hheaders, hlength⟩
      rw [← hfound] at hheaders hlength
      exact ⟨hopens, hheaders, hlength⟩
  rw [hfetch, hsearch]
  constructor
  · rintro ⟨r, hr⟩
    obtain ⟨rf, hopen, hscan⟩ := scanMessages_of_findMessage hr
    rw [hfile] at hopen
    rw [reader_eq hopen] at hscan
    exact ⟨⟨rf, hopen⟩, r, hscan⟩
  · rintro ⟨⟨rf, hopen⟩, r, hscan⟩
    have hbytes : rf.content s.fs = searchedBytes env offset s := by
      rw [reader_eq hopen, searchedBytes]
    rw [← hfile] at hopen
    rw [← hbytes] at hscan
    exact ⟨r, findMessage_eq hopen hscan⟩

end Search

/-- What a `Get` needs to return: its three fields, and a search that returns if the record is in
the index and not in the cache. -/
def GetReturns (env : Env) (statement : Bytes) (s : TableState) : Prop :=
  ∃ column timestamp value, query env statement = some (column, timestamp, value) ∧
    ∀ offset, s.table.segmentIndex.get column timestamp value = some offset →
      s.table.offsetMessage[offset]? = none → SearchReturns env offset s

theorem get_returns_iff {env : Env} {statement : Bytes} {s : TableState} :
    (∃ r, (Table.get env statement s).1 = .ok r) ↔ GetReturns env statement s := by
  rw [get_eq]
  unfold GetReturns
  rcases hquery : query env statement with _ | ⟨column, timestamp, value⟩
  · refine iff_of_false (not_returns (Option Bytes) _) ?_
    rintro ⟨_, _, _, hsome, -⟩
    cases hsome
  simp only
  cases hindex : s.table.segmentIndex.get column timestamp value with
  | none =>
    refine iff_of_true ⟨none, rfl⟩ ⟨column, timestamp, value, rfl, ?_⟩
    intro offset hoffset
    rw [hindex] at hoffset
    cases hoffset
  | some offset =>
    simp only
    cases hcache : s.table.offsetMessage[offset]? with
    | some text =>
      rw [fetch_cached hcache]
      refine iff_of_true ⟨some text, rfl⟩ ⟨column, timestamp, value, rfl, ?_⟩
      intro offset' hoffset hnone
      cases hindex.symm.trans hoffset
      rw [hcache] at hnone
      cases hnone
    | none =>
      rw [fetch_returns_iff hcache]
      constructor
      · intro h
        refine ⟨column, timestamp, value, rfl, fun offset' hoffset _ => ?_⟩
        cases hindex.symm.trans hoffset
        exact h
      · rintro ⟨_, _, _, hsome, h⟩
        cases hsome
        exact h offset hindex hcache

end Ibdb.Storage
