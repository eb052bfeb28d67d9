import Ibdb.Storage.TableLog

/-! Reads of a log that holds given messages, of which the file has a prefix. -/
namespace Ibdb.Storage
open Base Log
open Std (ExtTreeMap)

section LogInv
variable {env : Env} {tableName : Bytes} {ms : List Bytes} {s : TableState}

/-- The states differ in the descriptors open for reading alone. -/
def SameButReaders (s t : TableState) : Prop :=
  ∃ readers, t = { s with table := { s.table with logReaderMap := readers } }

theorem SameButReaders.refl (s : TableState) : SameButReaders s s := ⟨_, rfl⟩

theorem SameButReaders.trans {s t u : TableState} (h : SameButReaders s t)
    (h' : SameButReaders t u) : SameButReaders s u := by
  obtain ⟨_, rfl⟩ := h
  obtain ⟨_, rfl⟩ := h'
  exact ⟨_, rfl⟩

theorem LogInv.reader_keeps (h : LogInv env tableName ms s) (file : Bytes) :
    LogInv env tableName ms (Table.reader env file s).2 ∧
      SameButReaders s (Table.reader env file s).2 := by
  unfold Table.reader
  rw [Exec.bind_ok (Exec.get_apply s)]
  cases hrf : s.table.logReaderMap[file]? with
  | some rf => exact ⟨h, .refl s⟩
  | none =>
    unfold RandomAccessFileHandle.new
    split_ifs with hopen
    · refine ⟨{ h with readers := ?_ }, _, rfl⟩
      intro file' rf' hrf'
      change (s.table.logReaderMap.insertIfNew file ⟨resolve env.workingDirectory file⟩)[file']? =
        some rf' at hrf'
      rw [ExtTreeMap.getElem?_insertIfNew] at hrf'
      split_ifs at hrf' with hnew
      · rw [← Option.some.inj hrf', ← Std.compare_eq_iff_eq.mp hnew.1]
      · exact h.readers file' rf' hrf'
    · exact ⟨h, .refl s⟩

/-- The search itself changes nothing. -/
private theorem keeps_found (found : Except Fault (Option Bytes)) :
    Exec.Keeps id (do
      match ← (Exec.lift found : TableM (Option Bytes)) with
      | none => return none
      | some message => return some (← Exec.lift (Slice.ofBuffer message message.length))) := by
  refine (Exec.Keeps.lift id found).bind fun result => ?_
  cases result with
  | none => exact .pure id none
  | some message => exact (Exec.Keeps.lift id _).bind fun slice => .pure id _

/-- Whatever a `FindMessage` comes to, it opens a file for reading at most. -/
theorem LogInv.findMessage_keeps (h : LogInv env tableName ms s) (offset start pos : ℕ)
    (file : Bytes) :
    LogInv env tableName ms (Table.findMessage env offset start pos file s).2 ∧
      SameButReaders s (Table.findMessage env offset start pos file s).2 := by
  have hreader := h.reader_keeps
    (Table.logDir env s.table.tableManifest.name ++ ascii "/" ++ file)
  rw [Table.findMessage, Exec.bind_ok (Exec.get_apply s), Exec.bind_apply]
  rcases hrun :
    Table.reader env (Table.logDir env s.table.tableManifest.name ++ ascii "/" ++ file) s
    with ⟨fault | rf, t⟩ <;> rw [hrun] at hreader
  · exact hreader
  · have hkeep : ∀ u, u = t → LogInv env tableName ms u ∧ SameButReaders s u := by
      intro _ heq
      subst heq
      exact hreader
    exact hkeep _ (keeps_found _ t)

theorem LogInv.getBatchLoop_keeps (h : LogInv env tableName ms s) (count i : ℕ)
    (data : List Bytes) :
    LogInv env tableName ms (Table.getBatchLoop env count i data s).2 ∧
      SameButReaders s (Table.getBatchLoop env count i data s).2 := by
  induction count generalizing s i data with
  | zero => exact ⟨h, .refl s⟩
  | succ count ih =>
    rw [Table.getBatchLoop, Exec.bind_ok (Exec.get_apply s)]
    rcases Table.findOffsetPosition s.table.offsetPosMap i with ⟨file, start, pos⟩
    obtain ⟨hinv, hsame⟩ := h.findMessage_keeps i start pos file
    simp only [Exec.bind_apply]
    rcases hrun : Table.findMessage env i start pos file s with ⟨_ | _ | m, t⟩ <;>
      rw [hrun] at hinv hsame
    · exact ⟨hinv, hsame⟩
    · exact ⟨hinv, hsame⟩
    · obtain ⟨hinv', hsame'⟩ := ih hinv (i + 1) (data ++ [cString m])
      exact ⟨hinv', hsame.trans hsame'⟩

def TableState.withReader (env : Env) (tableName : Bytes) (s : TableState) : TableState :=
  { s with table := { s.table with logReaderMap :=
    s.table.logReaderMap.insertIfNew (logFile env tableName) ⟨logPath env tableName⟩ } }

theorem LogInv.withReader (h : LogInv env tableName ms s) :
    LogInv env tableName ms (s.withReader env tableName) := by
  refine { h with readers := ?_ }
  intro file rf hrf
  simp only [TableState.withReader, ExtTreeMap.getElem?_insertIfNew, Std.compare_eq_iff_eq] at hrf
  split_ifs at hrf with hnew
  · rw [← Option.some.inj hrf, ← hnew.1]
    rfl
  · exact h.readers file rf hrf

theorem withReader_of_some {rf : RandomAccessFileHandle}
    (hrf : s.table.logReaderMap[logFile env tableName]? = some rf) :
    s.withReader env tableName = s := by
  have hmem : logFile env tableName ∈ s.table.logReaderMap :=
    ExtTreeMap.mem_iff_isSome_getElem?.mpr (Option.isSome_of_eq_some hrf)
  have hmap : s.table.logReaderMap.insertIfNew (logFile env tableName) ⟨logPath env tableName⟩ =
      s.table.logReaderMap := by
    apply ExtTreeMap.ext_getElem?
    intro file
    rw [ExtTreeMap.getElem?_insertIfNew, if_neg fun hc => hc.2 hmem]
  simp only [TableState.withReader, hmap]

theorem TableState.withReader_withReader (env : Env) (tableName : Bytes) (s : TableState) :
    (s.withReader env tableName).withReader env tableName = s.withReader env tableName := by
  have hmem : logFile env tableName ∈ (s.withReader env tableName).table.logReaderMap :=
    ExtTreeMap.mem_insertIfNew_self
  obtain ⟨rf, hrf⟩ := Option.isSome_iff_exists.mp (ExtTreeMap.mem_iff_isSome_getElem?.mp hmem)
  exact withReader_of_some hrf

theorem LogInv.reader (h : LogInv env tableName ms s) :
    Table.reader env (logFile env tableName) s =
      (.ok ⟨logPath env tableName⟩, s.withReader env tableName) := by
  unfold Table.reader
  rw [Exec.bind_ok (Exec.get_apply s)]
  cases hrf : s.table.logReaderMap[logFile env tableName]? with
  | none =>
    have hnew : RandomAccessFileHandle.new env s.fs (logFile env tableName) =
        .ok ⟨logPath env tableName⟩ := if_pos h.opened
    simp only [hnew]
    rfl
  | some rf =>
    rw [withReader_of_some hrf, show rf = ⟨logPath env tableName⟩ by
      cases rf
      exact congrArg _ (h.readers _ _ hrf)]
    rfl

/-- `FindMessage`, entered at the true position of a record at or before the one wanted. -/
theorem LogInv.findMessage (h : LogInv env tableName ms s) {i start : ℕ}
    (hpos : position ms (min i ms.length) < 2 ^ 32) (hms : ∀ m ∈ ms, m.length < 2 ^ 31)
    (hi : start ≤ i) (hn : start ≤ ms.length) :
    Table.findMessage env i start (position ms start) Table.logName s =
      (readRecord ms s.flushed.length i, s.withReader env tableName) := by
  have hcontent : RandomAccessFileHandle.content ⟨logPath env tableName⟩ s.fs =
      (logBytes ms).take s.flushed.length := by
    rw [← h.contents, TableState.logContents, List.take_left, TableState.flushed, h.path]
    rfl
  have hscan := scanMessages_eq env (f := s.flushed.length) hpos hms le_rfl hi hn
  rw [Table.findMessage, Exec.bind_ok (Exec.get_apply s), h.name]
  simp only [show Table.logDir env tableName ++ ascii "/" ++ Table.logName =
    logFile env tableName from rfl]
  rw [Exec.bind_ok h.reader]
  simp only [hcontent, hscan, Option.get_some]
  rw [Exec.bind_apply, Exec.lift_apply]
  rcases hread : readRecord ms s.flushed.length i with fault | _ | m
  · rfl
  · rfl
  · obtain ⟨hm, -⟩ := readRecord_eq_some hread
    have hshort := hms m (List.mem_of_getElem? hm)
    simp only [Slice.ofBuffer_of_lt hshort]
    rfl

/-- `FindOffsetPosition` and `FindMessage` together read the record wanted. -/
theorem LogInv.find (h : LogInv env tableName ms s) {i : ℕ} (hne : ms ≠ [])
    (hpos : position ms (min i ms.length) < 2 ^ 32) (hms : ∀ m ∈ ms, m.length < 2 ^ 31) :
    let found := Table.findOffsetPosition s.table.offsetPosMap i
    Table.findMessage env i found.2.1 found.2.2 found.1 s =
      (readRecord ms s.flushed.length i, s.withReader env tableName) := by
  obtain ⟨start, pos, hfound, hindexed, hle, -⟩ := findOffsetPosition_spec h.index hne i
  obtain ⟨-, hstart, -, hposition⟩ := h.index.indexed_iff.mp hindexed
  have hmono : position ms start ≤ position ms (min i ms.length) := position_mono ms (by omega)
  rw [Nat.mod_eq_of_lt (by omega)] at hposition
  simp only [hfound, hposition]
  exact h.findMessage hpos hms hle hstart.1.le

/-- A log whose positions fit in 32 bits and whose messages can be framed. -/
structure InBounds (ms : List Bytes) : Prop where
  message : ∀ m ∈ ms, m.length < 2 ^ 31
  total : (logBytes ms).length < 2 ^ 32

theorem InBounds.of_short (hlen : ∀ m ∈ ms, m.length < 2 ^ 31 - 1)
    (htotal : (ms.map fun m => 12 + m.length).sum < 2 ^ 32) : InBounds ms :=
  ⟨fun m hm => (hlen m hm).trans (by norm_num), by rwa [logBytes_length]⟩

theorem InBounds.position_lt (h : InBounds ms) (k : ℕ) : position ms k < 2 ^ 32 :=
  (position_le_length ms k).trans_lt h.total

/-- What a batch read gives while the file holds the first `f` bytes of the log. -/
def readBatch (ms : List Bytes) (f : ℕ) :
    ℕ → ℕ → List Bytes → Except Fault (Bool × List Bytes)
  | 0, _, data => .ok (true, data)
  | count + 1, i, data =>
    match readRecord ms f i with
    | .error fault => .error fault
    | .ok none => .ok (false, data)
    | .ok (some message) => readBatch ms f count (i + 1) (data ++ [cString message])

theorem LogInv.getBatchLoop (h : LogInv env tableName ms s) (hb : InBounds ms) (hne : ms ≠ [])
    (count i : ℕ) (data : List Bytes) :
    ∃ t, Table.getBatchLoop env count i data s =
        (readBatch ms s.flushed.length count i data, t) ∧
      LogInv env tableName ms t ∧ SameButReaders s t := by
  induction count generalizing s i data with
  | zero => exact ⟨s, rfl, h, .refl s⟩
  | succ count ih =>
    have hfind := h.find hne (hb.position_lt (min i ms.length)) hb.message
    have hopen : SameButReaders s (s.withReader env tableName) := ⟨_, rfl⟩
    rw [Table.getBatchLoop, Exec.bind_ok (Exec.get_apply s), readBatch]
    rcases hread : readRecord ms s.flushed.length i with fault | _ | m <;> rw [hread] at hfind
    · exact ⟨_, Exec.bind_error hfind, h.withReader, hopen⟩
    · refine ⟨_, Exec.bind_ok hfind, h.withReader, hopen⟩
    · obtain ⟨t, ht, hinv, hsame⟩ := ih h.withReader (i + 1) (data ++ [cString m])
      exact ⟨t, (Exec.bind_ok hfind).trans ht, hinv, hopen.trans hsame⟩

theorem readBatch_of_short {f count i : ℕ} (hms : ∀ m ∈ ms, m.length < 2 ^ 31 - 1)
    (hi : i + count ≤ ms.length) (hf : position ms (i + count) ≤ f) (data : List Bytes) :
    readBatch ms f count i data =
      .ok (true, data ++ ((ms.drop i).take count).map cString) := by
  induction count generalizing i data with
  | zero => simp [readBatch]
  | succ count ih =>
    have hlt : i < ms.length := by omega
    have hnext : position ms (i + 1) ≤ f := (position_mono ms (by omega)).trans hf
    have hread := readRecord_of_short (f := f) hlt (hms _ (List.getElem_mem hlt))
    rw [if_pos hnext] at hread
    rw [readBatch, hread, List.drop_eq_getElem_cons hlt, List.take_succ_cons, List.map_cons]
    simp only
    rw [ih (by omega) (by rwa [Nat.add_right_comm]), List.append_assoc, List.singleton_append]

end LogInv
end Ibdb.Storage
