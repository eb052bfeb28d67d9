import Ibdb.Storage.Answers

/-! The cache of messages beside the log it was filled from. -/
namespace Ibdb.Storage
open Base Log
open Std (ExtTreeMap)

/-- What `Get` makes of an offset without a look at the cache. -/
def readUncached (env : Env) (offset : ℕ) (s : TableState) : Except Fault (Option Bytes) :=
  let found := Table.findOffsetPosition s.table.offsetPosMap offset
  (Table.findMessage env offset found.2.1 found.2.2 found.1 s).1.map (·.map cString)

/-- Each entry of the cache was read from the log, which is open since. -/
structure CacheInv (env : Env) (tableName : Bytes) (ms : List Bytes) (s : TableState) : Prop where
  read : ∀ (offset : ℕ) text, s.table.offsetMessage[offset]? = some text →
    ∃ m, readRecord ms s.flushed.length offset = .ok (some m) ∧ text = cString m
  opened : ∀ (offset : ℕ) text, s.table.offsetMessage[offset]? = some text →
    s.withReader env tableName = s

theorem readRecord_mono {ms ns : List Bytes} {f g i : ℕ} {m : Bytes}
    (h : readRecord ms f i = .ok (some m)) (hfg : f ≤ g) :
    readRecord (ms ++ ns) g i = .ok (some m) := by
  obtain ⟨hm, hpos⟩ := readRecord_eq_some h
  obtain ⟨hi, rfl⟩ := List.getElem?_eq_some_iff.mp hm
  have hstart : position (ms ++ ns) i = position ms i := position_append hi.le
  have hend : position (ms ++ ns) (i + 1) = position ms (i + 1) := position_append hi
  have hsucc := position_succ hi
  have hlong : ms[i].length ≠ 2 ^ 31 - 1 := readRecord_length_ne h
  rw [readRecord, List.getElem?_append_left hi, hm]
  simp only [hstart, hend, hlong, if_false]
  rw [if_neg (by omega), if_pos (by omega)]

section CacheInv
variable {env : Env} {tableName : Bytes} {isKey : Bytes → Bool} {ms : List Bytes}
  {s : TableState}

theorem CacheInv.of_empty (h : s.table.offsetMessage = ∅) : CacheInv env tableName ms s := by
  constructor <;> simp [h]

/-- The log grows, and the cache is as it was. -/
theorem CacheInv.mono (h : CacheInv env tableName ms s) {ns : List Bytes} {t : TableState}
    (hflushed : s.flushed.length ≤ t.flushed.length)
    (hcache : t.table.offsetMessage = s.table.offsetMessage)
    (hreaders : t.table.logReaderMap = s.table.logReaderMap) :
    CacheInv env tableName (ms ++ ns) t := by
  constructor
  · intro offset text htext
    rw [hcache] at htext
    obtain ⟨m, hm, rfl⟩ := h.read offset text htext
    exact ⟨m, readRecord_mono hm hflushed, rfl⟩
  · intro offset text htext
    rw [hcache] at htext
    have hopen := congrArg (·.table.logReaderMap) (h.opened offset text htext)
    simp only [TableState.withReader] at hopen ⊢
    rw [hreaders, hopen, ← hreaders]

/-- An entry is what the two searches and the conversion to a string give. -/
theorem CacheInv.readUncached (h : CacheInv env tableName ms s) (hlog : LogInv env tableName ms s)
    (hb : InBounds ms) {offset : ℕ} {text : Bytes}
    (htext : s.table.offsetMessage[offset]? = some text) :
    readUncached env offset s = .ok (some text) := by
  obtain ⟨m, hm, rfl⟩ := h.read offset text htext
  have hne : ms ≠ [] := by
    intro hnil
    rw [hnil, readRecord_of_length_le (Nat.zero_le _)] at hm
    cases hm
  have hfind := hlog.find hne (hb.position_lt (min offset ms.length)) hb.message
  rw [Ibdb.Storage.readUncached, hfind, hm]
  rfl

/-! Reads. -/

/-- The state once a read of the offset has come to the result. -/
def TableState.remember (offset : ℕ) : Except Fault (Option Bytes) → TableState → TableState
  | .ok (some message), s => { s with table := { s.table with
      offsetMessage := s.table.offsetMessage.insertIfNew offset (cString message) } }
  | _, s => s

theorem fetch_of_find {result : Except Fault (Option Bytes)} {t : TableState} {offset : ℕ}
    (hcache : s.table.offsetMessage[offset]? = none)
    (hfind : let found := Table.findOffsetPosition s.table.offsetPosMap offset
      Table.findMessage env offset found.2.1 found.2.2 found.1 s = (result, t)) :
    Table.fetch env offset s = (result.map (·.map cString), t.remember offset result) := by
  rw [Table.fetch, Exec.bind_ok (Exec.get_apply s)]
  simp only [hcache]
  rcases hfound : Table.findOffsetPosition s.table.offsetPosMap offset with ⟨file, start, pos⟩
  simp only [hfound] at hfind
  rcases result with fault | _ | message
  · exact Exec.bind_error hfind
  · exact Exec.bind_ok hfind
  · exact Exec.bind_ok hfind

theorem TableInv.fetch_result (h : TableInv env tableName isKey ms s)
    (hcache : CacheInv env tableName ms s) (hb : InBounds ms) {offset : ℕ}
    (ho : offset < ms.length) :
    (Table.fetch env offset s).1 =
      (readRecord ms s.flushed.length offset).map (·.map cString) := by
  cases hentry : s.table.offsetMessage[offset]? with
  | some text =>
    obtain ⟨m, hm, rfl⟩ := hcache.read offset text hentry
    rw [fetch_cached hentry, hm]
    rfl
  | none =>
    have hfind := h.log.find (List.ne_nil_of_length_pos (by omega))
      (hb.position_lt (min offset ms.length)) hb.message
    rw [fetch_of_find hentry hfind]

/-- `Get` does not depend on the cache. -/
theorem TableInv.get_result (h : TableInv env tableName isKey ms s)
    (hcache : CacheInv env tableName ms s) (hb : InBounds ms) (statement : Bytes) :
    (Table.get env statement s).1 =
      match query env statement with
      | none => .error .outOfRange
      | some (column, timestamp, value) =>
        match s.table.segmentIndex.get column timestamp value with
        | none => .ok none
        | some offset => (readRecord ms s.flushed.length offset).map (·.map cString) := by
  rw [get_eq]
  rcases query env statement with _ | ⟨column, timestamp, value⟩
  · rfl
  simp only
  cases hget : s.table.segmentIndex.get column timestamp value with
  | none => rfl
  | some offset =>
    obtain ⟨ho, -⟩ := List.findIdx?_eq_some_iff_getElem.mp (h.index.get_eq_some hget).2
    exact h.fetch_result hcache hb ho

theorem CacheInv.fetch (h : TableInv env tableName isKey ms s)
    (hcache : CacheInv env tableName ms s) (hb : InBounds ms) {offset : ℕ}
    (ho : offset < ms.length) :
    CacheInv env tableName ms (Table.fetch env offset s).2 := by
  cases hentry : s.table.offsetMessage[offset]? with
  | some text =>
    rw [fetch_cached hentry]
    exact hcache
  | none =>
    have hfind := h.log.find (List.ne_nil_of_length_pos (by omega))
      (hb.position_lt (min offset ms.length)) hb.message
    have hopened : (s.withReader env tableName).withReader env tableName =
        s.withReader env tableName :=
      TableState.withReader_withReader env tableName s
    rw [fetch_of_find hentry hfind]
    rcases hread : readRecord ms s.flushed.length offset with fault | _ | m
    · exact ⟨hcache.read, fun _ _ _ => hopened⟩
    · exact ⟨hcache.read, fun _ _ _ => hopened⟩
    · constructor
      · intro o text htext
        change (s.table.offsetMessage.insertIfNew offset (cString m))[o]? = some text at htext
        rw [ExtTreeMap.getElem?_insertIfNew] at htext
        split_ifs at htext with hnew
        · obtain rfl := Std.compare_eq_iff_eq.mp hnew.1
          exact ⟨m, hread, (Option.some.inj htext).symm⟩
        · exact hcache.read o text htext
      · intro _ _ _
        exact congrArg (TableState.remember offset (.ok (some m))) hopened

theorem CacheInv.get (h : TableInv env tableName isKey ms s)
    (hcache : CacheInv env tableName ms s) (hb : InBounds ms) (statement : Bytes) :
    CacheInv env tableName ms (Table.get env statement s).2 := by
  rw [get_eq]
  rcases query env statement with _ | ⟨column, timestamp, value⟩
  · exact hcache
  simp only
  cases hget : s.table.segmentIndex.get column timestamp value with
  | none => exact hcache
  | some offset =>
    obtain ⟨ho, -⟩ := List.findIdx?_eq_some_iff_getElem.mp (h.index.get_eq_some hget).2
    exact hcache.fetch h hb ho

/-- A batch read over an open log changes nothing. -/
theorem LogInv.getBatchLoop_opened (h : LogInv env tableName ms s) (hb : InBounds ms)
    (hne : ms ≠ []) (hopened : s.withReader env tableName = s) (count i : ℕ) (data : List Bytes) :
    (Table.getBatchLoop env count i data s).2 = s := by
  induction count generalizing i data with
  | zero => rfl
  | succ count ih =>
    have hfind := h.find hne (hb.position_lt (min i ms.length)) hb.message
    rw [hopened] at hfind
    rw [Table.getBatchLoop, Exec.bind_ok (Exec.get_apply s)]
    rcases hread : readRecord ms s.flushed.length i with fault | _ | m <;> rw [hread] at hfind
    · exact congrArg Prod.snd (Exec.bind_error hfind)
    · exact congrArg Prod.snd (Exec.bind_ok hfind)
    · exact (congrArg Prod.snd (Exec.bind_ok hfind)).trans (ih (i + 1) (data ++ [cString m]))

theorem CacheInv.getBatchData (h : LogInv env tableName ms s)
    (hcache : CacheInv env tableName ms s) (hb : InBounds ms) (startOffset endOffset : ℕ) :
    CacheInv env tableName ms (Table.getBatchData env startOffset endOffset s).2 := by
  by_cases hentry : ∃ (offset : ℕ) (text : Bytes), s.table.offsetMessage[offset]? = some text
  · obtain ⟨offset, text, htext⟩ := hentry
    obtain ⟨m, hm, -⟩ := hcache.read offset text htext
    have hne : ms ≠ [] := List.ne_nil_of_mem (List.mem_of_getElem? (readRecord_eq_some hm).1)
    have hsame := h.getBatchLoop_opened hb hne (hcache.opened offset text htext)
      (endOffset - startOffset) startOffset []
    rw [Table.getBatchData, hsame]
    exact hcache
  · obtain ⟨-, readers, hsame⟩ := h.getBatchLoop_keeps (endOffset - startOffset) startOffset []
    rw [Table.getBatchData, hsame]
    exact ⟨fun offset text htext => absurd ⟨offset, text, htext⟩ hentry,
      fun offset text htext => absurd ⟨offset, text, htext⟩ hentry⟩

theorem flushed_synced (io : DiskCalls) (statement : Bytes) (s : TableState) :
    ∃ data, (s.synced io statement).flushed = s.flushed ++ data := by
  unfold TableState.synced
  split
  · exact ⟨_, TableState.flushed_drain _ _⟩
  · exact ⟨[], (List.append_nil _).symm⟩

/-- A `Put` that comes back writes at the end of the log, and leaves what reads go through alone. -/
theorem put_grows {io : DiskCalls} {statement : Bytes}
    (hf : s.table.wf.fileHandle.filestream = true) (hs : statement.length % 2 ^ 32 < 2 ^ 31)
    (hsync : s.table.SyncDue → io.sync = none) :
    (∃ data, (Table.put env io statement s).2.flushed = s.flushed ++ data) ∧
      (Table.put env io statement s).2.table.offsetMessage = s.table.offsetMessage ∧
      (Table.put env io statement s).2.table.logReaderMap = s.table.logReaderMap := by
  have hflushed := flushed_synced io statement s
  obtain ⟨fs, buffer, heq, -⟩ := synced_frame io statement s
  rw [put_of_putDisk (putDisk_ok env io hf hs hsync)]
  rw [heq] at hflushed ⊢
  exact ⟨hflushed, rfl, rfl⟩

theorem CacheInv.step (h : TableInv env tableName isKey ms s) (hcache : CacheInv env tableName ms s)
    {op : TableOp} {t : TableState} (hop : op.Succeeds) (hb : InBounds ms)
    (hstep : TableOp.step env op s = some t) :
    CacheInv env tableName (ms ++ op.statement?.toList) t := by
  cases op with
  | put io m =>
    have hback := isException_of_afterCall hstep
    obtain ⟨hf, hs⟩ := stream_and_length_of_put hback
    obtain ⟨⟨data, hflushed⟩, hmessages, hreaders⟩ := put_grows hf hs fun _ => hop.2
    rw [afterCall_eq hstep]
    exact hcache.mono (by simp [hflushed]) hmessages hreaders
  | get statement =>
    rw [afterCall_eq hstep]
    simpa [TableOp.statement?] using hcache.get h hb statement
  | getBatchData startOffset endOffset =>
    rw [afterCall_eq hstep]
    simpa [TableOp.statement?] using hcache.getBatchData h.log hb startOffset endOffset
  | sync result =>
    have heq : result = none := hop
    subst heq
    rw [TableOp.step, h.log.sync] at hstep
    cases hstep
    exact hcache.mono (by simp) rfl rfl
  | flush k =>
    cases hstep
    exact hcache.mono (by simp) rfl rfl

end CacheInv

end Ibdb.Storage
