import Ibdb.Storage.ReadBack
import Ibdb.Storage.Replay

/-! A table whose log file held bytes before it was created. -/
namespace Ibdb.Storage
open Base Log

/-- No two statements share a column, a timestamp and a value. -/
def Distinct (env : Env) (ms : List Bytes) : Prop :=
  ms.Pairwise fun m m' => ∀ column timestamp value,
    Lists env column timestamp value m → ¬ Lists env column timestamp value m'

/-- Reads return the statements `ms` and nothing else, and no search of the log fails. -/
structure Serves (env : Env) (schema : List Field) (ms : List Bytes) (s : TableState) :
    Prop where
  get : ∀ statement column timestamp value,
    query env statement = some (column, timestamp, value) →
    ∃ result, (Table.get env statement s).1 = .ok result ∧
      (∀ message, result = some message →
        message ∈ ms ∧ Lists env column timestamp value message) ∧
      (column ∈ keyColumns schema → ∀ m ∈ ms, Lists env column timestamp value m →
        result = some m)
  getBatchData : ∀ a b, a ≤ b → b ≤ ms.length →
    (Table.getBatchData env a b s).1 = .ok (true, (ms.drop a).take (b - a))
  findMessage : ms ≠ [] → ∀ i : ℕ,
    let found := Table.findOffsetPosition s.table.offsetPosMap i
    (Table.findMessage env i found.2.1 found.2.2 found.1 s).1 = .ok ms[i]?

/-- Along every run of short NUL-free statements with distinct triples, written out, the table
serves what was put in the run. -/
def ServesItsOwn (env : Env) (schema : List Field) (s₀ : TableState) : Prop :=
  ∀ ops s, run (TableOp.step env) ops s₀ = some s → (∀ op ∈ ops, op.Succeeds) →
    (∀ m ∈ TableOp.statements ops, 0 ∉ m ∧ m.length < 2 ^ 31 - 1) →
    ((TableOp.statements ops).map fun m => 12 + m.length).sum < 2 ^ 32 →
    Distinct env (TableOp.statements ops) → s.pending = [] →
    Serves env schema (TableOp.statements ops) s

section FreshLog
variable {env : Env} {tableName : Bytes} {schema : List Field} {s₀ s : TableState}
  {ms : List Bytes}

theorem Distinct.find? (h : Distinct env ms) {column value m : Bytes} {timestamp : UInt64}
    (hm : m ∈ ms) (hlists : Lists env column timestamp value m) :
    ms.find? (posts env column timestamp value) = some m := by
  have hpairs := List.pairwise_iff_getElem.mp h
  obtain ⟨i, hi, rfl⟩ := List.getElem_of_mem hm
  rw [List.find?_eq_some_iff_getElem]
  refine ⟨posts_iff.mpr hlists, i, hi, rfl, fun j hj => ?_⟩
  have hbefore := hpairs j i (hj.trans hi) hi hj column timestamp value
  rw [Bool.not_eq_true', Bool.eq_false_iff, Ne, posts_iff]
  exact fun hearlier => hbefore hearlier hlists

theorem readRecord_of_flushed (hlen : ∀ m ∈ ms, m.length < 2 ^ 31 - 1) (i : ℕ) :
    readRecord ms (logBytes ms).length i = .ok ms[i]? := by
  by_cases hi : i < ms.length
  · rw [readRecord_of_short hi (hlen _ (List.getElem_mem hi)), if_pos (position_le_length ms _),
      List.getElem?_eq_getElem hi]
  · have hle := Nat.not_lt.mp hi
    rw [readRecord_of_length_le hle, List.getElem?_eq_none hle]

theorem serves_of_empty (hcreated : Created env tableName schema [] s₀) :
    ServesItsOwn env schema s₀ := by
  intro ops s hrun hok hms htotal hdistinct hflushed
  have hlen : ∀ m ∈ TableOp.statements ops, m.length < 2 ^ 31 - 1 := fun m hm => (hms m hm).2
  have hb := InBounds.of_short hlen htotal
  have hinv := TableInv.of_run hcreated hrun hok hb
  constructor
  · intro statement column timestamp value hquery
    have hget := hinv.get_flushed hb hlen hflushed statement
    simp only [hquery, answer] at hget
    refine ⟨_, hget, ?_, ?_⟩
    · intro message hmessage
      split_ifs at hmessage
      · obtain ⟨m, hfound, rfl⟩ := Option.map_eq_some_iff.mp hmessage
        have hm := List.mem_of_find?_eq_some hfound
        rw [cString_of_nul_free (hms m hm).1]
        exact ⟨hm, posts_iff.mp (List.find?_some hfound)⟩
      · cases hmessage
    · intro hkey m hm hlists
      have hcolumn : column.length < 2 ^ 32 := by
        have hle := hlists.length_le
        have hlt := hlen m hm
        omega
      rw [if_pos (hcreated.contains hkey hcolumn), hdistinct.find? hm hlists, Option.map_some,
        cString_of_nul_free (hms m hm).1]
  · intro a b hab hbn
    have hcut : ∀ m ∈ ((TableOp.statements ops).drop a).take (b - a), cString m = m := by
      intro m hm
      exact cString_of_nul_free (hms m (List.mem_of_mem_drop (List.mem_of_mem_take hm))).1
    rw [hinv.getBatchData_flushed hb hlen hflushed hab hbn, List.map_congr_left hcut,
      List.map_id']
  · intro hne i
    have hfind := hinv.log.find hne (hb.position_lt (min i _)) hb.message
    simp only [hinv.log.flushed_eq hflushed, readRecord_of_flushed hlen] at hfind
    simp only [hfind]

/-! One record behind bytes that were there: the reader starts at byte 0 all the same. -/

/-- The file has old bytes and the record of `m` behind them; the table knows of `m` alone. -/
structure Behind (env : Env) (tableName content m : Bytes) (s : TableState) : Prop where
  pending : s.pending = []
  name : s.table.tableManifest.name = tableName
  readers : s.table.logReaderMap = ∅
  file : s.fs (logPath env tableName) = some (content ++ record 0 m)
  index : SparseIndex env.logIndexSparseThreshold [m] s.table.offsetPosMap

theorem putDisk_behind {content : Bytes} (hcreated : Created env tableName schema content s₀)
    {m : Bytes} (hm : m.length < 2 ^ 31) :
    ∃ t, Table.putDisk env .ok m s₀ = (.ok true, t) ∧ Behind env tableName content m t := by
  obtain ⟨fs, seg, hcontent, -, rfl⟩ := created_iff.mp hcreated
  have hframe : frame .ok 0 m = record 0 m := by
    rw [frame_complete (Complete.ok m), stored_of_lt (by omega)]
  refine ⟨_, putDisk_ok env .ok rfl (by omega) fun _ => rfl, ?_⟩
  unfold TableState.synced
  rw [if_pos (show Table.SyncDue (Table.initial env tableName schema seg) from rfl)]
  constructor
  · show (TableState.drain _ _).pending = []
    simp
  · rfl
  · rfl
  · show ((fs.append (logPath env tableName) []).append (logPath env tableName)
      (([] ++ frame .ok 0 m).take ([] ++ frame .ok 0 m).length)) (logPath env tableName) = _
    simp [FileSystem.append, hcontent, hframe]
  · have hindex := (SparseIndex.empty env.logIndexSparseThreshold).concat m
    exact hindex

theorem put_behind {content : Bytes} (hcreated : Created env tableName schema content s₀)
    {m : Bytes} (hm : m.length < 2 ^ 31) :
    ∃ s, run (TableOp.step env) [.put .ok m] s₀ = some s ∧ Behind env tableName content m s := by
  obtain ⟨t, ht, hbehind⟩ := putDisk_behind hcreated hm
  obtain ⟨result, seg, hput, hfault, -⟩ := put_spec ht hm
  have hrun : run (TableOp.step env) [.put .ok m] s₀ =
      some { t with table := { t.table with segmentIndex := seg } } := by
    rw [run, TableOp.step, hput, afterCall_put hfault]
    rfl
  exact ⟨_, hrun, { hbehind with }⟩

theorem eq_pread_of_getMessage {file message : Bytes} {offset : ℕ}
    (h : RandomAccessFileHandle.getMessage env file offset = .ok (.ok message)) :
    ∃ n, message = pread file n (offset + 12) := by
  unfold RandomAccessFileHandle.getMessage at h
  simp only at h
  split_ifs at h
  · simp at h
  · simp at h
  · exact ⟨_, by simpa using h.symm⟩

/-- A read of record 0 from byte 0 returns bytes from the twelfth on. -/
theorem scanMessages_zero {content message : Bytes}
    (h : Table.scanMessages env content 0 1 0 0 = some (.ok (some message))) :
    ∃ n, message = (content.drop 12).take n := by
  rw [Table.scanMessages] at h
  cases hoff : RandomAccessFileHandle.getMessageOffset env content 0 with
  | error status => simp [hoff] at h
  | ok messageOffset =>
    simp only [hoff] at h
    split_ifs at h with hassert hfound hpast
    · simp at h
    · cases hget : RandomAccessFileHandle.getMessage env content 0 with
      | error fault => simp [hget] at h
      | ok result =>
        cases result with
        | error status => simp [hget] at h
        | ok found =>
          have heq : found = message := by simpa [hget] using h
          subst heq
          exact eq_pread_of_getMessage hget
    · omega
    · exact absurd hfound hassert

theorem Behind.reader {content m : Bytes} (hs : Behind env tableName content m s)
    {rf : RandomAccessFileHandle}
    (h : (Table.reader env (logFile env tableName) s).1 = .ok rf) :
    rf = ⟨logPath env tableName⟩ := by
  have hnew : RandomAccessFileHandle.new env s.fs (logFile env tableName) =
      .ok ⟨logPath env tableName⟩ := if_pos (by
    rw [← logPath, hs.file]
    rfl)
  have hnone : s.table.logReaderMap[logFile env tableName]? = none := by simp [hs.readers]
  rw [Table.reader, Exec.bind_ok (Exec.get_apply s)] at h
  simp only [hnone, hnew] at h
  exact (Except.ok.inj h).symm

theorem getElem?_of_cString_eq {content : Bytes} {n : ℕ} {x : UInt8}
    (h : cString ((content.drop 12).take n) = [x]) : content[12]? = some x := by
  have hhead : ((content.drop 12).take n)[0]? = some x := by
    cases hm : (content.drop 12).take n with
    | nil => simp [hm, cString] at h
    | cons y ys =>
      rw [hm, cString, List.takeWhile_cons] at h
      split_ifs at h
      simp_all
  rw [List.getElem?_take] at hhead
  split_ifs at hhead
  simpa using hhead

theorem Behind.byte_of_getBatchData {content : Bytes} {x : UInt8}
    (hs : Behind env tableName content [x] s)
    (h : (Table.getBatchData env 0 1 s).1 = .ok (true, [[x]])) :
    (content ++ record 0 [x])[12]? = some x := by
  obtain ⟨start, pos, hfound, hindexed, hle, -⟩ := findOffsetPosition_spec hs.index (by simp) 0
  have heq : start = 0 := Nat.le_zero.mp hle
  subst heq
  have heq : pos = 0 := by simpa using (hs.index.indexed_iff.mp hindexed).2.2.2
  subst heq
  rw [Table.getBatchData, Table.getBatchLoop, Exec.bind_ok (Exec.get_apply s), hfound] at h
  obtain ⟨found, t, hrun, h⟩ := Exec.bind_eq_ok.mp (Prod.ext h rfl)
  cases found with
  | none => simp at h
  | some message =>
    have htext := congrArg Prod.fst h
    have hcut : cString message = [x] := by simpa [Table.getBatchLoop] using htext
    obtain ⟨rf, hreader, hscan⟩ := scanMessages_of_findMessage (congrArg Prod.fst hrun)
    rw [hs.name] at hreader
    have heq : rf = ⟨logPath env tableName⟩ := hs.reader hreader
    subst heq
    obtain ⟨n, rfl⟩ := scanMessages_zero hscan
    rw [RandomAccessFileHandle.content, hs.file, Option.getD_some] at hcut
    exact getElem?_of_cString_eq hcut

/-- Behind one old byte or more there is a statement that a batch read does not give back. -/
theorem empty_of_serves {content : Bytes} (hcreated : Created env tableName schema content s₀)
    (h : ServesItsOwn env schema s₀) : content = [] := by
  by_contra hne
  obtain ⟨x, hx, hold⟩ : ∃ x : UInt8, (x = 2 ∨ x = 3) ∧ content[12]? ≠ some x := by
    by_cases h2 : content[12]? = some 2
    · exact ⟨3, .inr rfl, by simp [h2]⟩
    · exact ⟨2, .inl rfl, h2⟩
  obtain ⟨s, hrun, hbehind⟩ := put_behind hcreated (m := [x]) (by simp)
  have hserves := h _ s hrun (by simpa [TableOp.Succeeds] using ⟨Complete.ok _, rfl⟩)
    (by rcases hx with rfl | rfl <;> simp [TableOp.statements, TableOp.statement?])
    (by simp [TableOp.statements, TableOp.statement?])
    (by simp [TableOp.statements, TableOp.statement?, Distinct]) hbehind.pending
  have hbyte := hbehind.byte_of_getBatchData (hserves.getBatchData 0 1 (by omega) le_rfl)
  have hpos := List.length_pos_iff.mpr hne
  by_cases hlong : 12 < content.length
  · rw [List.getElem?_append_left hlong] at hbyte
    exact hold hbyte
  · -- the byte lies in the header of the new record, which holds 0 and 1
    rw [List.getElem?_append_right (Nat.not_lt.mp hlong)] at hbyte
    have hheader : record 0 [x] = [0, 0, 0, 0, 0, 0, 0, 0, 1, 0, 0, 0] ++ [x] := by
      rw [record, List.length_singleton]
      rfl
    have hk : 12 - content.length < 12 := by omega
    rw [hheader, List.getElem?_append_left hk] at hbyte
    have hmem := List.mem_of_getElem? hbyte
    rcases hx with rfl | rfl <;> exact absurd hmem (by decide)

/-- A new table serves the statements put in it, over every run, exactly when its log file was
empty or not there. -/
theorem servesItsOwn_iff {content : Bytes} (hcreated : Created env tableName schema content s₀) :
    ServesItsOwn env schema s₀ ↔ content = [] := by
  constructor
  · exact empty_of_serves hcreated
  · intro heq
    subst heq
    exact serves_of_empty hcreated

theorem servesItsOwn_iff_old_record :
    ServesItsOwn Env.default keySchema
        (tableOver Env.default (ascii "t") keySchema
          (logBytes [ascii "insert t c,timestamp 1,7"])) ↔
      logBytes [ascii "insert t c,timestamp 1,7"] = [] :=
  servesItsOwn_iff (created_tableOver _ _ keySchema _ rfl)

end FreshLog

/-- The table `t` of an earlier process left one record. `Get` of the first statement put in the
new one returns the old record, and a left-over record of offset 5 ends the process. -/
theorem reads_serve_old_record :
    let old := logBytes [ascii "insert t c,timestamp 1,7"]
    let s := (Table.put Env.default .ok (ascii "insert t c,timestamp 2,8")
      (tableOver Env.default (ascii "t") keySchema old)).2
    let torn := record 5 (ascii "m")
    let t := (Table.put Env.default .ok (ascii "insert t c,timestamp 2,8")
      (tableOver Env.default (ascii "t") keySchema torn)).2
    Created Env.default (ascii "t") keySchema old
        (tableOver Env.default (ascii "t") keySchema old) ∧
      (Table.put Env.default .ok (ascii "insert t c,timestamp 2,8")
        (tableOver Env.default (ascii "t") keySchema old)).1 = .ok true ∧
      s.pending = [] ∧
      (Table.get Env.default (ascii "get t c 2 8") s).1 =
        .ok (some (ascii "insert t c,timestamp 1,7")) ∧
      (Table.getBatchData Env.default 0 1 s).1 =
        .ok (true, [ascii "insert t c,timestamp 1,7"]) ∧
      (Table.get Env.default (ascii "get t c 2 8") t).1 = .error .assertFailed :=
  ⟨created_tableOver _ _ _ _ rfl, by decide +kernel, by decide +kernel, by decide +kernel,
    by decide +kernel, by decide +kernel⟩

end Ibdb.Storage
