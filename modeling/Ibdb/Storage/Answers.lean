import Ibdb.Storage.TableRun

/-! What reads return, in terms of the statements put: the first that lists a column with a value
and a timestamp. -/
namespace Ibdb.Storage
open Base Log

/-- The statement lists the column, with the value in the same place, and its timestamp parses
to the given one. -/
def Lists (env : Env) (column : Bytes) (timestamp : UInt64) (value statement : Bytes) : Prop :=
  ∃ columns values text, ∃ i : ℕ, fields env statement = some (columns, values, text) ∧
    env.lexicalCast text = some timestamp ∧ columns[i]? = some column ∧ values[i]? = some value

theorem posts_iff {env : Env} {column value statement : Bytes} {timestamp : UInt64} :
    posts env column timestamp value statement = true ↔
      Lists env column timestamp value statement := by
  unfold posts posting Lists
  cases hfields : fields env statement with
  | none => simp
  | some parsed =>
    obtain ⟨columns, values, text⟩ := parsed
    cases htime : env.lexicalCast text with
    | none => simp [htime]
    | some t =>
      have hzip : (column, value) ∈ columns.zip values ↔
          ∃ i : ℕ, columns[i]? = some column ∧ values[i]? = some value := by
        simp [List.mem_iff_getElem?, List.getElem?_zip_eq_some]
      simp only [Option.bind_eq_bind, Option.bind_some, htime, Option.pure_def, decide_eq_true_eq,
        hzip]
      constructor
      · rintro ⟨rfl, i, hc, hv⟩
        exact ⟨columns, values, text, i, rfl, htime, hc, hv⟩
      · rintro ⟨_, _, _, i, heq, hcast, hc, hv⟩
        cases heq
        exact ⟨Option.some.inj (hcast.symm.trans htime), i, hc, hv⟩

/-- A table is for this: the first statement with the triple, when the column is a key. -/
def answer (env : Env) (isKey : Bytes → Bool) (ms : List Bytes) (column : Bytes)
    (timestamp : UInt64) (value : Bytes) : Option Bytes :=
  if isKey column = true then ms.find? (posts env column timestamp value) else none

theorem answer_eq_none_iff {env : Env} {isKey : Bytes → Bool} {ms : List Bytes}
    {column value : Bytes} {timestamp : UInt64} :
    answer env isKey ms column timestamp value = none ↔
      (isKey column = true → ∀ m ∈ ms, ¬ Lists env column timestamp value m) := by
  unfold answer
  split_ifs with hk
  · simp only [List.find?_eq_none, hk, true_imp_iff, posts_iff]
  · exact iff_of_true rfl fun h => absurd h hk

section Flushed
variable {env : Env} {tableName : Bytes} {isKey : Bytes → Bool} {ms : List Bytes}
  {s : TableState}

theorem LogInv.flushed_eq (h : LogInv env tableName ms s) (hflushed : s.pending = []) :
    s.flushed = logBytes ms := by
  rw [← h.contents, TableState.logContents, hflushed, List.append_nil]

/-- With the log written out, `fetch` gives the statement at the offset up to its first NUL,
cached or not. -/
theorem TableInv.fetch_flushed (h : TableInv env tableName isKey ms s) (hb : InBounds ms)
    (hlen : ∀ m ∈ ms, m.length < 2 ^ 31 - 1) (hflushed : s.pending = []) {offset : ℕ}
    (ho : offset < ms.length) :
    (Table.fetch env offset s).1 = .ok (some (cString ms[offset])) := by
  cases hcache : s.table.offsetMessage[offset]? with
  | some text =>
    obtain ⟨m, hm, rfl⟩ := h.cache offset text hcache
    have hid : ms[offset] = m := by simpa [ho] using hm
    subst hid
    rw [fetch_cached hcache]
  | none =>
    obtain ⟨t, ht, -⟩ := h.fetch_uncached hb ho hcache
    have hread := readRecord_of_short (f := s.flushed.length) ho (hlen _ (List.getElem_mem ho))
    rw [h.log.flushed_eq hflushed, if_pos (position_le_length ms (offset + 1))] at hread
    rw [ht, h.log.flushed_eq hflushed, hread]
    rfl

theorem find?_eq_of_findIdx? {α : Type*} {p : α → Bool} {xs : List α} {i : ℕ}
    (h : xs.findIdx? p = some i) : xs.find? p = xs[i]? := by
  obtain ⟨hi, hp, hbefore⟩ := List.findIdx?_eq_some_iff_getElem.mp h
  rw [List.getElem?_eq_getElem hi, List.find?_eq_some_iff_getElem]
  exact ⟨hp, i, hi, rfl, fun j hj => by simpa using hbefore j hj⟩

/-- `Get` refines the answer. -/
theorem TableInv.get_flushed (h : TableInv env tableName isKey ms s) (hb : InBounds ms)
    (hlen : ∀ m ∈ ms, m.length < 2 ^ 31 - 1) (hflushed : s.pending = []) (statement : Bytes) :
    (Table.get env statement s).1 =
      match query env statement with
      | none => .error .outOfRange
      | some (column, timestamp, value) =>
        .ok ((answer env isKey ms column timestamp value).map cString) := by
  rw [get_eq]
  rcases query env statement with _ | ⟨column, timestamp, value⟩
  · rfl
  simp only [h.index.get, answer]
  by_cases hk : isKey column = true
  · simp only [hk, if_true]
    cases hfirst : ms.findIdx? (posts env column timestamp value) with
    | none =>
      rw [List.findIdx?_eq_none_iff] at hfirst
      have hnone : ms.find? (posts env column timestamp value) = none := by simpa using hfirst
      rw [hnone]
      rfl
    | some offset =>
      obtain ⟨ho, -⟩ := List.findIdx?_eq_some_iff_getElem.mp hfirst
      rw [find?_eq_of_findIdx? hfirst, List.getElem?_eq_getElem ho]
      exact h.fetch_flushed hb hlen hflushed ho
  · simp [hk]

/-- A batch read within a log that is written out gives the statements up to their first NUL. -/
theorem TableInv.getBatchData_flushed (h : TableInv env tableName isKey ms s) (hb : InBounds ms)
    (hlen : ∀ m ∈ ms, m.length < 2 ^ 31 - 1) (hflushed : s.pending = []) {a b : ℕ} (hab : a ≤ b)
    (hbn : b ≤ ms.length) :
    (Table.getBatchData env a b s).1 = .ok (true, ((ms.drop a).take (b - a)).map cString) := by
  rcases Nat.eq_zero_or_pos ms.length with hzero | hpos
  · have heq : b = 0 := by omega
    subst heq
    have heq : a = 0 := by omega
    subst heq
    simp [Table.getBatchData, Table.getBatchLoop]
  · obtain ⟨t, ht, -⟩ := h.log.getBatchLoop hb (List.ne_nil_of_length_pos hpos) (b - a) a []
    rw [Table.getBatchData, ht, h.log.flushed_eq hflushed,
      readBatch_of_short hlen (by omega) (position_le_length ms _), List.nil_append]

theorem cString_of_nul_free {m : Bytes} (h : 0 ∉ m) : cString m = m := by
  rw [cString, List.takeWhile_eq_self_iff]
  intro b hb
  have hne : b ≠ 0 := fun h0 => h (h0 ▸ hb)
  simpa using hne

end Flushed
section Run
variable {env : Env} {tableName : Bytes} {schema : List Field} {s₀ s : TableState}
  {ops : List TableOp}

/-- After any run of short NUL-free statements, written out, `Get` returns the first that listed
the key column with the value and the timestamp, and nothing when there is none. -/
theorem get_eq_first (hcreated : Created env tableName schema [] s₀)
    (hschema : ∀ c ∈ keyColumns schema, c.length < 2 ^ 32)
    (hrun : run (TableOp.step env) ops s₀ = some s) (hok : ∀ op ∈ ops, op.Succeeds)
    (ms : List Bytes) (hms : TableOp.statements ops = ms) (hnul : ∀ m ∈ ms, 0 ∉ m)
    (hlen : ∀ m ∈ ms, m.length < 2 ^ 31 - 1) (htotal : (ms.map fun m => 12 + m.length).sum < 2 ^ 32)
    (hflushed : s.pending = []) {statement column value text : Bytes} {timestamp : UInt64}
    (hcolumn : (splitString env statement (ascii " "))[2]? = some column)
    (hvalue : (splitString env statement (ascii " "))[3]? = some value)
    (htext : (splitString env statement (ascii " "))[4]? = some text)
    (htime : env.lexicalCast text = some timestamp) :
    ∃ result, (Table.get env statement s).1 = .ok result ∧
      (result.isSome = true ↔
        column ∈ keyColumns schema ∧ ∃ m ∈ ms, Lists env column timestamp value m) ∧
      ∀ message, result = some message → ∃ i : ℕ, ms[i]? = some message ∧
        Lists env column timestamp value message ∧
        ∀ j < i, ∀ m, ms[j]? = some m → ¬ Lists env column timestamp value m := by
  subst hms
  have hb := InBounds.of_short hlen htotal
  have hinv := TableInv.of_run hcreated hrun hok hb
  have hquery : query env statement = some (column, timestamp, value) := by
    simp [query, hcolumn, hvalue, htext, htime]
  have hget := hinv.get_flushed hb hlen hflushed statement
  simp only [hquery, answer, hcreated.contains_iff hschema] at hget
  refine ⟨_, hget, ?_, ?_⟩
  · simp only [Option.isSome_map]
    by_cases hk : column ∈ keyColumns schema
    · simp only [hk, if_true, true_and, List.find?_isSome, posts_iff]
    · simp [hk]
  · intro message hmessage
    by_cases hk : column ∈ keyColumns schema
    · simp only [hk, if_true, Option.map_eq_some_iff] at hmessage
      obtain ⟨m, hm, rfl⟩ := hmessage
      obtain ⟨hposts, i, hi, rfl, hbefore⟩ := List.find?_eq_some_iff_getElem.mp hm
      rw [cString_of_nul_free (hnul _ (List.getElem_mem hi))]
      refine ⟨i, List.getElem?_eq_getElem hi, posts_iff.mp hposts, fun j hj m hm => ?_⟩
      obtain ⟨hjlt, rfl⟩ := List.getElem?_eq_some_iff.mp hm
      rw [← posts_iff]
      simpa using hbefore j hj
    · simp [hk] at hmessage

def keySchema : List Field := [⟨ascii "c", ascii "string", true⟩]

theorem put_first_statement :
    (Table.put Env.default .ok (ascii "insert t c,timestamp 1,7")
      (emptyTable Env.default (ascii "t") keySchema)).1 = .ok true := by
  decide +kernel

def twoStatements : List TableOp :=
  [.put .ok (ascii "insert t c,timestamp 1,7"), .put .ok (ascii "insert t c,timestamp 2,8"),
    .sync none]

theorem get_eq_first_second_put :
    let ms := [ascii "insert t c,timestamp 1,7", ascii "insert t c,timestamp 2,8"]
    ∃ s, run (TableOp.step Env.default) twoStatements
        (emptyTable Env.default (ascii "t") keySchema) = some s ∧
      ∃ result, (Table.get Env.default (ascii "get t c 2 8") s).1 = .ok result ∧
        (result.isSome = true ↔ ascii "c" ∈ keyColumns keySchema ∧
          ∃ m ∈ ms, Lists Env.default (ascii "c") 8 (ascii "2") m) ∧
        ∀ message, result = some message → ∃ i : ℕ, ms[i]? = some message ∧
          Lists Env.default (ascii "c") 8 (ascii "2") message ∧
          ∀ j < i, ∀ m, ms[j]? = some m → ¬ Lists Env.default (ascii "c") 8 (ascii "2") m := by
  have hflushed : (run (TableOp.step Env.default) twoStatements
      (emptyTable Env.default (ascii "t") keySchema)).map TableState.pending = some [] := by
    decide +kernel
  obtain ⟨s, hs, hpending⟩ := Option.map_eq_some_iff.mp hflushed
  exact ⟨s, hs, get_eq_first (created_emptyTable _ _ _ rfl) (by simp [keyColumns, keySchema, ascii])
    hs (by simpa [twoStatements, TableOp.Succeeds] using ⟨⟨Complete.ok _, rfl⟩, Complete.ok _, rfl⟩)
    [ascii "insert t c,timestamp 1,7", ascii "insert t c,timestamp 2,8"] rfl (by simp [ascii])
    (by simp [ascii]) (by simp [ascii]) hpending (show _ = some (ascii "c") from rfl)
    (show _ = some (ascii "2") from rfl) (show _ = some (ascii "8") from rfl) (by decide)⟩

end Run

/-! A statement of `2 ^ 31 - 1` bytes: the frame has room for its length, `FindMessage` has not. -/

def longStatement (body : Bytes) : Bytes := ascii "insert t c,timestamp,d 1,7," ++ body

theorem fields_longStatement {body : Bytes} (h : ∀ b ∈ body, b ≠ 32 ∧ b ≠ 44) :
    fields Env.default (longStatement body) =
      some ([ascii "c", ascii "timestamp", ascii "d"], [ascii "1", ascii "7", body],
        ascii "7") := by
  have hspace : splitString Env.default (longStatement body) (ascii " ") =
      [ascii "insert", ascii "t", ascii "c,timestamp,d", ascii "1,7," ++ body] := by
    have hsplit : longStatement body = ascii "insert" ++ 32 :: (ascii "t" ++ 32 ::
        (ascii "c,timestamp,d" ++ 32 :: (ascii "1,7," ++ body))) := rfl
    have hlast : ∀ b ∈ ascii "1,7," ++ body, (ascii " ").contains b = false := by
      intro b hb
      rcases List.mem_append.mp hb with hb | hb
      · have hcases : b = 49 ∨ b = 44 ∨ b = 55 ∨ b = 44 := by simpa [ascii] using hb
        rcases hcases with rfl | rfl | rfl | rfl <;> rfl
      · simp [ascii, (h b hb).1]
    change boostSplit _ _ = _
    unfold boostSplit
    rw [hsplit, List.splitOnP_append_cons_of_forall_mem (by simp [ascii]) _ (by simp [ascii]),
      List.splitOnP_append_cons_of_forall_mem (by simp [ascii]) _ (by simp [ascii]),
      List.splitOnP_append_cons_of_forall_mem (by simp [ascii]) _ (by simp [ascii]),
      List.splitOnP_eq_singleton hlast]
  have hcomma : splitString Env.default (ascii "1,7," ++ body) (ascii ",") =
      [ascii "1", ascii "7", body] := by
    have hlast : ∀ b ∈ body, (ascii ",").contains b = false := by
      intro b hb
      simp [ascii, (h b hb).2]
    have hsplit : ascii "1,7," ++ body = ascii "1" ++ 44 :: (ascii "7" ++ 44 :: body) := rfl
    rw [hsplit]
    change boostSplit _ _ = _
    unfold boostSplit
    rw [List.splitOnP_append_cons_of_forall_mem (by simp [ascii]) _ (by simp [ascii]),
      List.splitOnP_append_cons_of_forall_mem (by simp [ascii]) _ (by simp [ascii]),
      List.splitOnP_eq_singleton hlast]
  have hcolumns : splitString Env.default (ascii "c,timestamp,d") (ascii ",") =
      [ascii "c", ascii "timestamp", ascii "d"] := by rfl
  simp only [fields, hspace, Option.bind_eq_bind]
  simp [hcomma, hcolumns]
  rfl

section LongStatement
variable {body : Bytes}

theorem lists_longStatement (h : ∀ b ∈ body, b ≠ 32 ∧ b ≠ 44) :
    Lists Env.default (ascii "c") 7 (ascii "1") (longStatement body) :=
  ⟨_, _, _, 0, fields_longStatement h, by decide, rfl, rfl⟩

theorem inBounds_longStatement (hlen : (longStatement body).length = 2 ^ 31 - 1) :
    InBounds [longStatement body] := by
  refine ⟨fun m hm => ?_, ?_⟩
  · rw [List.mem_singleton.mp hm, hlen]
    norm_num
  · rw [logBytes_length]
    simp only [List.map_cons, List.map_nil, List.sum_cons, List.sum_nil, hlen]
    norm_num

/-- `Put` takes the statement, and its record can be written out. -/
theorem run_longStatement (h : ∀ b ∈ body, b ≠ 32 ∧ b ≠ 44)
    (hlen : (longStatement body).length = 2 ^ 31 - 1) :
    ∃ t s, Table.put Env.default .ok (longStatement body)
        (emptyTable Env.default (ascii "t") keySchema) = (.ok true, t) ∧
      run (TableOp.step Env.default) [.put .ok (longStatement body), .flush (2 ^ 32)]
        (emptyTable Env.default (ascii "t") keySchema) = some s ∧
      TableInv Env.default (ascii "t")
        (emptyTable Env.default (ascii "t") keySchema).table.segmentIndex.contains
        [longStatement body] s ∧
      s.pending = [] ∧ s.table.offsetMessage = ∅ := by
  have hcreated := created_emptyTable Env.default (ascii "t") keySchema rfl
  obtain ⟨result, t, ht, -, htrue, hinv, hcache⟩ := (TableInv.created hcreated).put
    (Complete.ok (longStatement body)) rfl (by omega) (by norm_num)
  have hindexable : Indexable Env.default
      (emptyTable Env.default (ascii "t") keySchema).table.segmentIndex (longStatement body) := by
    refine ⟨_, _, _, 7, fields_longStatement h, by decide, fun j key hkey _ => ?_⟩
    have hj := (List.getElem?_eq_some_iff.mp hkey).1
    simpa using hj
  rw [htrue.mpr hindexable] at ht
  have hpending : t.pending.length ≤ 2 ^ 32 := by
    have hcontents := congrArg List.length hinv.log.contents
    rw [TableState.logContents, List.length_append] at hcontents
    have htotal := (inBounds_longStatement hlen).total
    rw [List.nil_append] at hcontents
    omega
  refine ⟨t, t.drain (2 ^ 32), ht, ?_, hinv.drain _, List.drop_eq_nil_of_le hpending, hcache⟩
  rw [run, TableOp.step, ht]
  rfl

/-- Neither read survives it. -/
theorem readRecord_longStatement (hlen : (longStatement body).length = 2 ^ 31 - 1) :
    readRecord [longStatement body] (logBytes [longStatement body]).length 0 =
      .error .badAlloc := by
  have hsize : (logBytes [longStatement body]).length = 12 + (2 ^ 31 - 1) := by
    rw [logBytes_length]
    simp only [List.map_cons, List.map_nil, List.sum_cons, List.sum_nil, hlen, Nat.add_zero]
  rw [hsize]
  simp [readRecord, hlen]

theorem get_longStatement (h : ∀ b ∈ body, b ≠ 32 ∧ b ≠ 44)
    (hlen : (longStatement body).length = 2 ^ 31 - 1) :
    ∃ s, run (TableOp.step Env.default) [.put .ok (longStatement body), .flush (2 ^ 32)]
        (emptyTable Env.default (ascii "t") keySchema) = some s ∧ s.pending = [] ∧
      (Table.get Env.default (ascii "get t c 1 7") s).1 = .error .badAlloc := by
  obtain ⟨t, s, -, hs, hinv, hpending, hcache⟩ := run_longStatement h hlen
  refine ⟨s, hs, hpending, ?_⟩
  have hquery : query Env.default (ascii "get t c 1 7") =
      some (ascii "c", 7, ascii "1") := by decide +kernel
  have hkey : (emptyTable Env.default (ascii "t") keySchema).table.segmentIndex.contains
      (ascii "c") = true := by decide +kernel
  have hfirst : s.table.segmentIndex.get (ascii "c") 7 (ascii "1") = some 0 := by
    rw [hinv.index.get, if_pos hkey]
    simp [List.findIdx?_cons, posts_iff.mpr (lists_longStatement h)]
  have hzero : 0 < [longStatement body].length := Nat.zero_lt_one
  obtain ⟨u, hu, -⟩ := hinv.fetch_uncached (inBounds_longStatement hlen) hzero (by simp [hcache])
  rw [get_eq, hquery]
  simp only [hfirst]
  rw [hu, hinv.log.flushed_eq hpending, readRecord_longStatement hlen]
  rfl

end LongStatement

def longBody : Bytes := List.replicate (2 ^ 31 - 28) 97

theorem eq_of_mem_longBody {b : UInt8} (h : b ∈ longBody) : b = 97 := List.eq_of_mem_replicate h

theorem no_separator_longBody : ∀ b ∈ longBody, b ≠ 32 ∧ b ≠ 44 := by
  intro b hb
  rw [eq_of_mem_longBody hb]
  decide

theorem length_longStatement : (longStatement longBody).length = 2 ^ 31 - 1 := by
  rw [longStatement, List.length_append, longBody, List.length_replicate]
  rfl

theorem nul_free_longStatement : 0 ∉ longStatement longBody := by
  rw [longStatement, List.mem_append, not_or]
  refine ⟨by simp [ascii], fun hmem => ?_⟩
  have hzero := eq_of_mem_longBody hmem
  exact absurd hzero (by decide)

/-- `Put` took a statement of `2 ^ 31 - 1` bytes; `Get` throws `bad_array_new_length` on it. -/
theorem get_throws_on_longStatement :
    (longStatement longBody).length = 2 ^ 31 - 1 ∧ 0 ∉ longStatement longBody ∧
      Lists Env.default (ascii "c") 7 (ascii "1") (longStatement longBody) ∧
      ∃ s, run (TableOp.step Env.default) [.put .ok (longStatement longBody), .flush (2 ^ 32)]
          (emptyTable Env.default (ascii "t") keySchema) = some s ∧ s.pending = [] ∧
        (Table.get Env.default (ascii "get t c 1 7") s).1 = .error .badAlloc :=
  ⟨length_longStatement, nul_free_longStatement, lists_longStatement no_separator_longBody,
    get_longStatement no_separator_longBody length_longStatement⟩

end Ibdb.Storage
