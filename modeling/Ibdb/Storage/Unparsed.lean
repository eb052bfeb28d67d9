import Ibdb.Storage.Answers
import Ibdb.Storage.Returning

/-! A `Get` whose timestamp does not parse. -/
namespace Ibdb.Storage
open Base Log

/-- The statement lists the column and the value in one place, and its timestamp parses to the
given one. The index keeps what is left of the value once its length has gone through 32 bits. -/
def Indexes (env : Env) (statement column : Bytes) (timestamp : UInt64) (value : Bytes) : Prop :=
  ∃ columns values text whole, ∃ i : ℕ, fields env statement = some (columns, values, text) ∧
    env.lexicalCast text = some timestamp ∧ columns[i]? = some column ∧
    values[i]? = some whole ∧ value = stored whole

namespace Segment
variable {seg : Segment} {k v : Bytes} {t : UInt64}

/-- `Put` makes one entry at most. -/
theorem get_put {key value : Bytes} {timestamp : UInt64} {offset : ℕ}
    (hkey : seg.contains key = true)
    (h : (put key timestamp value offset seg).2.get k t v ≠ none) :
    seg.get k t v ≠ none ∨ (k = key ∧ t = timestamp ∧ v = stored value) := by
  have hmid := @get_insert_touched seg key timestamp hkey k t v
  rw [put_eq hkey] at h
  dsimp only at h
  split_ifs at h
  · exact .inl (hmid ▸ h)
  · rw [get_insert] at h
    split_ifs at h with hk
    · rw [lookup_insert] at h
      split_ifs at h with ht
      · rw [Std.ExtTreeMap.getElem?_insert] at h
        split_ifs at h with hv
        · exact .inr ⟨hk, ht, (Std.LawfulEqCmp.eq_of_compare hv).symm⟩
        · rw [getElem?_getD, lookup_touched hkey] at h
          rw [hk, ht]
          exact .inl h
      · rw [lookup_touched hkey] at h
        rw [hk]
        exact .inl h
    · exact .inl (hmid ▸ h)
  · exact .inl (hmid ▸ h)

/-- The loop of `Put` makes entries for columns and the values in their places. -/
theorem get_putColumns {timestamp : UInt64} {values : List Bytes} {offset i : ℕ}
    {columns : List Bytes}
    (h : (putColumns timestamp values offset i columns seg).2.get k t v ≠ none) :
    seg.get k t v ≠ none ∨ (t = timestamp ∧ ∃ (j : ℕ) (whole : Bytes), columns[j]? = some k ∧
      values[i + j]? = some whole ∧ v = stored whole) := by
  induction columns generalizing i seg with
  | nil => exact .inl h
  | cons key rest ih =>
    rw [putColumns, Exec.bind_ok (Exec.get_apply seg)] at h
    have hlater : ∀ (mid : Segment), (putColumns timestamp values offset (i + 1) rest mid).2.get k t v ≠
        none → mid.get k t v ≠ none ∨ (t = timestamp ∧ ∃ (j : ℕ) (whole : Bytes),
          (key :: rest)[j]? = some k ∧ values[i + j]? = some whole ∧ v = stored whole) := by
      intro mid hmid
      rcases ih hmid with hmid | ⟨rfl, j, whole, hj, hwhole, rfl⟩
      · exact .inl hmid
      · refine .inr ⟨rfl, j + 1, whole, hj, ?_, rfl⟩
        rwa [Nat.add_comm j 1, ← Nat.add_assoc]
    by_cases hkey : seg.contains key = true
    · simp only [hkey, if_true] at h
      cases hvalue : values[i]? with
      | none =>
        rw [Exec.bind_error (vectorAt_of_none hvalue seg)] at h
        exact .inl h
      | some whole =>
        rw [Exec.bind_ok (vectorAt_of_some hvalue seg)] at h
        have hput := @get_put seg k v t key whole timestamp offset hkey
        rcases hrun : put key timestamp whole offset seg with ⟨fault | b, mid⟩ <;>
          rw [hrun] at hput
        · rw [Exec.bind_error hrun] at h
          rcases hput h with hbefore | ⟨rfl, rfl, rfl⟩
          · exact .inl hbefore
          · exact .inr ⟨rfl, 0, whole, rfl, hvalue, rfl⟩
        · rw [Exec.bind_ok hrun] at h
          rcases hlater mid h with hmid | hlisted
          · rcases hput hmid with hbefore | ⟨rfl, rfl, rfl⟩
            · exact .inl hbefore
            · exact .inr ⟨rfl, 0, whole, rfl, hvalue, rfl⟩
          · exact .inr hlisted
    · simp only [hkey, Bool.false_eq_true, if_false] at h
      exact hlater seg h

theorem get_indexStatement {env : Env} {statement : Bytes} {offset : ℕ}
    (h : (indexStatement env (splitString env statement (ascii " ")) offset seg).2.get k t v ≠
      none) : seg.get k t v ≠ none ∨ Indexes env statement k t v := by
  rw [indexStatement_eq] at h
  cases hfields : fields env statement with
  | none =>
    rw [hfields] at h
    exact .inl h
  | some parsed =>
    obtain ⟨columns, values, text⟩ := parsed
    rw [hfields] at h
    simp only at h
    cases htime : env.lexicalCast text with
    | none =>
      rw [htime] at h
      exact .inl h
    | some timestamp =>
      rw [htime] at h
      rcases get_putColumns h with hbefore | ⟨rfl, j, whole, hj, hwhole, rfl⟩
      · exact .inl hbefore
      · rw [Nat.zero_add] at hwhole
        exact .inr ⟨columns, values, text, whole, j, hfields, htime, hj, hwhole, rfl⟩

end Segment

section Step
variable (env : Env) {s u : TableState} {k v : Bytes} {t : UInt64}

theorem putDisk_keeps_segmentIndex (io : DiskCalls) (statement : Bytes) :
    Exec.Keeps (·.table.segmentIndex) (Table.putDisk env io statement) := by
  refine (Exec.Keeps.get _).bind fun s => ?_
  refine Exec.Keeps.bind (.zoom _ fun _ _ => rfl) fun status => ?_
  cases status.isOk with
  | false => exact .pure _ false
  | true =>
    simp only [Bool.not_true, Bool.false_eq_true, if_false]
    split
    all_goals
      refine Exec.Keeps.bind (by first
        | exact .zoom _ fun _ _ => rfl
        | exact .pure _ _) fun synced => ?_
      cases synced.isOk with
      | false => exact .pure _ false
      | true =>
        simp only [Bool.not_true, Bool.false_eq_true, if_false]
        refine Exec.Keeps.bind (.modify fun s => ?_) fun _ => ?_
        · rfl
        refine Exec.Keeps.bind (.modify fun s => ?_) fun _ => ?_
        · rfl
        refine Exec.Keeps.bind (.modify fun s => ?_) fun _ => .pure _ true
        rfl

theorem put_index {io : DiskCalls} {statement : Bytes}
    (h : (Table.put env io statement s).2.table.segmentIndex.get k t v ≠ none) :
    s.table.segmentIndex.get k t v ≠ none ∨ Indexes env statement k t v := by
  have hkept : (Table.putDisk env io statement s).2.table.segmentIndex = s.table.segmentIndex :=
    putDisk_keeps_segmentIndex env io statement s
  rw [Table.put, Exec.bind_ok (Exec.get_apply s)] at h
  rcases hdisk : Table.putDisk env io statement s with ⟨fault | ok, w⟩ <;> rw [hdisk] at hkept
  · rw [Exec.bind_error hdisk] at h
    exact .inl (hkept ▸ h)
  · rw [Exec.bind_ok hdisk] at h
    cases ok with
    | false => exact .inl (hkept ▸ h)
    | true =>
      simp only [Bool.not_true, Bool.false_eq_true, if_false, indexStatement_eq] at h
      rw [← hkept]
      exact Segment.get_indexStatement h

/-- Only a `Put` makes entries in the index, those that its statement lists. -/
theorem TableOp.step_index {op : TableOp} (hstep : TableOp.step env op s = some u)
    (hbefore : s.table.segmentIndex.get k t v = none)
    (hafter : u.table.segmentIndex.get k t v ≠ none) :
    ∃ io statement, op = .put io statement ∧ Indexes env statement k t v := by
  have hread : ∀ {α : Type} {x : TableM α}, Exec.Keeps (·.table.segmentIndex) x →
      afterCall (x s) ≠ some u := by
    intro α x hx hcall
    have hsame : (x s).2.table.segmentIndex = s.table.segmentIndex := hx s
    rw [afterCall_eq hcall, hsame] at hafter
    exact hafter hbefore
  cases op with
  | put io statement =>
    obtain rfl := afterCall_eq hstep
    exact ⟨io, statement, rfl, (put_index env hafter).resolve_left (not_not.mpr hbefore)⟩
  | get statement => exact absurd hstep (hread (get_keeps segmentIndex_blindToReads env statement))
  | getBatchData a b =>
    exact absurd hstep (hread (getBatchData_keeps segmentIndex_blindToReads env a b))
  | sync result =>
    exact absurd hstep (hread (Exec.Keeps.bind (.zoom _ fun _ _ => rfl) fun _ => .pure _ _))
  | flush k =>
    cases hstep
    exact absurd hbefore hafter

end Step

/-- In the run a `Put` indexed the column with the value under the timestamp. -/
def IndexedEarlier (env : Env) (ops : List TableOp) (s₀ : TableState) (column : Bytes)
    (timestamp : UInt64) (value : Bytes) : Prop :=
  ∃ pre io statement post a b, ops = pre ++ .put io statement :: post ∧
    run (TableOp.step env) pre s₀ = some a ∧ TableOp.step env (.put io statement) a = some b ∧
    a.table.segmentIndex.get column timestamp value = none ∧
    b.table.segmentIndex.get column timestamp value ≠ none ∧
    Indexes env statement column timestamp value

/-- After the run a `Get` for the column, the value and the token returns `true` only under the
timestamp that the token is, and `false` when it is none. -/
structure MatchesToken (env : Env) (ops : List TableOp) (s₀ s : TableState)
    (statement column value token : Bytes) : Prop where
  found : ∀ message, (Table.get env statement s).1 = .ok (some message) →
    ∃ timestamp, env.lexicalCast token = some timestamp ∧
      IndexedEarlier env ops s₀ column timestamp value
  unparsed : env.lexicalCast token = none → (Table.get env statement s).1 = .ok none

/-- The record is not in the cache, and the search of the log returns without it. -/
def Unreadable (env : Env) (offset : ℕ) (s : TableState) : Prop :=
  s.table.offsetMessage[offset]? = none ∧ SearchReturns env offset s ∧
    ∀ m, search env offset s ≠ some (.ok (some m))

section Unparsed
variable {env : Env} {tableName : Bytes} {schema : List Field} {content : Bytes}
  {s₀ s : TableState} {ops : List TableOp}

theorem fetch_eq_none_iff {offset : ℕ} :
    (Table.fetch env offset s).1 = .ok none ↔ Unreadable env offset s := by
  constructor
  · intro h
    have hcache : s.table.offsetMessage[offset]? = none := by
      by_contra hcached
      exact (fetch_returns h).mpr (.inl hcached) rfl
    refine ⟨hcache, (fetch_returns_iff hcache).mp ⟨none, h⟩, fun m hm => ?_⟩
    exact (fetch_returns h).mpr (.inr ⟨m, hm⟩) rfl
  · rintro ⟨hcache, hreturns, hnone⟩
    obtain ⟨result, hresult⟩ := (fetch_returns_iff hcache).mpr hreturns
    by_cases hfound : result = none
    · rw [hresult, hfound]
    · rcases (fetch_returns hresult).mp hfound with hcached | ⟨m, hm⟩
      · exact absurd hcache hcached
      · exact absurd hm (hnone m)

theorem indexedEarlier_of_run (hcreated : Created env tableName schema content s₀)
    (hrun : run (TableOp.step env) ops s₀ = some s) {column value : Bytes} {timestamp : UInt64}
    (h : s.table.segmentIndex.get column timestamp value ≠ none) :
    IndexedEarlier env ops s₀ column timestamp value := by
  obtain ⟨pre, op, post, a, b, heq, ha, hb, hbefore, hafter⟩ := Run.exists_step
    (P := fun s : TableState => s.table.segmentIndex.get column timestamp value ≠ none)
    (not_not.mpr (hcreated.get_eq_none column timestamp value)) h hrun
  have hnone := not_not.mp hbefore
  obtain ⟨io, statement, rfl, hindexes⟩ := TableOp.step_index env hb hnone hafter
  exact ⟨pre, io, statement, post, a, b, heq, ha, hb, hnone, hafter, hindexes⟩

/-- A `Get` whose token parses keeps to the puts; one whose token does not has to find nothing. -/
theorem matchesToken_iff_none (hcreated : Created env tableName schema content s₀)
    (hrun : run (TableOp.step env) ops s₀ = some s) {statement column value token : Bytes}
    (hquery : query env statement = some (column, (env.lexicalCast token).getD 0, value)) :
    MatchesToken env ops s₀ s statement column value token ↔
      env.lexicalCast token ≠ none ∨ (Table.get env statement s).1 = .ok none := by
  have hget := get_eq env statement s
  rw [hquery] at hget
  simp only at hget
  cases htime : env.lexicalCast token with
  | some timestamp =>
    rw [htime, Option.getD_some] at hget
    refine iff_of_true ⟨fun message hmessage => ⟨timestamp, htime, ?_⟩, fun h => ?_⟩
      (.inl (Option.some_ne_none _))
    · refine indexedEarlier_of_run hcreated hrun fun hnone => ?_
      rw [hget, hnone] at hmessage
      cases hmessage
    · rw [htime] at h
      cases h
  | none =>
    constructor
    · exact fun h => .inr (h.unparsed htime)
    · intro h
      have hnone := h.resolve_left (not_not.mpr rfl)
      refine ⟨fun message hmessage => ?_, fun _ => hnone⟩
      rw [hnone] at hmessage
      cases hmessage

theorem query_token {statement column value token : Bytes}
    (hcolumn : (splitString env statement (ascii " "))[2]? = some column)
    (hvalue : (splitString env statement (ascii " "))[3]? = some value)
    (htoken : (splitString env statement (ascii " "))[4]? = some token) :
    query env statement = some (column, (env.lexicalCast token).getD 0, value) := by
  simp [query, hcolumn, hvalue, htoken]

/-- A token that does not parse is looked up as the timestamp 0, so it matches nothing exactly when
there is no record under that, or none that can be read. -/
theorem matchesToken_iff (hcreated : Created env tableName schema content s₀)
    (hrun : run (TableOp.step env) ops s₀ = some s) {statement column value token : Bytes}
    (hcolumn : (splitString env statement (ascii " "))[2]? = some column)
    (hvalue : (splitString env statement (ascii " "))[3]? = some value)
    (htoken : (splitString env statement (ascii " "))[4]? = some token) :
    MatchesToken env ops s₀ s statement column value token ↔
      env.lexicalCast token ≠ none ∨
        ∀ offset, s.table.segmentIndex.get column 0 value = some offset →
          Unreadable env offset s := by
  have hquery := query_token hcolumn hvalue htoken
  rw [matchesToken_iff_none hcreated hrun hquery]
  have hget := get_eq env statement s
  rw [hquery] at hget
  simp only at hget
  by_cases htime : env.lexicalCast token = none
  · simp only [htime, ne_eq, not_true_eq_false, false_or, hget, Option.getD_none]
    cases s.table.segmentIndex.get column 0 value with
    | none => exact iff_of_true rfl (by simp)
    | some offset => simp [fetch_eq_none_iff]
  · exact iff_of_true (.inl htime) (.inl htime)

/-- Of a log that is written out: exactly when the token parses, or no statement put lists the
column with the value at the timestamp 0. -/
theorem matchesToken_iff_unlisted (hcreated : Created env tableName schema [] s₀)
    (hschema : ∀ c ∈ keyColumns schema, c.length < 2 ^ 32)
    (hrun : run (TableOp.step env) ops s₀ = some s) (hok : ∀ op ∈ ops, op.Succeeds)
    (ms : List Bytes) (hms : TableOp.statements ops = ms) (hlen : ∀ m ∈ ms, m.length < 2 ^ 31 - 1)
    (htotal : (ms.map fun m => 12 + m.length).sum < 2 ^ 32) (hflushed : s.pending = [])
    {statement column value token : Bytes}
    (hcolumn : (splitString env statement (ascii " "))[2]? = some column)
    (hvalue : (splitString env statement (ascii " "))[3]? = some value)
    (htoken : (splitString env statement (ascii " "))[4]? = some token) :
    MatchesToken env ops s₀ s statement column value token ↔
      env.lexicalCast token ≠ none ∨
        (column ∈ keyColumns schema → ∀ m ∈ ms, ¬ Lists env column 0 value m) := by
  subst hms
  have hb := InBounds.of_short hlen htotal
  have hquery := query_token hcolumn hvalue htoken
  have hget := (TableInv.of_run hcreated hrun hok hb).get_flushed hb hlen hflushed statement
  rw [hquery] at hget
  simp only at hget
  rw [matchesToken_iff_none hcreated hrun hquery, hget]
  by_cases htime : env.lexicalCast token = none
  · simp only [htime, ne_eq, not_true_eq_false, false_or, Option.getD_none, Except.ok.injEq,
      Option.map_eq_none_iff, answer_eq_none_iff, hcreated.contains_iff hschema]
  · exact iff_of_true (.inl htime) (.inl htime)

theorem matchesToken_iff_two_puts :
    ∃ s, run (TableOp.step Env.default) twoStatements
        (emptyTable Env.default (ascii "t") keySchema) = some s ∧
      MatchesToken Env.default twoStatements (emptyTable Env.default (ascii "t") keySchema) s
        (ascii "get t c 2 x") (ascii "c") (ascii "2") (ascii "x") := by
  have hnone : (run (TableOp.step Env.default) twoStatements
      (emptyTable Env.default (ascii "t") keySchema)).map
        (fun s => s.table.segmentIndex.get (ascii "c") 0 (ascii "2")) = some none := by
    decide +kernel
  obtain ⟨s, hs, hmissing⟩ := Option.map_eq_some_iff.mp hnone
  refine ⟨s, hs, (matchesToken_iff (created_emptyTable _ _ _ rfl) hs rfl rfl rfl).mpr
    (.inr fun offset hoffset => ?_)⟩
  rw [hmissing] at hoffset
  cases hoffset

/-- After a record with the timestamp 0, the token `x` matches it. -/
theorem unparsed_token_matches :
    ∃ s, run (TableOp.step Env.default) [.put .ok (ascii "insert t c,timestamp 1,0")]
        (emptyTable Env.default (ascii "t") keySchema) = some s ∧
      Env.default.lexicalCast (ascii "x") = none ∧
      (Table.get Env.default (ascii "get t c 1 x") s).1 =
        .ok (some (ascii "insert t c,timestamp 1,0")) ∧
      ¬ MatchesToken Env.default [.put .ok (ascii "insert t c,timestamp 1,0")]
        (emptyTable Env.default (ascii "t") keySchema) s (ascii "get t c 1 x") (ascii "c")
        (ascii "1") (ascii "x") := by
  have hput : (Table.put Env.default .ok (ascii "insert t c,timestamp 1,0")
      (emptyTable Env.default (ascii "t") keySchema)).1 = .ok true := by decide +kernel
  have htoken : Env.default.lexicalCast (ascii "x") = none := by decide
  have hget : (Table.get Env.default (ascii "get t c 1 x")
      (Table.put Env.default .ok (ascii "insert t c,timestamp 1,0")
        (emptyTable Env.default (ascii "t") keySchema)).2).1 =
      .ok (some (ascii "insert t c,timestamp 1,0")) := by decide +kernel
  refine ⟨_, ?_, htoken, hget, fun h => ?_⟩
  · rw [run, step_put hput]
    rfl
  · have hnone := hget.symm.trans (h.unparsed htoken)
    cases hnone

end Unparsed
end Ibdb.Storage
