import Ibdb.Lib.Run
import Ibdb.Storage.IndexContents

/-! Runs of a table: puts, reads, syncs, and stdio writing bytes out at any moment. -/
namespace Ibdb.Storage
open Base Log
open Std (ExtTreeMap)

inductive TableOp
  | put (io : DiskCalls) (statement : Bytes)
  | get (statement : Bytes)
  | getBatchData (startOffset endOffset : ℕ)
  | sync (result : Option ℕ)
  | flush (k : ℕ)

namespace TableOp

/-- One operation, called by code that survives an exception. -/
def step (env : Env) : TableOp → TableState → Option TableState
  | put io statement, s => afterCall (Table.put env io statement s)
  | get statement, s => afterCall (Table.get env statement s)
  | getBatchData startOffset endOffset, s =>
    afterCall (Table.getBatchData env startOffset endOffset s)
  | sync result, s => afterCall (Table.sync result s)
  | flush k, s => some (s.drain k)

def statement? : TableOp → Option Bytes
  | put _ statement => some statement
  | _ => none

def statements (ops : List TableOp) : List Bytes := ops.filterMap statement?

/-- No call of libc fails. -/
def Succeeds : TableOp → Prop
  | put io statement => Complete io statement ∧ io.sync = none
  | sync result => result = none
  | _ => True

theorem statements_concat (ops : List TableOp) (op : TableOp) :
    statements (ops ++ [op]) = statements ops ++ op.statement?.toList := by
  cases h : op.statement? <;> simp [statements, h]

end TableOp

/-- The table holds the statements `ms`: its log is their records, its index their first postings
in the key columns, its cache a part of them. -/
structure TableInv (env : Env) (tableName : Bytes) (isKey : Bytes → Bool) (ms : List Bytes)
    (s : TableState) : Prop where
  log : LogInv env tableName ms s
  index : IndexInv env isKey ms s.table.segmentIndex
  cache : ∀ (offset : ℕ) text, s.table.offsetMessage[offset]? = some text →
    ∃ m, ms[offset]? = some m ∧ text = cString m

section TableInv
variable {env : Env} {tableName : Bytes} {isKey : Bytes → Bool} {ms : List Bytes}
  {s : TableState}

theorem TableInv.created {schema : List Field} (h : Created env tableName schema [] s) :
    TableInv env tableName s.table.segmentIndex.contains [] s := by
  obtain ⟨fs, seg, -, -, rfl⟩ := created_iff.mp h
  refine ⟨.created h, ⟨fun c => rfl, fun c t v => ?_⟩, by simp [Table.initial]⟩
  rw [List.findIdx?_nil, ite_self]
  exact h.get_eq_none c t v

theorem TableInv.drain (h : TableInv env tableName isKey ms s) (k : ℕ) :
    TableInv env tableName isKey ms (s.drain k) :=
  ⟨h.log.drain k, h.index, h.cache⟩

theorem TableInv.sameButReaders (h : TableInv env tableName isKey ms s) {t : TableState}
    (hlog : LogInv env tableName ms t) (hsame : SameButReaders s t) :
    TableInv env tableName isKey ms t := by
  obtain ⟨readers, rfl⟩ := hsame
  exact ⟨hlog, h.index, h.cache⟩

/-- Once its record is out `Put` comes back, and the index has what the statement posts. -/
theorem put_spec {io : DiskCalls} {m : Bytes} {t : TableState}
    (ht : Table.putDisk env io m s = (.ok true, t)) (hm : m.length < 2 ^ 31) :
    ∃ result seg, Table.put env io m s =
        (result, { t with table := { t.table with segmentIndex := seg } }) ∧
      (∀ fault, result = .error fault → fault = .outOfRange) ∧
      (result = .ok true ↔ Indexable env t.table.segmentIndex m) ∧
      Segment.Adds s.table.currentOffset
        (fun k ts v => t.table.segmentIndex.contains k = true ∧ posts env k ts v m = true)
        t.table.segmentIndex seg := by
  obtain ⟨result, seg, hrun, hne, hadds⟩ := Segment.indexStatement_spec env hm
    s.table.currentOffset t.table.segmentIndex
  refine ⟨result, seg, ?_, ?_, ?_, hadds⟩
  · rw [put_of_putDisk ht, Table.onSegment, Exec.zoom_apply, hrun]
  · intro fault hfault
    rcases indexStatement_result env m _ _ (congrArg Prod.fst hrun) with ⟨rfl, -⟩ | ⟨hr, -⟩ | hr
    · cases hfault
    · rcases hr with rfl | rfl
      · cases hfault
      · exact (Except.error.inj hfault).symm
    · exact absurd hr hne
  · rcases indexStatement_result env m _ _ (congrArg Prod.fst hrun) with ⟨hr, hi⟩ | ⟨hr, hi⟩ | hr
    · exact ⟨fun _ => hi, fun _ => hr⟩
    · rcases hr with rfl | rfl <;> simp [hi]
    · exact absurd hr hne

/-- `Put` adds its statement, whether or not it can be indexed. -/
theorem TableInv.put (h : TableInv env tableName isKey ms s) {io : DiskCalls} {m : Bytes}
    (hio : Complete io m) (hsync : io.sync = none) (hm : m.length < 2 ^ 31)
    (hn : ms.length < 2 ^ 64) :
    ∃ result t, Table.put env io m s = (result, t) ∧
      (∀ fault, result = .error fault → fault = .outOfRange) ∧
      (result = .ok true ↔ Indexable env s.table.segmentIndex m) ∧
      TableInv env tableName isKey (ms ++ [m]) t ∧
      t.table.offsetMessage = s.table.offsetMessage := by
  obtain ⟨t, ht, hlog, hseg, hcache⟩ := h.log.putDisk (by omega) hio fun _ => hsync
  rw [stored_of_lt (by omega)] at hlog
  obtain ⟨result, seg, hput, hfault, htrue, hadds⟩ := put_spec ht hm
  rw [hseg] at htrue hadds
  rw [h.log.currentOffset, Nat.mod_eq_of_lt hn] at hadds
  refine ⟨result, _, hput, hfault, htrue, ⟨{ hlog with }, h.index.concat hadds, ?_⟩, hcache⟩
  intro offset text htext
  obtain ⟨m', hm', rfl⟩ := h.cache offset text (hcache ▸ htext)
  exact ⟨m', by rw [List.getElem?_append_left (List.getElem?_eq_some_iff.mp hm').1, hm'], rfl⟩

/-! Reads. -/

/-- The column, the timestamp and the value of a `get`. -/
def query (env : Env) (statement : Bytes) : Option (Bytes × UInt64 × Bytes) := do
  let result := splitString env statement (ascii " ")
  let key ← result[2]?
  let value ← result[3]?
  let timestamp := (env.lexicalCast (← result[4]?)).getD 0
  return (key, timestamp, value)

theorem get_eq (env : Env) (statement : Bytes) (s : TableState) :
    Table.get env statement s =
      match query env statement with
      | none => (.error .outOfRange, s)
      | some (key, timestamp, value) =>
        match s.table.segmentIndex.get key timestamp value with
        | none => (.ok none, s)
        | some offset => Table.fetch env offset s := by
  rw [Table.get, query]
  cases h2 : (splitString env statement (ascii " "))[2]? with
  | none =>
    rw [Exec.bind_error (vectorAt_of_none h2 s)]
    rfl
  | some key =>
    rw [Exec.bind_ok (vectorAt_of_some h2 s)]
    cases h3 : (splitString env statement (ascii " "))[3]? with
    | none =>
      rw [Exec.bind_error (vectorAt_of_none h3 s)]
      rfl
    | some value =>
      rw [Exec.bind_ok (vectorAt_of_some h3 s)]
      cases h4 : (splitString env statement (ascii " "))[4]? with
      | none =>
        rw [Exec.bind_error (vectorAt_of_none h4 s)]
        rfl
      | some text =>
        rw [Exec.bind_ok (vectorAt_of_some h4 s), Exec.bind_ok (Exec.get_apply s)]
        simp only [Option.bind_eq_bind, Option.bind_some, Option.pure_def]
        cases s.table.segmentIndex.get key ((env.lexicalCast text).getD 0) value <;> rfl

theorem fetch_cached {offset : ℕ} {text : Bytes}
    (h : s.table.offsetMessage[offset]? = some text) :
    Table.fetch env offset s = (.ok (some text), s) := by
  rw [Table.fetch, Exec.bind_ok (Exec.get_apply s)]
  simp only [h]
  rfl

/-- The states differ in the open descriptors and the cache alone. -/
def ReadOnly (s t : TableState) : Prop :=
  ∃ readers cache, t = { s with table :=
    { s.table with logReaderMap := readers, offsetMessage := cache } }

/-- An uncached `Get` reads the record, keeps a copy of what it found, and returns the copy up to
the first NUL. -/
theorem TableInv.fetch_uncached (h : TableInv env tableName isKey ms s) (hb : InBounds ms)
    {offset : ℕ} (ho : offset < ms.length) (hcache : s.table.offsetMessage[offset]? = none) :
    ∃ t, Table.fetch env offset s =
        ((readRecord ms s.flushed.length offset).map (·.map cString), t) ∧
      TableInv env tableName isKey ms t ∧ ReadOnly s t ∧
      ∀ m, readRecord ms s.flushed.length offset = .ok (some m) →
        t.table.offsetMessage[offset]? = some (cString m) := by
  have hfind := h.log.find (List.ne_nil_of_length_pos (by omega))
    (hb.position_lt (min offset ms.length)) hb.message
  have hreader := h.sameButReaders h.log.withReader ⟨_, rfl⟩
  rw [Table.fetch, Exec.bind_ok (Exec.get_apply s)]
  simp only [hcache]
  rcases hfound : Table.findOffsetPosition s.table.offsetPosMap offset with ⟨file, start, pos⟩
  simp only [hfound] at hfind
  rcases hread : readRecord ms s.flushed.length offset with fault | _ | m <;> rw [hread] at hfind
  · exact ⟨_, Exec.bind_error hfind, hreader, ⟨_, _, rfl⟩, by simp⟩
  · exact ⟨_, Exec.bind_ok hfind, hreader, ⟨_, _, rfl⟩, by simp⟩
  · have hm := (readRecord_eq_some hread).1
    refine ⟨_, Exec.bind_ok hfind, ⟨{ hreader.log with }, hreader.index, ?_⟩, ⟨_, _, rfl⟩, ?_⟩
    · intro o text htext
      change (s.table.offsetMessage.insertIfNew offset (cString m))[o]? = some text at htext
      rw [ExtTreeMap.getElem?_insertIfNew] at htext
      split_ifs at htext with hnew
      · obtain rfl := Std.compare_eq_iff_eq.mp hnew.1
        exact ⟨m, hm, (Option.some.inj htext).symm⟩
      · exact h.cache o text htext
    · intro _ heq
      cases heq
      change (s.table.offsetMessage.insertIfNew offset (cString m))[offset]? = _
      have hnew : offset ∉ s.table.offsetMessage := by simpa using hcache
      rw [ExtTreeMap.getElem?_insertIfNew, if_pos ⟨Std.ReflCmp.compare_self, hnew⟩]

theorem IndexInv.get_eq_some {seg : Segment} (h : IndexInv env isKey ms seg) {c v : Bytes}
    {t : UInt64} {offset : ℕ} (hget : seg.get c t v = some offset) :
    isKey c = true ∧ ms.findIdx? (posts env c t v) = some offset := by
  rw [h.get] at hget
  split_ifs at hget with hk
  exact ⟨hk, hget⟩

theorem TableInv.get_keeps (h : TableInv env tableName isKey ms s) (hb : InBounds ms)
    (statement : Bytes) :
    TableInv env tableName isKey ms (Table.get env statement s).2 ∧
      ReadOnly s (Table.get env statement s).2 := by
  rw [get_eq]
  rcases query env statement with _ | ⟨key, timestamp, value⟩
  · exact ⟨h, _, _, rfl⟩
  simp only
  cases hget : s.table.segmentIndex.get key timestamp value with
  | none => exact ⟨h, _, _, rfl⟩
  | some offset =>
    simp only
    cases hcache : s.table.offsetMessage[offset]? with
    | some text =>
      rw [fetch_cached hcache]
      exact ⟨h, _, _, rfl⟩
    | none =>
      obtain ⟨ho, -⟩ := List.findIdx?_eq_some_iff_getElem.mp (h.index.get_eq_some hget).2
      obtain ⟨t, ht, hinv, hsame, -⟩ := h.fetch_uncached hb ho hcache
      rw [ht]
      exact ⟨hinv, hsame⟩

theorem TableInv.getBatchData_keeps (h : TableInv env tableName isKey ms s)
    (startOffset endOffset : ℕ) :
    TableInv env tableName isKey ms (Table.getBatchData env startOffset endOffset s).2 := by
  obtain ⟨hlog, hsame⟩ := h.log.getBatchLoop_keeps (endOffset - startOffset) startOffset []
  exact h.sameButReaders hlog hsame

theorem afterCall_put {result : Except Fault Bool} {t : TableState}
    (h : ∀ fault, result = .error fault → fault = .outOfRange) :
    afterCall (result, t) = some t := by
  cases result with
  | ok b => rfl
  | error fault =>
    obtain rfl := h fault rfl
    rfl

theorem afterCall_of_ok {α σ : Type} {r : Except Fault α × σ} {a : α} (h : r.1 = .ok a) :
    afterCall r = some r.2 := by
  rw [Prod.fst_eq_iff.mp h]
  rfl

theorem afterCall_eq {α σ : Type} {r : Except Fault α × σ} {t : σ}
    (h : afterCall r = some t) : t = r.2 := by
  obtain ⟨_ | _, u⟩ := r
  · rw [afterCall] at h
    split_ifs at h
    exact (Option.some.inj h).symm
  · exact (Option.some.inj h).symm

theorem afterCall_congr {α σ τ : Type} {x : Except Fault α × σ} {y : Except Fault α × τ}
    (h : y.1 = x.1) {u : σ} (hx : afterCall x = some u) : afterCall y = some y.2 := by
  obtain ⟨result, t⟩ := y
  obtain ⟨_, v⟩ := x
  subst h
  cases result with
  | ok a => rfl
  | error fault =>
    by_cases hexc : fault.isException = true
    · simp [afterCall, hexc]
    · simp [afterCall, hexc] at hx

theorem isException_of_afterCall {α σ : Type} {r : Except Fault α × σ} {t : σ}
    (h : afterCall r = some t) (fault : Fault) (hfault : r.1 = .error fault) :
    fault.isException = true := by
  obtain ⟨result, u⟩ := r
  have hid : result = .error fault := hfault
  subst hid
  rw [afterCall] at h
  split_ifs at h with hexc
  exact hexc

theorem step_put {io : DiskCalls} {m : Bytes} {b : Bool} (h : (Table.put env io m s).1 = .ok b) :
    TableOp.step env (.put io m) s = some (Table.put env io m s).2 := by
  rw [TableOp.step, show Table.put env io m s = (.ok b, (Table.put env io m s).2) from
    Prod.ext h rfl]
  rfl

theorem InBounds.of_append {ns : List Bytes} (h : InBounds (ms ++ ns)) : InBounds ms := by
  refine ⟨fun m hm => h.message m (List.mem_append_left ns hm), ?_⟩
  have hle := h.total
  rw [logBytes_length, List.map_append, List.sum_append] at hle
  rw [logBytes_length]
  omega

theorem InBounds.length_lt (h : InBounds ms) : ms.length < 2 ^ 32 := by
  have hle := le_position (le_refl ms.length)
  have hlt := h.position_lt ms.length
  omega

theorem TableInv.step (h : TableInv env tableName isKey ms s) {op : TableOp} {t : TableState}
    (hop : op.Succeeds) (hb : InBounds (ms ++ op.statement?.toList))
    (hstep : TableOp.step env op s = some t) :
    TableInv env tableName isKey (ms ++ op.statement?.toList) t := by
  cases op with
  | put io m =>
    have hm := hb.message m (by simp [TableOp.statement?])
    obtain ⟨result, u, hu, -, -, hinv, -⟩ := h.put hop.1 hop.2 hm
      (hb.of_append.length_lt.trans (by norm_num))
    rw [TableOp.step, hu] at hstep
    rwa [afterCall_eq hstep]
  | get statement =>
    rw [afterCall_eq hstep]
    simpa [TableOp.statement?] using (h.get_keeps hb.of_append statement).1
  | getBatchData startOffset endOffset =>
    rw [afterCall_eq hstep]
    simpa [TableOp.statement?] using h.getBatchData_keeps startOffset endOffset
  | sync result =>
    have heq : result = none := hop
    subst heq
    rw [TableOp.step, h.log.sync] at hstep
    cases hstep
    simpa [TableOp.statement?] using h.drain _
  | flush k =>
    cases hstep
    simpa [TableOp.statement?] using h.drain k

end TableInv

section Run
variable {env : Env} {tableName : Bytes} {schema : List Field} {s₀ s : TableState}
  {ops : List TableOp} {ms : List Bytes}

/-- The statements of a run that came back had lengths that are not negative. -/
theorem length_of_run (hrun : run (TableOp.step env) ops s₀ = some s) :
    ∀ m ∈ TableOp.statements ops, m.length % 2 ^ 32 < 2 ^ 31 := by
  induction ops generalizing s₀ with
  | nil => simp [TableOp.statements]
  | cons op ops ih =>
    obtain ⟨u, hu, hrest⟩ := Option.bind_eq_some_iff.mp hrun
    intro m hm
    cases op with
    | put io statement =>
      rcases List.mem_cons.mp hm with rfl | hm
      · exact (stream_and_length_of_put (isException_of_afterCall hu)).2
      · exact ih hrest m hm
    | get => exact ih hrest m hm
    | getBatchData => exact ih hrest m hm
    | sync => exact ih hrest m hm
    | flush => exact ih hrest m hm

theorem InBounds.of_run (hrun : run (TableOp.step env) ops s₀ = some s)
    (hms : TableOp.statements ops = ms)
    (htotal : (ms.map fun m => 12 + m.length).sum < 2 ^ 32) : InBounds ms := by
  refine ⟨fun m hm => ?_, by rwa [logBytes_length]⟩
  have hle : 12 + m.length ≤ (ms.map fun m => 12 + m.length).sum :=
    List.single_le_sum (by simp) _ (List.mem_map_of_mem hm)
  have hlen := length_of_run hrun m (hms ▸ hm)
  omega

/-- Along a run without I/O failure and within the bounds of the log the table holds the
statements put. -/
theorem TableInv.of_run (hcreated : Created env tableName schema [] s₀)
    (hrun : run (TableOp.step env) ops s₀ = some s) (hok : ∀ op ∈ ops, op.Succeeds)
    (hb : InBounds (TableOp.statements ops)) :
    TableInv env tableName s₀.table.segmentIndex.contains (TableOp.statements ops) s := by
  refine Run.induct_of
    (C := fun ops => (∀ op ∈ ops, op.Succeeds) ∧ InBounds (TableOp.statements ops))
    (P := fun ops s =>
      TableInv env tableName s₀.table.segmentIndex.contains (TableOp.statements ops) s)
    ?_ (.created hcreated) ?_ ⟨hok, hb⟩ hrun
  · rintro es e ⟨hall, hbounds⟩
    rw [TableOp.statements_concat] at hbounds
    exact ⟨fun op hop => hall op (List.mem_append_left _ hop), hbounds.of_append⟩
  · intro es e t u hw ht hstep
    obtain ⟨hall, hbounds⟩ := hw
    rw [TableOp.statements_concat] at hbounds ⊢
    exact ht.step (hall e (by simp)) hbounds hstep

end Run
end Ibdb.Storage
