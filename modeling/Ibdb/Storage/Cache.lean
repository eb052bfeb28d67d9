import Ibdb.Storage.CacheInv

/-! Runs in which the cache is erased. -/
namespace Ibdb.Storage
open Base Log
open Std (ExtTreeMap)

def TableState.recache (cache : ExtTreeMap ℕ Bytes compare) (s : TableState) : TableState :=
  { s with table := { s.table with offsetMessage := cache } }

/-- An operation of the table, or a loss of the part of the cache that is not kept. -/
inductive CacheOp
  | table (op : TableOp)
  | erase (keep : ℕ → Bool)

namespace CacheOp

def step (env : Env) : CacheOp → TableState → Option TableState
  | table op, s => op.step env s
  | erase keep, s => some (s.recache (s.table.offsetMessage.filter fun offset _ => keep offset))

def op? : CacheOp → Option TableOp
  | table op => some op
  | erase _ => none

def ops (events : List CacheOp) : List TableOp := events.filterMap op?

end CacheOp

section Commutes
variable (env : Env) (cache : ExtTreeMap ℕ Bytes compare)

theorem onSegment_commutes {α : Type} (x : Exec Fault Segment α) :
    Exec.Commutes (TableState.recache cache) (Table.onSegment x) :=
  Exec.Commutes.zoom x (fun _ => rfl) fun _ _ => rfl

theorem syncWriter_commutes (result : Option ℕ) :
    Exec.Commutes (TableState.recache cache) (Table.syncWriter result) :=
  Exec.Commutes.zoom _ (fun _ => rfl) fun _ _ => rfl

theorem modifyTable_commutes {f : Table → Table}
    (h : ∀ t : Table, f { t with offsetMessage := cache } = { f t with offsetMessage := cache }) :
    Exec.Commutes (TableState.recache cache) (Table.modifyTable f) :=
  Exec.Commutes.modify fun s => congrArg (TableState.mk s.fs) (h s.table)

theorem putDisk_commutes (io : DiskCalls) (statement : Bytes) :
    Exec.Commutes (TableState.recache cache) (Table.putDisk env io statement) := by
  refine Exec.Commutes.get_bind (fun _ => rfl) fun s => ?_
  refine Exec.Commutes.bind (Exec.Commutes.zoom _ (fun _ => rfl) fun _ _ => rfl) fun status => ?_
  cases status.isOk with
  | false => exact .pure _ false
  | true =>
    simp only [Bool.not_true, Bool.false_eq_true, if_false]
    split
    all_goals
      refine Exec.Commutes.bind (by first | exact syncWriter_commutes cache _ | exact .pure _ _)
        fun synced => ?_
      cases synced.isOk with
      | false => exact .pure _ false
      | true =>
        refine (modifyTable_commutes cache fun _ => rfl).bind fun _ => ?_
        refine (modifyTable_commutes cache fun _ => rfl).bind fun _ => ?_
        exact (modifyTable_commutes cache fun _ => rfl).bind fun _ => .pure _ true

theorem put_commutes (io : DiskCalls) (statement : Bytes) :
    Exec.Commutes (TableState.recache cache) (Table.put env io statement) := by
  refine Exec.Commutes.get_bind (fun _ => rfl) fun s => ?_
  refine Exec.Commutes.bind (putDisk_commutes env cache io statement) fun ok => ?_
  cases ok with
  | false => exact .pure _ _
  | true =>
    change Exec.Commutes _ (Table.indexStatement env _ _)
    rw [indexStatement_eq]
    exact onSegment_commutes cache _

theorem findMessage_commutes (offset startOffset pos : ℕ) (file : Bytes) :
    Exec.Commutes (TableState.recache cache)
      (Table.findMessage env offset startOffset pos file) := by
  refine Exec.Commutes.get_bind (fun _ => rfl) fun s => ?_
  have hreader : ∀ logFile,
      Exec.Commutes (TableState.recache cache) (Table.reader env logFile) := by
    intro logFile
    refine Exec.Commutes.get_bind (fun _ => rfl) fun s => ?_
    cases s.table.logReaderMap[logFile]? with
    | some rf => exact .pure _ rf
    | none =>
      refine (Exec.Commutes.lift _ _).bind fun rf => ?_
      exact (modifyTable_commutes cache fun _ => rfl).bind fun _ => .pure _ rf
  refine (hreader _).bind fun rf => (Exec.Commutes.lift _ _).bind fun found => ?_
  cases found with
  | none => exact .pure _ none
  | some message => exact (Exec.Commutes.lift _ _).bind fun slice => .pure _ (some slice)

theorem getBatchData_commutes (startOffset endOffset : ℕ) :
    Exec.Commutes (TableState.recache cache) (Table.getBatchData env startOffset endOffset) := by
  unfold Table.getBatchData
  generalize endOffset - startOffset = count
  generalize ([] : List Bytes) = data
  induction count generalizing startOffset data with
  | zero => exact .pure _ (true, data)
  | succ count ih =>
    refine Exec.Commutes.get_bind (fun _ => rfl) fun s => ?_
    refine (findMessage_commutes env cache _ _ _ _).bind fun found => ?_
    cases found with
    | none => exact .pure _ (false, data)
    | some message => exact ih (startOffset + 1) _

theorem sync_commutes (result : Option ℕ) :
    Exec.Commutes (TableState.recache cache) (Table.sync result) :=
  (syncWriter_commutes cache result).bind fun status => .pure _ status.isOk

theorem afterCall_commutes {α : Type} {x : TableM α}
    (h : Exec.Commutes (TableState.recache cache) x) {s t : TableState}
    (hx : afterCall (x s) = some t) :
    afterCall (x (s.recache cache)) = some (t.recache cache) := by
  rw [h, afterCall_eq hx]
  have hsame : ((x s).1, (x s).2.recache cache).1 = (x s).1 := rfl
  exact afterCall_congr hsame hx

end Commutes

section Erased
variable {env : Env} {tableName : Bytes} {isKey : Bytes → Bool} {ms : List Bytes}
  {s t : TableState}

/-- The states differ in the cache alone, and both caches are true to the log. -/
structure SameButCache (env : Env) (tableName : Bytes) (isKey : Bytes → Bool) (ms : List Bytes)
    (s t : TableState) : Prop where
  same : ∃ cache, t = s.recache cache
  inv : TableInv env tableName isKey ms s
  inv' : TableInv env tableName isKey ms t
  cache : CacheInv env tableName ms s
  cache' : CacheInv env tableName ms t

theorem SameButCache.get (h : SameButCache env tableName isKey ms s t) (hb : InBounds ms)
    (statement : Bytes) : (Table.get env statement t).1 = (Table.get env statement s).1 := by
  rw [h.inv.get_result h.cache hb, h.inv'.get_result h.cache' hb]
  obtain ⟨cache, rfl⟩ := h.same
  rfl

theorem SameButCache.erase (h : SameButCache env tableName isKey ms s t) (keep : ℕ → Bool) :
    SameButCache env tableName isKey ms s
      (t.recache (t.table.offsetMessage.filter fun offset _ => keep offset)) := by
  have hsub : ∀ (offset : ℕ) text,
      (t.table.offsetMessage.filter fun offset _ => keep offset)[offset]? = some text →
        t.table.offsetMessage[offset]? = some text := by
    intro offset text htext
    rw [ExtTreeMap.getElem?_filter'] at htext
    exact (Option.filter_eq_some_iff.mp htext).1
  obtain ⟨cache, hsame⟩ := h.same
  refine ⟨⟨_, by rw [hsame]; rfl⟩, h.inv, ?_, h.cache, ?_⟩
  · exact ⟨{ h.inv'.log with }, h.inv'.index, fun offset text htext =>
      h.inv'.cache offset text (hsub offset text htext)⟩
  · refine ⟨fun offset text htext => h.cache'.read offset text (hsub offset text htext), ?_⟩
    intro offset text htext
    exact congrArg (TableState.recache _) (h.cache'.opened offset text (hsub offset text htext))

/-- A fetch opens the log and touches the cache at most. -/
theorem TableInv.fetch_state (h : TableInv env tableName isKey ms s)
    (hcache : CacheInv env tableName ms s) (hb : InBounds ms) {offset : ℕ}
    (ho : offset < ms.length) :
    ∃ cache, (Table.fetch env offset s).2 = (s.withReader env tableName).recache cache := by
  cases hentry : s.table.offsetMessage[offset]? with
  | some text =>
    rw [fetch_cached hentry, hcache.opened offset text hentry]
    exact ⟨s.table.offsetMessage, rfl⟩
  | none =>
    have hfind := h.log.find (List.ne_nil_of_length_pos (by omega))
      (hb.position_lt (min offset ms.length)) hb.message
    rw [fetch_of_find hentry hfind]
    rcases readRecord ms s.flushed.length offset with fault | _ | m
    · exact ⟨s.table.offsetMessage, rfl⟩
    · exact ⟨s.table.offsetMessage, rfl⟩
    · exact ⟨_, rfl⟩

theorem SameButCache.get_same (h : SameButCache env tableName isKey ms s t) (hb : InBounds ms)
    (statement : Bytes) :
    ∃ cache, (Table.get env statement t).2 = (Table.get env statement s).2.recache cache := by
  obtain ⟨cache, hsame⟩ := h.same
  have hsegment : t.table.segmentIndex = s.table.segmentIndex := by rw [hsame]; rfl
  rw [get_eq, get_eq, hsegment]
  rcases query env statement with _ | ⟨column, timestamp, value⟩
  · exact ⟨cache, hsame⟩
  simp only
  cases hget : s.table.segmentIndex.get column timestamp value with
  | none => exact ⟨cache, hsame⟩
  | some offset =>
    obtain ⟨ho, -⟩ := List.findIdx?_eq_some_iff_getElem.mp (h.inv.index.get_eq_some hget).2
    obtain ⟨_, hs⟩ := h.inv.fetch_state h.cache hb ho
    obtain ⟨cache', ht⟩ := h.inv'.fetch_state h.cache' hb ho
    refine ⟨cache', ?_⟩
    dsimp only
    rw [ht, hs, hsame]
    rfl

theorem SameButCache.step (h : SameButCache env tableName isKey ms s t) {op : TableOp}
    {u : TableState} (hop : op.Succeeds) (hb : InBounds (ms ++ op.statement?.toList))
    (hstep : TableOp.step env op s = some u) :
    ∃ v, TableOp.step env op t = some v ∧
      SameButCache env tableName isKey (ms ++ op.statement?.toList) u v := by
  have hboth : ∀ v, TableOp.step env op t = some v → (∃ cache, v = u.recache cache) →
      SameButCache env tableName isKey (ms ++ op.statement?.toList) u v := fun v hv hsame =>
    ⟨hsame, h.inv.step hop hb hstep, h.inv'.step hop hb hv, h.cache.step h.inv hop hb.of_append hstep,
      h.cache'.step h.inv' hop hb.of_append hv⟩
  obtain ⟨cache, hsame⟩ := h.same
  cases op with
  | put io m =>
    have hv := afterCall_commutes cache (put_commutes env cache io m) hstep
    rw [← hsame] at hv
    exact ⟨_, hv, hboth _ hv ⟨cache, rfl⟩⟩
  | get statement =>
    have hv := afterCall_congr (h.get hb.of_append statement) hstep
    refine ⟨_, hv, hboth _ hv ?_⟩
    rw [afterCall_eq hstep]
    exact h.get_same hb.of_append statement
  | getBatchData startOffset endOffset =>
    have hv := afterCall_commutes cache (getBatchData_commutes env cache startOffset endOffset) hstep
    rw [← hsame] at hv
    exact ⟨_, hv, hboth _ hv ⟨cache, rfl⟩⟩
  | sync result =>
    have hv := afterCall_commutes cache (sync_commutes cache result) hstep
    rw [← hsame] at hv
    exact ⟨_, hv, hboth _ hv ⟨cache, rfl⟩⟩
  | flush k =>
    cases hstep
    have hv : TableOp.step env (.flush k) t = some ((s.drain k).recache cache) := by
      rw [hsame]
      rfl
    exact ⟨_, hv, hboth _ hv ⟨cache, rfl⟩⟩

end Erased

section Run
variable {env : Env} {tableName : Bytes} {schema : List Field} {s₀ s : TableState}
  {ops : List TableOp}

theorem TableInv.flushed_le {isKey : Bytes → Bool} {ms : List Bytes} {t : TableState}
    (h : TableInv env tableName isKey ms s) (hb : InBounds ms) {op : TableOp} (hop : op.Succeeds)
    (hstep : TableOp.step env op s = some t) : s.flushed.length ≤ t.flushed.length := by
  cases op with
  | put io m =>
    obtain ⟨hf, hs⟩ := stream_and_length_of_put (isException_of_afterCall hstep)
    obtain ⟨⟨data, hflushed⟩, -⟩ := put_grows hf hs fun _ => hop.2
    rw [afterCall_eq hstep, hflushed, List.length_append]
    exact Nat.le_add_right _ _
  | get statement =>
    obtain ⟨-, readers, cache, hsame⟩ := h.get_keeps hb statement
    rw [afterCall_eq hstep]
    exact (congrArg (·.flushed.length) hsame).ge
  | getBatchData startOffset endOffset =>
    obtain ⟨-, readers, hsame⟩ :=
      h.log.getBatchLoop_keeps (endOffset - startOffset) startOffset []
    rw [afterCall_eq hstep]
    exact (congrArg (·.flushed.length) hsame).ge
  | sync result =>
    have heq : result = none := hop
    subst heq
    rw [TableOp.step, h.log.sync] at hstep
    cases hstep
    simp
  | flush k =>
    cases hstep
    simp

/-- A later state of a run: the log has grown, and what is in the cache can be read. -/
structure Later (env : Env) (tableName : Bytes) (isKey : Bytes → Bool) (ms : List Bytes)
    (r s : TableState) : Prop where
  inv : TableInv env tableName isKey ms s
  cache : CacheInv env tableName ms s
  flushed : r.flushed.length ≤ s.flushed.length

theorem Later.of_run {isKey : Bytes → Bool} {ms : List Bytes} {r : TableState}
    (h : TableInv env tableName isKey ms r) (hcache : CacheInv env tableName ms r)
    (hrun : run (TableOp.step env) ops r = some s) (hok : ∀ op ∈ ops, op.Succeeds)
    (hb : InBounds (ms ++ TableOp.statements ops)) :
    Later env tableName isKey (ms ++ TableOp.statements ops) r s := by
  refine Run.induct_of
    (C := fun ops => (∀ op ∈ ops, op.Succeeds) ∧ InBounds (ms ++ TableOp.statements ops))
    (P := fun ops s => Later env tableName isKey (ms ++ TableOp.statements ops) r s)
    ?_ ?_ ?_ ⟨hok, hb⟩ hrun
  · rintro es e ⟨hall, hbounds⟩
    rw [TableOp.statements_concat, ← List.append_assoc] at hbounds
    exact ⟨fun op hop => hall op (List.mem_append_left _ hop), hbounds.of_append⟩
  · simpa [TableOp.statements] using Later.mk h hcache le_rfl
  · intro es e t u hw ht hstep
    obtain ⟨hall, hbounds⟩ := hw
    have hop := hall e (by simp)
    rw [TableOp.statements_concat, ← List.append_assoc] at hbounds ⊢
    exact ⟨ht.inv.step hop hbounds hstep, ht.cache.step ht.inv hop hbounds.of_append hstep,
      ht.flushed.trans (ht.inv.flushed_le hbounds.of_append hop hstep)⟩

theorem CacheInv.created (h : Created env tableName schema [] s₀) :
    CacheInv env tableName [] s₀ := by
  obtain ⟨fs, seg, -, -, rfl⟩ := created_iff.mp h
  exact .of_empty rfl

/-- An answer stands: what has been read for a triple is read ever after. -/
theorem Later.get_same {isKey : Bytes → Bool} {ms ns : List Bytes} {r : TableState}
    (h : TableInv env tableName isKey ms r) (hcache : CacheInv env tableName ms r)
    (hlater : Later env tableName isKey (ms ++ ns) r s) (hb : InBounds (ms ++ ns))
    {statement statement' message : Bytes} (hquery : query env statement' = query env statement)
    (hget : (Table.get env statement r).1 = .ok (some message)) :
    (Table.get env statement' s).1 = .ok (some message) := by
  rw [h.get_result hcache hb.of_append] at hget
  rw [hlater.inv.get_result hlater.cache hb, hquery]
  generalize query env statement = triple at hget ⊢
  rcases triple with _ | ⟨column, timestamp, value⟩
  · cases hget
  simp only at hget ⊢
  rw [h.index.get] at hget
  rw [hlater.inv.index.get]
  split_ifs at hget ⊢ with hkey
  · cases hfirst : ms.findIdx? (posts env column timestamp value) with
    | none => simp [hfirst] at hget
    | some offset =>
      simp only [hfirst] at hget
      rw [List.findIdx?_append, hfirst]
      rcases hread : readRecord ms r.flushed.length offset with fault | _ | m <;>
        rw [hread] at hget
      · cases hget
      · cases hget
      · simp only [Option.some_or, readRecord_mono hread hlater.flushed]
        exact hget
  · cases hget

/-- A run in which parts of the cache are lost at any point comes to the same state but for the
cache. -/
theorem SameButCache.of_run (hcreated : Created env tableName schema [] s₀)
    {events : List CacheOp} (hrun : run (TableOp.step env) (CacheOp.ops events) s₀ = some s)
    (hok : ∀ op ∈ CacheOp.ops events, op.Succeeds)
    (hb : InBounds (TableOp.statements (CacheOp.ops events))) :
    ∃ t, run (CacheOp.step env) events s₀ = some t ∧
      SameButCache env tableName s₀.table.segmentIndex.contains
        (TableOp.statements (CacheOp.ops events)) s t := by
  induction events using List.reverseRecOn generalizing s with
  | nil =>
    cases hrun
    exact ⟨s₀, rfl, ⟨s₀.table.offsetMessage, rfl⟩, .created hcreated, .created hcreated,
      .created hcreated, .created hcreated⟩
  | append_singleton events event ih =>
    cases event with
    | erase keep =>
      have hops : CacheOp.ops (events ++ [.erase keep]) = CacheOp.ops events := by
        simp [CacheOp.ops, CacheOp.op?]
      rw [hops] at hrun hok hb ⊢
      obtain ⟨t, ht, hsame⟩ := ih hrun hok hb
      exact ⟨_, Run.run_concat.mpr ⟨t, ht, rfl⟩, hsame.erase keep⟩
    | table op =>
      have hops : CacheOp.ops (events ++ [.table op]) = CacheOp.ops events ++ [op] := by
        simp [CacheOp.ops, CacheOp.op?]
      rw [hops] at hrun hok hb ⊢
      rw [TableOp.statements_concat] at hb ⊢
      obtain ⟨r, hr, hstep⟩ := Run.run_concat.mp hrun
      obtain ⟨t, ht, hsame⟩ := ih hr (fun o ho => hok o (List.mem_append_left _ ho)) hb.of_append
      obtain ⟨u, hu, hnext⟩ := hsame.step (hok op (by simp)) hb hstep
      exact ⟨u, Run.run_concat.mpr ⟨t, ht, hu⟩, hnext⟩

/-- After any run without I/O failure and with a log below `2 ^ 32` bytes: every entry of the cache
is what the log gives; the run with parts of the cache erased at any points has the same answers;
and what a `Get` returned at any point of the run it still returns. -/
theorem cache_transparent (hcreated : Created env tableName schema [] s₀)
    (hrun : run (TableOp.step env) ops s₀ = some s) (hok : ∀ op ∈ ops, op.Succeeds)
    (htotal : (logBytes (TableOp.statements ops)).length < 2 ^ 32) :
    (∀ (offset : ℕ) text, s.table.offsetMessage[offset]? = some text →
        readUncached env offset s = .ok (some text)) ∧
      (∀ events, CacheOp.ops events = ops →
        ∃ t, run (CacheOp.step env) events s₀ = some t ∧
          ∀ statement, (Table.get env statement t).1 = (Table.get env statement s).1) ∧
      ∀ pre post r, ops = pre ++ post → run (TableOp.step env) pre s₀ = some r →
        ∀ statement statement' message, query env statement' = query env statement →
          (Table.get env statement r).1 = .ok (some message) →
          (Table.get env statement' s).1 = .ok (some message) := by
  have hb := InBounds.of_run hrun rfl (by rwa [logBytes_length] at htotal)
  refine ⟨?_, ?_, ?_⟩
  · intro offset text htext
    have hlater := Later.of_run (.created hcreated) (.created hcreated) hrun hok
      (by rwa [List.nil_append])
    rw [List.nil_append] at hlater
    exact hlater.cache.readUncached hlater.inv.log hb htext
  · intro events hevents
    subst hevents
    obtain ⟨t, ht, hsame⟩ := SameButCache.of_run hcreated hrun hok hb
    exact ⟨t, ht, fun statement => hsame.get hb statement⟩
  · intro pre post r hops hr statement statement' message hquery hget
    subst hops
    have hstatements : TableOp.statements (pre ++ post) =
        TableOp.statements pre ++ TableOp.statements post := List.filterMap_append
    rw [hstatements] at hb
    rw [Run.run_append, hr, Option.bind_some] at hrun
    have hbefore := Later.of_run (.created hcreated) (.created hcreated) hr
      (fun op hop => hok op (List.mem_append_left _ hop)) (by
        rw [List.nil_append]
        exact hb.of_append)
    rw [List.nil_append] at hbefore
    have hafter := Later.of_run hbefore.inv hbefore.cache hrun
      (fun op hop => hok op (List.mem_append_right _ hop)) hb
    exact hafter.get_same hbefore.inv hbefore.cache hb hquery hget

theorem get_first_statement :
    (Table.get Env.default (ascii "get t c 1 7")
      (Table.put Env.default .ok (ascii "insert t c,timestamp 1,7")
        (emptyTable Env.default (ascii "t") keySchema)).2).1 =
      .ok (some (ascii "insert t c,timestamp 1,7")) := by
  decide +kernel

theorem cache_transparent_get :
    let ops := [.put .ok (ascii "insert t c,timestamp 1,7"), .get (ascii "get t c 1 7")]
    let s₀ := emptyTable Env.default (ascii "t") keySchema
    let s := (Table.get Env.default (ascii "get t c 1 7")
      (Table.put Env.default .ok (ascii "insert t c,timestamp 1,7") s₀).2).2
    (∀ (offset : ℕ) text, s.table.offsetMessage[offset]? = some text →
        readUncached Env.default offset s = .ok (some text)) ∧
      (∀ events, CacheOp.ops events = ops →
        ∃ t, run (CacheOp.step Env.default) events s₀ = some t ∧ ∀ statement,
          (Table.get Env.default statement t).1 = (Table.get Env.default statement s).1) ∧
      ∀ pre post r, ops = pre ++ post → run (TableOp.step Env.default) pre s₀ = some r →
        ∀ statement statement' message,
          query Env.default statement' = query Env.default statement →
          (Table.get Env.default statement r).1 = .ok (some message) →
          (Table.get Env.default statement' s).1 = .ok (some message) :=
  cache_transparent (created_emptyTable _ _ _ rfl)
    (show run (TableOp.step Env.default) [.put .ok (ascii "insert t c,timestamp 1,7"),
        .get (ascii "get t c 1 7")] _ = some _ by
      rw [run, step_put put_first_statement, Option.bind_some, run, TableOp.step,
        afterCall_of_ok get_first_statement]
      rfl)
    (by simpa [TableOp.Succeeds] using ⟨Complete.ok _, rfl⟩) (by decide +kernel)

end Run
end Ibdb.Storage
