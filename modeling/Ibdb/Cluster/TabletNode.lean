import Ibdb.Cluster.TabletRun
import Ibdb.Storage.Outcomes

/-! The handlers of a tablet node, and what their responses say of the operation. -/
namespace Ibdb.Cluster
open Base Log Storage

namespace TabletNode

def create (env : Env) (statement : Bytes) : TabletM Unit := do
  if !(← Tablet.create env statement) then do
    setMsg (ascii "failed to create data[" ++ statement ++ ascii "]")
    setCode .failed
  else do
    setMsg (ascii "create table ok")
    setCode .ok

/-- After a failure the message is not set. -/
def put (env : Env) (io : DiskCalls) (statement : Bytes) : TabletM Unit := do
  if !(← Tablet.put env io statement) then setCode .failed
  else do
    setMsg (ascii "put data ok")
    setCode .ok

def get (env : Env) (statement : Bytes) : TabletM Unit := do
  if !(← Tablet.get env statement) then setCode .failed else return

end TabletNode

inductive Request
  | create (statement : Bytes)
  | put (io : DiskCalls) (statement : Bytes)
  | get (statement : Bytes)

namespace Request

def serve (env : Env) : Request → TabletM Unit
  | create statement => TabletNode.create env statement
  | put io statement => TabletNode.put env io statement
  | get statement => TabletNode.get env statement

end Request

def Call.unset (c : Call) : Call := { c with response := .unset }

section TabletNode
variable {env : Env} {c : Call}

theorem create_response (hsame : SameTables c) {statement : Bytes}
    (hback : ((Request.create statement).serve env c).1 = .ok ()) :
    ∃ name, (splitString env statement (ascii " "))[1]? = some name ∧
      ((name ∈ c.tablet.tableMap ∧ ((Request.create statement).serve env c).2.response =
          ⟨some .failed, some (ascii "failed to create data[" ++ statement ++ ascii "]")⟩) ∨
        (name ∉ c.tablet.tableMap ∧ name ∈ (Tablet.create env statement c).2.tablet.tableMap ∧
          ((Request.create statement).serve env c).2.response =
            ⟨some .ok, some (ascii "create table ok")⟩)) := by
  obtain ⟨result, d, hcall, -, -, hcases⟩ := create_cases env statement hsame
  rw [Request.serve, TabletNode.create] at hback ⊢
  rcases hcases with ⟨fault, rfl⟩ | ⟨name, hname, ⟨hmem, rfl⟩ | ⟨hmem, rfl, hadded⟩⟩
  · rw [Exec.bind_error hcall] at hback
    cases hback
  · rw [Exec.bind_ok hcall]
    exact ⟨name, hname, .inl ⟨hmem, rfl⟩⟩
  · rw [Exec.bind_ok hcall, hcall]
    exact ⟨name, hname, .inr ⟨hmem, hadded, rfl⟩⟩

/-- The node answers `OK` to every `Put` of a table that is there, and leaves the message out of
the answer when it is not. -/
theorem put_response (hsame : SameTables c) {io : DiskCalls} {statement : Bytes}
    (hback : ((Request.put io statement).serve env c).1 = .ok ()) :
    (tableOf env statement c = none ∧ ((Request.put io statement).serve env c).2.response =
        ⟨some .failed, c.response.msg⟩) ∨
      ∃ name table b, tableOf env statement c = some (name, table) ∧
        (Table.put env io statement ⟨c.fs, table⟩).1 = .ok b ∧
        ((Request.put io statement).serve env c).2.response =
          ⟨some .ok, some (ascii "put data ok")⟩ := by
  obtain ⟨result, d, hcall, -, hcases⟩ := putWith_cases env (fun _ _ response => response)
    io statement hsame
  change Tablet.put env io statement c = (result, d) at hcall
  rw [Request.serve, TabletNode.put] at hback ⊢
  rcases hcases with ⟨fault, rfl⟩ | ⟨hnone, rfl, hresponse⟩ | ⟨name, table, b, htable, hput, rfl, -⟩
  · rw [Exec.bind_error hcall] at hback
    cases hback
  · rw [Exec.bind_ok hcall]
    exact .inl ⟨hnone, by simp [setCode, hresponse]⟩
  · rw [Exec.bind_ok hcall]
    exact .inr ⟨name, table, b, htable, hput, rfl⟩

/-- The node passes on what the tablet answers, and makes the code of a missing table `FAILED`. -/
theorem get_response (hsame : SameTables c) {statement : Bytes}
    (hback : ((Request.get statement).serve env c).1 = .ok ()) :
    (tableOf env statement c = none ∧ (Tablet.get env statement c).1 = .ok false ∧
        ((Request.get statement).serve env c).2.response =
          ⟨some .failed, some (ascii "table is not found")⟩) ∨
      ∃ name table message, tableOf env statement c = some (name, table) ∧
        (Table.get env statement ⟨c.fs, table⟩).1 = .ok message ∧
        (Tablet.get env statement c).2.response = ⟨some .ok, some (message.getD [])⟩ ∧
        ((Request.get statement).serve env c).2.response = ⟨some .ok, some (message.getD [])⟩ := by
  obtain ⟨result, d, hcall, -, hcases⟩ := get_cases env statement hsame
  rw [Request.serve, TabletNode.get] at hback ⊢
  rcases hcases with ⟨fault, rfl⟩ | ⟨hnone, rfl, hresponse⟩ |
    ⟨name, table, message, htable, hget, rfl, hresponse⟩
  · rw [Exec.bind_error hcall] at hback
    cases hback
  · rw [Exec.bind_ok hcall, hcall]
    exact .inl ⟨hnone, rfl, by simp [setCode, hresponse]⟩
  · rw [Exec.bind_ok hcall, hcall]
    exact .inr ⟨name, table, message, htable, hget, hresponse, hresponse⟩

/-! An answer `OK` against what the table did. -/

/-- The table did what the request asks for: it was added, it returned `true` for the statement,
or it returned `true` with a message. -/
def Request.Done (env : Env) (c : Call) : Request → Prop
  | create statement => ∃ name, (splitString env statement (ascii " "))[1]? = some name ∧
      name ∉ c.tablet.tableMap ∧ name ∈ (Tablet.create env statement c.unset).2.tablet.tableMap
  | put io statement => ∃ name table, tableOf env statement c = some (name, table) ∧
      (Table.put env io statement ⟨c.fs, table⟩).1 = .ok true
  | get statement => ∃ name table message, tableOf env statement c = some (name, table) ∧
      (Table.get env statement ⟨c.fs, table⟩).1 = .ok (some message)

/-- Both required fields are set, and the code is `OK` exactly when the request was done. -/
structure Reports (response : Response) (done : Prop) : Prop where
  code : response.code ≠ none
  msg : response.msg ≠ none
  ok : response.code = some .ok ↔ done

/-- What the tablet and the node answer to a request is what the table did. -/
structure AnswersTrue (env : Env) (c : Call) (request : Request) : Prop where
  put : ∀ io statement, request = .put io statement →
    (Tablet.put env io statement c.unset).1 = .ok true → request.Done env c
  putResponse : ∀ io statement, request = .put io statement →
    (Tablet.putResponse env io statement c.unset).1 = .ok true ∨
      (Tablet.putResponse env io statement c.unset).2.response.code = some .ok →
    request.Done env c
  get : ∀ statement, request = .get statement →
    (Tablet.get env statement c.unset).1 = .ok true →
    (Tablet.get env statement c.unset).2.response.code = some .ok →
    ∃ name table message, tableOf env statement c = some (name, table) ∧
      (Table.get env statement ⟨c.fs, table⟩).1 = .ok (some message) ∧
      (Tablet.get env statement c.unset).2.response.msg = some message
  node : Reports (request.serve env c.unset).2.response (request.Done env c)

/-- The table of a `put` is there, its `Sync` succeeds if one is due and it can index the
statement; the record of a `get` is found if its table is. -/
def Request.Meets (env : Env) (c : Call) : Request → Prop
  | create _ => True
  | put io statement => ∃ name table, tableOf env statement c = some (name, table) ∧
      (table.SyncDue → io.sync = none) ∧ Indexable env table.segmentIndex statement
  | get statement => ∀ name table, tableOf env statement c = some (name, table) →
      Found env statement ⟨c.fs, table⟩

theorem answersTrue_create (hsame : SameTables c) {statement : Bytes}
    (hback : ((Request.create statement).serve env c.unset).1 = .ok ()) :
    AnswersTrue env c (.create statement) := by
  obtain ⟨name, hname, hcases⟩ := create_response (c := c.unset) hsame hback
  refine ⟨nofun, nofun, nofun, ?_⟩
  rcases hcases with ⟨hmem, hresponse⟩ | ⟨hmem, hadded, hresponse⟩
  · have hnot : ¬ (Request.create statement).Done env c := by
      rintro ⟨name', hname', hnew, -⟩
      have heq : name = name' := Option.some.inj (hname.symm.trans hname')
      subst heq
      exact hnew hmem
    constructor <;> simp [hresponse, hnot]
  · have hdone : (Request.create statement).Done env c := ⟨name, hname, hmem, hadded⟩
    constructor <;> simp [hresponse, hdone]

theorem answersTrue_put_iff (hsame : SameTables c) {io : DiskCalls} {statement : Bytes}
    (hback : ((Request.put io statement).serve env c.unset).1 = .ok ()) :
    AnswersTrue env c (.put io statement) ↔ (Request.put io statement).Meets env c := by
  rcases put_response (c := c.unset) hsame hback with
    ⟨hnone, hresponse⟩ | ⟨name, table, b, htable, hput, hresponse⟩
  · -- no table: the node sets no message
    constructor
    · intro h
      have hmsg := h.node.msg
      rw [hresponse] at hmsg
      exact absurd rfl hmsg
    · rintro ⟨name, table, htable, -⟩
      change tableOf env statement c = none at hnone
      rw [hnone] at htable
      cases htable
  · change tableOf env statement c = some (name, table) at htable
    change (Table.put env io statement ⟨c.fs, table⟩).1 = .ok b at hput
    have hdone : (Request.put io statement).Done env c ↔ b = true := by
      constructor
      · rintro ⟨name', table', htable', htrue⟩
        obtain ⟨rfl, rfl⟩ := Prod.mk.inj (Option.some.inj (htable.symm.trans htable'))
        exact Except.ok.inj (hput.symm.trans htrue)
      · intro heq
        subst heq
        exact ⟨name, table, htable, hput⟩
    have hmeets : (Request.put io statement).Meets env c ↔ b = true := by
      rw [put_returns hput]
      constructor
      · rintro ⟨name', table', htable', hcond⟩
        obtain ⟨rfl, rfl⟩ := Prod.mk.inj (Option.some.inj (htable.symm.trans htable'))
        exact hcond
      · intro hcond
        exact ⟨name, table, htable, hcond⟩
    rw [hmeets, ← hdone]
    constructor
    · intro h
      exact h.node.ok.mp (by rw [hresponse])
    · intro h
      refine ⟨?_, ?_, nofun, ?_⟩
      · intro _ _ heq _
        cases heq
        exact h
      · intro _ _ heq _
        cases heq
        exact h
      · constructor <;> simp [hresponse, h]

theorem answersTrue_get_iff (hsame : SameTables c) {statement : Bytes}
    (hback : ((Request.get statement).serve env c.unset).1 = .ok ()) :
    AnswersTrue env c (.get statement) ↔ (Request.get statement).Meets env c := by
  rcases get_response (c := c.unset) hsame hback with
    ⟨hnone, hresult, hresponse⟩ | ⟨name, table, message, htable, hget, htablet, hresponse⟩
  · change tableOf env statement c = none at hnone
    have hnot : ¬ (Request.get statement).Done env c := by
      rintro ⟨name, table, message, htable, -⟩
      rw [hnone] at htable
      cases htable
    constructor
    · intro _ name table htable
      rw [hnone] at htable
      cases htable
    · intro _
      refine ⟨nofun, nofun, ?_, ?_⟩
      · intro _ heq htrue
        cases heq
        rw [hresult] at htrue
        cases htrue
      · constructor <;> simp [hresponse, hnot]
  · change tableOf env statement c = some (name, table) at htable
    change (Table.get env statement ⟨c.fs, table⟩).1 = .ok message at hget
    have hdone : (Request.get statement).Done env c ↔ message ≠ none := by
      constructor
      · rintro ⟨name', table', found, htable', hfound⟩
        obtain ⟨rfl, rfl⟩ := Prod.mk.inj (Option.some.inj (htable.symm.trans htable'))
        simp [Except.ok.inj (hget.symm.trans hfound)]
      · intro hne
        obtain ⟨found, rfl⟩ := Option.ne_none_iff_exists'.mp hne
        exact ⟨name, table, found, htable, hget⟩
    have hmeets : (Request.get statement).Meets env c ↔ message ≠ none := by
      rw [get_returns hget]
      constructor
      · intro h
        exact h name table htable
      · intro hfound name' table' htable'
        obtain ⟨rfl, rfl⟩ := Prod.mk.inj (Option.some.inj (htable.symm.trans htable'))
        exact hfound
    rw [hmeets, ← hdone]
    constructor
    · intro h
      exact h.node.ok.mp (by rw [hresponse])
    · intro h
      obtain ⟨found, rfl⟩ := Option.ne_none_iff_exists'.mp (hdone.mp h)
      refine ⟨nofun, nofun, ?_, ?_⟩
      · intro _ heq _ _
        cases heq
        exact ⟨name, table, found, htable, hget, by rw [htablet]; rfl⟩
      · constructor <;> simp [hresponse, h]

/-- In every reachable state, the answers to a request whose handler returns are true exactly
when the table is there for a `put`, accepts its statement, and finds the record of a `get`. -/
theorem answersTrue_iff (h : Reachable env c) (request : Request)
    (hback : (request.serve env c.unset).1 = .ok ()) :
    AnswersTrue env c request ↔ request.Meets env c := by
  cases request with
  | create statement =>
    have hanswers := answersTrue_create h.sameTables hback
    exact ⟨fun _ => trivial, fun _ => hanswers⟩
  | put io statement => exact answersTrue_put_iff h.sameTables hback
  | get statement => exact answersTrue_get_iff h.sameTables hback

end TabletNode

def newNode : Call := ⟨fun _ => none, Tablet.init (ascii "127.0.0.1:1990") true, .unset⟩

def nodeWithTable : Call :=
  (Tablet.create Env.default (ascii "create t c,string,true timestamp,uint64_t,false") newNode).2

theorem step_nodeWithTable :
    TabletOp.step Env.default
      (.create (ascii "create t c,string,true timestamp,uint64_t,false")) newNode =
      some nodeWithTable := by
  have hcreate : (Tablet.create Env.default
      (ascii "create t c,string,true timestamp,uint64_t,false") newNode).1 = .ok true := by
    decide +kernel
  unfold nodeWithTable
  generalize newNode = c at *
  rw [TabletOp.step]
  exact afterCall_of_ok hcreate

theorem run_nodeWithTable :
    run (TabletOp.step Env.default)
      [.create (ascii "create t c,string,true timestamp,uint64_t,false")] newNode =
      some nodeWithTable := by
  rw [run, step_nodeWithTable, Option.bind_some, run]

theorem reachable_nodeWithTable : Reachable Env.default nodeWithTable :=
  ⟨ascii "127.0.0.1:1990", true, fun _ => none, .unset, _, run_nodeWithTable⟩

theorem answersTrue_iff_put :
    AnswersTrue Env.default nodeWithTable (.put .ok (ascii "insert t c,timestamp 1,7")) ↔
      (Request.put .ok (ascii "insert t c,timestamp 1,7")).Meets Env.default nodeWithTable :=
  answersTrue_iff reachable_nodeWithTable _ (by decide +kernel)

/-- A `Put` that the table refused and a `Get` that found nothing are both answered `OK`; a `Put`
of a table that is not there is answered without a message. -/
theorem ok_without_operation :
    Reachable Env.default nodeWithTable ∧
      (tableOf Env.default (ascii "insert t c,timestamp 1,now") nodeWithTable).map
          (fun p => (Table.put Env.default .ok (ascii "insert t c,timestamp 1,now")
            ⟨nodeWithTable.fs, p.2⟩).1) = some (.ok false) ∧
      (Tablet.put Env.default .ok (ascii "insert t c,timestamp 1,now") nodeWithTable.unset).1 =
        .ok true ∧
      ((Request.put .ok (ascii "insert t c,timestamp 1,now")).serve Env.default
        nodeWithTable.unset).2.response = ⟨some .ok, some (ascii "put data ok")⟩ ∧
      (tableOf Env.default (ascii "get t c 1 7") nodeWithTable).map
          (fun p => (Table.get Env.default (ascii "get t c 1 7") ⟨nodeWithTable.fs, p.2⟩).1) =
        some (.ok none) ∧
      ((Request.get (ascii "get t c 1 7")).serve Env.default
        nodeWithTable.unset).2.response = ⟨some .ok, some []⟩ ∧
      ((Request.put .ok (ascii "insert u c,timestamp 1,7")).serve Env.default
        nodeWithTable.unset).2.response = ⟨some .failed, none⟩ :=
  ⟨reachable_nodeWithTable, by decide +kernel, by decide +kernel, by decide +kernel,
    by decide +kernel, by decide +kernel, by decide +kernel⟩

end Ibdb.Cluster
