import Ibdb.Cluster.ManifestCopies
import Ibdb.Storage.Returning

/-! Which requests a tablet node answers, for statements of any shape. -/
namespace Ibdb.Cluster
open Base Log Storage

namespace Request

/-- The handler returns, with a code in the response. -/
def Answered (env : Env) (c : Call) (request : Request) : Prop :=
  (request.serve env c.unset).1 = .ok () ∧
    (request.serve env c.unset).2.response.code ≠ none

/-- The statement has what the handler takes from it: a table name; for a new table, the parts of
its columns, with names of key columns that make slices; for a table that is there, what its `Put`
or its `Get` needs. -/
def Understood (env : Env) (c : Call) : Request → Prop
  | create statement => ∃ name, (splitString env statement (ascii " "))[1]? = some name ∧
      (name ∈ c.tablet.tableMap ∨
        HasParts env ((splitString env statement (ascii " ")).drop 2) ∧
          ∀ key ∈ keyColumns (fieldsOf env ((splitString env statement (ascii " ")).drop 2)),
            key.length % 2 ^ 32 < 2 ^ 31)
  | put io statement => 1 < (splitString env statement (ascii " ")).length ∧
      ∀ name table, tableOf env statement c = some (name, table) →
        PutReturns env io statement table
  | get statement => 1 < (splitString env statement (ascii " ")).length ∧
      ∀ name table, tableOf env statement c = some (name, table) →
        GetReturns env statement ⟨c.fs, table⟩

end Request

section Handlers
variable {env : Env} {c : Call} {statement : Bytes}

/-- The schema of a new table is read and indexed. -/
theorem createsTable_iff {name : Bytes} :
    CreatesTable env statement c name ↔
      (splitString env statement (ascii " "))[1]? = some name ∧ name ∉ c.tablet.tableMap ∧
        HasParts env ((splitString env statement (ascii " ")).drop 2) ∧
          ∀ key ∈ keyColumns (fieldsOf env ((splitString env statement (ascii " ")).drop 2)),
            key.length % 2 ^ 32 < 2 ^ 31 := by
  unfold CreatesTable
  apply and_congr_right
  intro _
  apply and_congr_right
  intro _
  generalize (splitString env statement (ascii " ")).drop 2 = keys
  by_cases hparts : HasParts env keys
  · rw [readFields_ok hparts c]
    have hbuild := @buildKeys_result (fieldsOf env keys) Segment.empty shortNames_empty
    constructor
    · rintro ⟨schema, heq, hbuilt⟩
      cases heq
      refine ⟨hparts, ?_⟩
      by_contra hlong
      rw [hbuild, if_neg hlong] at hbuilt
      cases hbuilt
    · rintro ⟨-, hshort⟩
      exact ⟨fieldsOf env keys, rfl, by rw [hbuild, if_pos hshort]⟩
  · rw [readFields_error hparts c]
    refine iff_of_false ?_ fun hw => hparts hw.1
    rintro ⟨schema, heq, -⟩
    cases heq

theorem create_returns_iff :
    (∃ b, (Tablet.create env statement c).1 = .ok b) ↔
      (Request.create statement).Understood env c := by
  have htrue := @create_true_iff env c statement
  obtain ⟨result, d, hcall, houtcome⟩ := create_outcome env statement c
  simp only [createsTable_iff] at htrue
  unfold Request.Understood
  rw [hcall] at htrue ⊢
  rcases houtcome with ⟨fault, rfl, -⟩ | ⟨name, hname, ⟨hmem, rfl, -⟩ | ⟨-, rfl, -⟩⟩
  · refine iff_of_false (not_returns Bool fault) ?_
    rintro ⟨name, hname, hcase⟩
    by_cases hmem : name ∈ c.tablet.tableMap
    · obtain ⟨result, hfound⟩ : ∃ d, Tablet.create env statement c = (.ok false, d) := by
        rw [Tablet.create, Exec.bind_ok (vectorAt_of_some hname c),
          Exec.bind_ok (Exec.get_apply c)]
        have hcontains : c.tablet.tableMap.contains name = true := hmem
        simp only [hcontains, if_true]
        exact ⟨_, rfl⟩
      cases congrArg Prod.fst (hcall.symm.trans hfound)
    · cases htrue.mpr ⟨name, hname, hmem, hcase.resolve_left hmem⟩
  · exact iff_of_true ⟨false, rfl⟩ ⟨name, hname, Or.inl hmem⟩
  · obtain ⟨name', hname', -, hparts⟩ := htrue.mp rfl
    exact iff_of_true ⟨true, rfl⟩ ⟨name', hname', Or.inr hparts⟩

/-- A `Put` of the tablet returns when there is no table or its table returns. -/
theorem putWith_returns_iff (answer : Bytes → RpcCode → Response → Response) (io : DiskCalls)
    (hsame : SameTables c) :
    (∃ b, (Tablet.putWith answer env io statement c).1 = .ok b) ↔
      (Request.put io statement).Understood env c := by
  unfold Request.Understood
  cases hname : (splitString env statement (ascii " "))[1]? with
  | none =>
    rw [Tablet.putWith, Exec.bind_error (vectorAt_of_none hname c)]
    refine iff_of_false (not_returns Bool _) ?_
    intro hw
    have hlength := List.getElem?_eq_none_iff.mp hname
    omega
  | some name =>
    have hlength := (List.getElem?_eq_some_iff.mp hname).1
    simp only [hlength, true_and]
    cases htable : tableOf env statement c with
    | none =>
      rw [putWith_of_missing hname (tableOf_eq_none hname htable)]
      refine iff_of_true ⟨false, rfl⟩ ?_
      intro name' table hfound
      cases hfound
    | some found =>
      obtain ⟨name', table⟩ := found
      have hput := @put_returns_iff env io statement ⟨c.fs, table⟩
      have hone : (∀ name table', some (name', table) = some (name, table') →
          PutReturns env io statement table') ↔ PutReturns env io statement table := by
        constructor
        · intro hall
          exact hall name' table rfl
        · intro h name'' table'' heq
          cases heq
          exact h
      rw [hone, ← hput]
      cases hresult : (Table.put env io statement ⟨c.fs, table⟩).1 with
      | error fault =>
        rw [putWith_of_error htable hresult]
      | ok b =>
        obtain ⟨d, hcall, -⟩ := putWith_of_ok answer hsame htable hresult
        rw [hcall]
        exact iff_of_true ⟨true, rfl⟩ ⟨b, rfl⟩

theorem get_call_returns_iff :
    (∃ b, (Tablet.get env statement c).1 = .ok b) ↔
      (Request.get statement).Understood env c := by
  unfold Request.Understood
  cases hname : (splitString env statement (ascii " "))[1]? with
  | none =>
    rw [Tablet.get, Exec.bind_error (vectorAt_of_none hname c)]
    refine iff_of_false (not_returns Bool _) ?_
    intro hw
    have hlength := List.getElem?_eq_none_iff.mp hname
    omega
  | some name =>
    have hlength := (List.getElem?_eq_some_iff.mp hname).1
    simp only [hlength, true_and]
    rw [Tablet.get, Exec.bind_ok (vectorAt_of_some hname c), Exec.bind_ok (Exec.get_apply c)]
    cases htable : c.tablet.tableMap[name]? with
    | none =>
      refine iff_of_true ⟨false, rfl⟩ ?_
      intro name' table' hfound
      obtain ⟨hname', htable'⟩ := tableOf_eq_some.mp hfound
      cases hname.symm.trans hname'
      cases htable.symm.trans htable'
    | some table =>
      have hone : (∀ name table', tableOf env statement c = some (name, table') →
          GetReturns env statement ⟨c.fs, table'⟩) ↔ GetReturns env statement ⟨c.fs, table⟩ := by
        constructor
        · intro hall
          exact hall name table (tableOf_eq_some.mpr ⟨hname, htable⟩)
        · intro h name' table' hfound
          obtain ⟨hname', htable'⟩ := tableOf_eq_some.mp hfound
          cases hname.symm.trans hname'
          cases htable.symm.trans htable'
          exact h
      rw [hone, ← get_returns_iff]
      simp only
      have hzoom : (onTable name table (Table.get env statement) c).1 =
          (Table.get env statement ⟨c.fs, table⟩).1 := rfl
      rcases hcall : onTable name table (Table.get env statement) c with ⟨fault | message, d⟩ <;>
        rw [hcall] at hzoom
      · rw [Exec.bind_error hcall, ← hzoom]
        exact iff_of_false (not_returns Bool fault) (not_returns (Option Bytes) fault)
      · rw [Exec.bind_ok hcall, ← hzoom]
        exact iff_of_true ⟨true, rfl⟩ ⟨message, rfl⟩

/-- What a handler does with the result of its call does not fail. -/
theorem bind_returns_iff {call : TabletM Bool} {respond : Bool → TabletM Unit}
    (h : ∀ b d, (respond b d).1 = .ok ()) :
    ((call >>= respond) c).1 = .ok () ↔ ∃ b, (call c).1 = .ok b := by
  rcases hcall : call c with ⟨fault | b, d⟩
  · rw [Exec.bind_error hcall]
    exact iff_of_false nofun (not_returns Bool fault)
  · rw [Exec.bind_ok hcall]
    exact iff_of_true (h b d) ⟨b, rfl⟩

theorem serve_returns_iff (hsame : SameTables c) (request : Request) :
    (request.serve env c).1 = .ok () ↔ request.Understood env c := by
  cases request with
  | create statement =>
    rw [← create_returns_iff]
    apply bind_returns_iff
    intro b d
    cases b <;> rfl
  | put io statement =>
    rw [← putWith_returns_iff (fun _ _ response => response) io hsame]
    apply bind_returns_iff
    intro b d
    cases b <;> rfl
  | get statement =>
    rw [← get_call_returns_iff]
    apply bind_returns_iff
    intro b d
    cases b <;> rfl

/-- Each handler that returns has set the code. -/
theorem serve_code (hsame : SameTables c) {request : Request}
    (hback : (request.serve env c).1 = .ok ()) :
    (request.serve env c).2.response.code ≠ none := by
  cases request with
  | create statement =>
    obtain ⟨name, -, ⟨-, hresponse⟩ | ⟨-, -, hresponse⟩⟩ := create_response hsame hback <;>
      simp [hresponse]
  | put io statement =>
    rcases put_response hsame hback with ⟨-, hresponse⟩ | ⟨name, table, b, -, -, hresponse⟩ <;>
      simp [hresponse]
  | get statement =>
    rcases get_response hsame hback with ⟨-, -, hresponse⟩ |
      ⟨name, table, message, -, -, -, hresponse⟩ <;> simp [hresponse]

/-- In every reachable state a request is answered exactly when its statement is understood. -/
theorem answered_iff (h : Reachable env c) (request : Request) :
    request.Answered env c ↔ request.Understood env c := by
  have hsame : SameTables c.unset := h.sameTables
  have hreturns := @serve_returns_iff env c.unset hsame request
  constructor
  · intro hanswered
    exact hreturns.mp hanswered.1
  · intro hunderstood
    have hback := hreturns.mpr hunderstood
    exact ⟨hback, serve_code hsame hback⟩

end Handlers

theorem answered_iff_put :
    (Request.put .ok (ascii "insert t c,timestamp 1,7")).Answered Env.default nodeWithTable ↔
      (Request.put .ok (ascii "insert t c,timestamp 1,7")).Understood Env.default nodeWithTable :=
  answered_iff reachable_nodeWithTable _

/-- The statement of one word that the client test sends throws `out_of_range`, as do a `Put` with
too few values and a `Get` without a timestamp. -/
theorem one_word_throws :
    Reachable Env.default nodeWithTable ∧
      ((Request.create (ascii "value0")).serve Env.default nodeWithTable.unset).1 =
        .error .outOfRange ∧
      ((Request.put .ok (ascii "insert t c,timestamp 1")).serve Env.default
        nodeWithTable.unset).1 = .error .outOfRange ∧
      ((Request.get (ascii "get t c 1")).serve Env.default nodeWithTable.unset).1 =
        .error .outOfRange ∧
      ¬ (Request.create (ascii "value0")).Answered Env.default nodeWithTable := by
  have hcreate : ((Request.create (ascii "value0")).serve Env.default nodeWithTable.unset).1 =
      .error .outOfRange := by
    decide +kernel
  refine ⟨reachable_nodeWithTable, hcreate, by decide +kernel, by decide +kernel, ?_⟩
  intro hanswered
  have hback := hanswered.1
  rw [hcreate] at hback
  cases hback

end Ibdb.Cluster
