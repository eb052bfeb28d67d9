import Ibdb.Lib.Redelivery
import Ibdb.Storage.Cache

/-! Reads after a run in which statements may have come twice. -/
namespace Ibdb.Storage
open Base Log
open Std (ExtTreeMap)

/-- What a `Get` makes of the statement its answer is. A statement of `2 ^ 31 - 1` bytes cannot be
read back. -/
def readStatement (m : Bytes) : Except Fault (Option Bytes) :=
  if m.length = 2 ^ 31 - 1 then .error .badAlloc else .ok (some (cString m))

section Flushed
variable {env : Env} {tableName : Bytes} {isKey : Bytes → Bool} {ms : List Bytes}
  {s : TableState}

theorem readRecord_all {i : ℕ} (h : i < ms.length) :
    (readRecord ms (logBytes ms).length i).map (·.map cString) = readStatement ms[i] := by
  have hsucc := position_succ h
  have hend := position_le_length ms (i + 1)
  rw [readRecord, List.getElem?_eq_getElem h]
  simp only
  rw [if_neg (by omega), if_pos hend, readStatement]
  split_ifs <;> rfl

/-- With the log written out, `Get` is a function of the first statement that lists the triple. -/
theorem TableInv.get_answer (h : TableInv env tableName isKey ms s)
    (hcache : CacheInv env tableName ms s) (hb : InBounds ms) (hflushed : s.pending = [])
    (statement : Bytes) :
    (Table.get env statement s).1 =
      match query env statement with
      | none => .error .outOfRange
      | some (column, timestamp, value) =>
        match answer env isKey ms column timestamp value with
        | none => .ok none
        | some m => readStatement m := by
  rw [h.get_result hcache hb, h.log.flushed_eq hflushed]
  rcases query env statement with _ | ⟨column, timestamp, value⟩
  · rfl
  simp only [h.index.get, answer]
  split_ifs with hkey
  · cases hfirst : ms.findIdx? (posts env column timestamp value) with
    | none =>
      rw [List.findIdx?_eq_none_iff] at hfirst
      have hnone : ms.find? (posts env column timestamp value) = none := by simpa using hfirst
      rw [hnone]
    | some offset =>
      obtain ⟨ho, -⟩ := List.findIdx?_eq_some_iff_getElem.mp hfirst
      rw [find?_eq_of_findIdx? hfirst, List.getElem?_eq_getElem ho]
      exact readRecord_all ho
  · rfl

end Flushed

section Run
variable {env : Env} {tableName : Bytes} {schema : List Field} {s₀ s s' : TableState}
  {ops ops' : List TableOp}

/-- Statements that come again after their first delivery change no answer. -/
theorem redelivered_get (hcreated : Created env tableName schema [] s₀)
    (hrun : run (TableOp.step env) ops s₀ = some s)
    (hrun' : run (TableOp.step env) ops' s₀ = some s')
    (hok : ∀ op ∈ ops, op.Succeeds) (hok' : ∀ op ∈ ops', op.Succeeds)
    (hagain : Redelivered [] (TableOp.statements ops) (TableOp.statements ops'))
    (htotal : (logBytes (TableOp.statements ops')).length < 2 ^ 32)
    (hflushed : s.pending = []) (hflushed' : s'.pending = []) (statement : Bytes) :
    (Table.get env statement s').1 = (Table.get env statement s).1 := by
  have hsum : ((TableOp.statements ops).map fun m => 12 + m.length).sum ≤
      ((TableOp.statements ops').map fun m => 12 + m.length).sum :=
    (hagain.sublist.map _).sum_le_sum fun _ _ => Nat.zero_le _
  rw [logBytes_length] at htotal
  have hb' := InBounds.of_run hrun' rfl htotal
  have hb := InBounds.of_run hrun rfl (hsum.trans_lt htotal)
  have hinv := Later.of_run (.created hcreated) (.created hcreated) hrun hok
    (by rwa [List.nil_append])
  have hinv' := Later.of_run (.created hcreated) (.created hcreated) hrun' hok'
    (by rwa [List.nil_append])
  rw [List.nil_append] at hinv hinv'
  rw [hinv.inv.get_answer hinv.cache hb hflushed, hinv'.inv.get_answer hinv'.cache hb' hflushed']
  rcases query env statement with _ | ⟨column, timestamp, value⟩
  · rfl
  · simp only [answer, hagain.find?_eq (p := posts env column timestamp value) (by simp)]

theorem put_first_statement_again :
    (Table.put Env.default .ok (ascii "insert t c,timestamp 1,7")
      (Table.put Env.default .ok (ascii "insert t c,timestamp 1,7")
        (emptyTable Env.default (ascii "t") keySchema)).2).1 = .ok true := by
  decide +kernel

theorem redelivered_get_twice :
    let s := (Table.put Env.default .ok (ascii "insert t c,timestamp 1,7")
      (emptyTable Env.default (ascii "t") keySchema)).2
    let s' := (Table.put Env.default .ok (ascii "insert t c,timestamp 1,7") s).2.drain 100
    (Table.get Env.default (ascii "get t c 1 7") s').1 =
      (Table.get Env.default (ascii "get t c 1 7") s).1 :=
  redelivered_get (created_emptyTable _ _ _ rfl)
    (show run (TableOp.step Env.default) [.put .ok (ascii "insert t c,timestamp 1,7")] _ =
        some _ by
      rw [run, step_put put_first_statement]
      rfl)
    (show run (TableOp.step Env.default) [.put .ok (ascii "insert t c,timestamp 1,7"),
        .put .ok (ascii "insert t c,timestamp 1,7"), .flush 100] _ = some _ by
      rw [run, step_put put_first_statement, Option.bind_some, run,
        step_put put_first_statement_again]
      rfl)
    (by simpa [TableOp.Succeeds] using ⟨Complete.ok _, rfl⟩)
    (by simpa [TableOp.Succeeds] using ⟨Complete.ok _, rfl⟩)
    (.first _ (.again (by simp) (.done _))) (by decide +kernel) (by decide +kernel)
    (by decide +kernel) _

end Run
end Ibdb.Storage
