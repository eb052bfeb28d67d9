import Ibdb.Cluster.TwoTablets

/-! Two runs of a tablet, with and without the writes to one table: the reads of another table
answer the same in both, as long as the files of the two lie apart. -/
namespace Ibdb.Cluster
open Base Log Storage
open Std (ExtTreeMap)

def TabletOp.answer (env : Env) (tableName : Bytes) (op : TabletOp) (c : Call) :
    Option (Except Fault Bool × Response) :=
  match op with
  | get statement =>
    if (splitString env statement (ascii " "))[1]? = some tableName then
      some ((Tablet.get env statement c.unset).1, (Tablet.get env statement c.unset).2.response)
    else none
  | _ => none

def answers (env : Env) (tableName : Bytes) :
    List TabletOp → Call → List (Except Fault Bool × Response)
  | [], _ => []
  | op :: ops, c =>
    (op.answer env tableName c).toList ++
      match op.call env c with
      | none => []
      | some d => answers env tableName ops d

def erase (env : Env) (tableName : Bytes) (ops : List TabletOp) : List TabletOp :=
  ops.filter fun op => ¬ op.Writes env tableName

section Runs
variable {env : Env} {tableName : Bytes} {c d c' : Call}

theorem afterCall_respects {α σ : Type} {R : σ → σ → Prop} {x y : Except Fault α × σ}
    (hxy : y.1 = x.1 ∧ R x.2 y.2) {s : σ} (h : afterCall x = some s) :
    ∃ t, afterCall y = some t ∧ R s t := by
  obtain rfl := afterCall_eq h
  exact ⟨y.2, afterCall_congr hxy.1 h, hxy.2⟩

theorem Isolated.unset (h : Isolated env tableName c d) :
    Isolated env tableName c.unset d.unset := h.withResponse rfl

/-- A call on another table, or on none, goes the same in both runs. -/
theorem Isolated.call_other (h : Isolated env tableName c.unset d.unset) {op : TabletOp}
    (hnames : op.names env ≠ some tableName)
    (hforeign : ∀ name, op.names env = some name → Foreign env name (logPath env tableName))
    (hcall : op.call env c = some c') :
    ∃ d', op.call env d = some d' ∧ Isolated env tableName c' d' := by
  cases op with
  | create statement => exact afterCall_respects (create_respects hnames _ _ h) hcall
  | put io statement => exact afterCall_respects (putWith_respects hnames _ io _ _ h) hcall
  | putResponse io statement =>
    exact afterCall_respects (putWith_respects hnames _ io _ _ h) hcall
  | get statement => exact afterCall_respects (get_call_respects hnames hforeign _ _ h) hcall
  | getStatements name startOffset endOffset =>
    have hne : name ≠ tableName := fun heq => hnames (congrArg some heq)
    exact afterCall_respects
      (getStatements_respects hne (hforeign name rfl) startOffset endOffset _ _ h) hcall
  | flush name k =>
    have hne : name ≠ tableName := fun heq => hnames (congrArg some heq)
    cases hcall
    exact ⟨_, rfl, h.flush hne k⟩

theorem Isolated.answer (h : Isolated env tableName c.unset d.unset) {other : Bytes}
    (hne : other ≠ tableName) {op : TabletOp}
    (hforeign : op.names env = some other → Foreign env other (logPath env tableName)) :
    op.answer env other d = op.answer env other c := by
  cases op with
  | get statement =>
    unfold TabletOp.answer
    by_cases hname : (splitString env statement (ascii " "))[1]? = some other
    · have hother : (splitString env statement (ascii " "))[1]? ≠ some tableName := by
        rw [hname]
        exact fun heq => hne (Option.some.inj heq)
      obtain ⟨hresult, hnext⟩ := get_call_respects hother (fun name hname' => by
        cases hname.symm.trans hname'
        exact hforeign hname) _ _ h
      simp only [if_pos hname, hresult, hnext.response]
    · simp only [if_neg hname]
  | _ => rfl

/-- Neither run stops, and the second answers what the first does. Induction on the calls, of which
the second run leaves out the writes to the table. -/
theorem Isolated.of_run (h : Isolated env tableName c.unset d.unset) {other : Bytes}
    (hne : other ≠ tableName) {ops : List TabletOp}
    (hforeign : ∀ op ∈ ops, ∀ name, op.names env = some name → name ≠ tableName →
      Foreign env name (logPath env tableName))
    (hrun : (run (TabletOp.call env) ops c).isSome = true) :
    (run (TabletOp.call env) (erase env tableName ops) d).isSome = true ∧
      answers env other (erase env tableName ops) d = answers env other ops c := by
  induction ops generalizing c d with
  | nil => exact ⟨rfl, rfl⟩
  | cons op ops ih =>
    have hop := hforeign op List.mem_cons_self
    have hrest := fun op' hmem => hforeign op' (List.mem_cons_of_mem op hmem)
    rw [run] at hrun
    cases hcall : op.call env c with
    | none =>
      rw [hcall] at hrun
      cases hrun
    | some c' =>
      rw [hcall, Option.bind_some] at hrun
      have hkept : op.names env ≠ some other → op.answer env other c = none := by
        intro hnames
        cases op with
        | get statement => exact if_neg hnames
        | _ => rfl
      by_cases hwrites : op.Writes env tableName
      · -- a write to the table, which the second run leaves out
        have hnames : op.names env = some tableName := by
          cases op with
          | get | getStatements | flush => exact hwrites.elim
          | _ => exact hwrites
        have hnone := hkept (by rw [hnames]; exact fun heq => hne (Option.some.inj heq).symm)
        have hnext : Isolated env tableName c'.unset d.unset := h.touches (h.call hnames hcall)
        obtain ⟨hgoes, hanswers⟩ := ih hnext hrest hrun
        rw [erase, List.filter_cons_of_neg (by simpa using hwrites), ← erase]
        refine ⟨hgoes, ?_⟩
        rw [hanswers, answers, hnone, hcall]
        rfl
      · rw [erase, List.filter_cons_of_pos (by simpa using hwrites), ← erase]
        have hanswer : op.answer env other d = op.answer env other c :=
          h.answer hne fun hnames => hop other hnames hne
        have hboth : ∃ d', op.call env d = some d' ∧ Isolated env tableName c'.unset d'.unset := by
          by_cases hnames : op.names env = some tableName
          · obtain ⟨d', hd, hsame⟩ := h.call_absent hnames hwrites
            refine ⟨d', hd, ?_⟩
            rw [hsame]
            exact h.touches (h.call hnames hcall)
          · obtain ⟨d', hd, hnext⟩ := h.call_other hnames (fun name hname => hop name hname
              fun heq => hnames (heq ▸ hname)) hcall
            exact ⟨d', hd, hnext.unset⟩
        obtain ⟨d', hd, hnext⟩ := hboth
        obtain ⟨hgoes, hanswers⟩ := ih hnext hrest hrun
        constructor
        · rw [run, hd]
          exact hgoes
        · rw [answers, answers, hanswer, hd, hcall]
          exact congrArg _ hanswers

/-- The run without the writes to the table goes through as well, and answers the `Get` calls on
the other table the same. -/
structure Unaffected (env : Env) (tableName other : Bytes) (ops : List TabletOp) (c : Call) :
    Prop where
  goesOn : (run (TabletOp.call env) (erase env tableName ops) c).isSome = true
  answers : answers env other (erase env tableName ops) c = answers env other ops c

/-- When every table that is named lies apart from the first, no other one is affected by what is
written to it. -/
theorem otherTables_unaffected (env : Env) {tableName other : Bytes} (hne : other ≠ tableName)
    (endpoint : Bytes) (isLeader : Bool) (fs : FileSystem) (response : Response)
    {ops : List TabletOp}
    (hapart : ∀ op ∈ ops, ∀ name, op.names env = some name → name ≠ tableName →
      Apart env tableName name)
    (hrun : (run (TabletOp.call env) ops
      ⟨fs, Tablet.init endpoint isLeader, response⟩).isSome = true) :
    Unaffected env tableName other ops ⟨fs, Tablet.init endpoint isLeader, response⟩ := by
  have hempty : ∀ name : Bytes, (Tablet.init endpoint isLeader).tableMap[name]? = none := by
    intro name
    simp [Tablet.init]
  have hstart : Isolated env tableName
      (Call.unset ⟨fs, Tablet.init endpoint isLeader, response⟩)
      (Call.unset ⟨fs, Tablet.init endpoint isLeader, response⟩) := by
    refine ⟨rfl, fun _ _ => rfl, fun _ _ => rfl, fun _ _ => rfl, hempty tableName, ?_, ?_⟩
    · intro name table _ htable
      cases (hempty name).symm.trans htable
    · intro table htable
      cases (hempty tableName).symm.trans htable
  obtain ⟨hgoes, hanswers⟩ := hstart.of_run hne
    (fun op hop name hname hother => (hapart op hop name hname hother).foreign) hrun
  exact ⟨hgoes, hanswers⟩

end Runs

def twoTables (first second : String) : List TabletOp :=
  [.create (ascii ("create " ++ second ++ " c,string,true timestamp,uint64_t,false")),
    .create (ascii ("create " ++ first ++ " c,string,true timestamp,uint64_t,false")),
    .put .ok (ascii ("insert " ++ first ++ " c,timestamp 1,7")),
    .put .ok (ascii ("insert " ++ second ++ " c,timestamp 1,7")),
    .get (ascii ("get " ++ second ++ " c 1 7"))]

theorem otherTables_unaffected_two :
    Unaffected Env.default (ascii "u") (ascii "t") (twoTables "u" "t") newNode :=
  otherTables_unaffected Env.default (by decide) _ _ _ _ (by decide +kernel) (by decide +kernel)

/-- The names `t` and `./t` make two tables with one log: a `Get` on the one returns the statement
put into the other. -/
theorem one_log_of_two_names :
    (run (TabletOp.call Env.default) (twoTables "./t" "t") newNode).isSome = true ∧
      answers Env.default (ascii "t") (twoTables "./t" "t") newNode =
        [(.ok true, ⟨some .ok, some (ascii "insert ./t c,timestamp 1,7")⟩)] ∧
      answers Env.default (ascii "t") (erase Env.default (ascii "./t") (twoTables "./t" "t"))
          newNode = [(.ok true, ⟨some .ok, some (ascii "insert t c,timestamp 1,7")⟩)] ∧
      ¬ Unaffected Env.default (ascii "./t") (ascii "t") (twoTables "./t" "t") newNode := by
  have hmixed : answers Env.default (ascii "t") (twoTables "./t" "t") newNode =
      [(.ok true, ⟨some .ok, some (ascii "insert ./t c,timestamp 1,7")⟩)] := by
    decide +kernel
  have herased : answers Env.default (ascii "t")
      (erase Env.default (ascii "./t") (twoTables "./t" "t")) newNode =
      [(.ok true, ⟨some .ok, some (ascii "insert t c,timestamp 1,7")⟩)] := by
    decide +kernel
  refine ⟨by decide +kernel, hmixed, herased, ?_⟩
  intro h
  have hanswers := h.answers
  rw [hmixed, herased] at hanswers
  exact absurd hanswers (by decide)

end Ibdb.Cluster
