import Ibdb.Cluster.Database
import Ibdb.Storage.Statements

/-! The node as a database of rows, for clients that write their statements out of words. -/
namespace Ibdb.Cluster
open Base Log Storage

structure Relation where
  keys : List Bytes
  rows : List Row

/-- The first row that has the value in a key column, and the timestamp. -/
def Relation.find (env : Env) (column value : Bytes) (timestamp : UInt64) (relation : Relation) :
    Option Row :=
  if relation.keys.contains column then
    relation.rows.find? fun row =>
      row.cells.contains (column, value) && row.timestamp env = some timestamp
  else none

abbrev Relations := Bytes → Option Relation

def Relations.statements (relations : Relations) : Database := fun n =>
  (relations n).map fun relation => ⟨relation.keys, relation.rows.map (Row.statement n)⟩

inductive Command
  | create (tableName : Bytes) (schema : List Field)
  | insert (io : DiskCalls) (tableName : Bytes) (row : Row)
  | select (tableName column value text : Bytes)
  | batch (tableName : Bytes) (startOffset endOffset : ℕ)
  | flush (tableName : Bytes) (k : ℕ)

namespace Command

def op : Command → TabletOp
  | create tableName schema => .create (createStatement tableName schema)
  | insert io tableName row => .put io (row.statement tableName)
  | select tableName column value text => .get (getStatement tableName column value text)
  | batch tableName startOffset endOffset => .getStatements tableName startOffset endOffset
  | flush tableName k => .flush tableName k

def apply (command : Command) (relations : Relations) : Relations :=
  match command with
  | create tableName schema => fun n =>
    if n = tableName then some ((relations n).getD ⟨keyColumns schema, []⟩) else relations n
  | insert _ tableName row => fun n =>
    if n = tableName then
      (relations n).map fun relation => { relation with rows := relation.rows ++ [row] }
    else relations n
  | select _ _ _ _ | batch _ _ _ | flush _ _ => relations

/-- What the commands, in order, make of no tables. -/
def relations (commands : List Command) : Relations :=
  commands.foldl (fun relations command => command.apply relations) fun _ => none

/-- The words are plain, and the names of key columns fit their length field. -/
def WellFormed : Command → Prop
  | create tableName schema => Plain tableName ∧
      (∀ field ∈ schema, Plain field.name ∧ Plain field.type) ∧
        ∀ key ∈ keyColumns schema, key.length < 2 ^ 31
  | insert io tableName row =>
    Plain tableName ∧ Complete io (row.statement tableName) ∧ io.sync = none
  | select _ _ _ _ | batch _ _ _ | flush _ _ => True

theorem relations_concat (commands : List Command) (command : Command) :
    relations (commands ++ [command]) = command.apply (relations commands) := by
  rw [relations, List.foldl_append]
  rfl

end Command

section Create
variable {env : Env} {tableName : Bytes} {schema : List Field}

theorem columnText_plain {field : Field} (hname : Plain field.name) (htype : Plain field.type) :
    ∀ w ∈ [field.name, field.type, if field.isKey then ascii "true" else ascii "false"],
      Plain w := by
  have hflag : ∀ b : Bool, Plain (if b then ascii "true" else ascii "false") := by
    intro b
    cases b <;> exact ⟨by decide, by decide, by decide⟩
  simp only [List.forall_mem_cons, List.not_mem_nil, false_imp_iff, implies_true, and_true]
  exact ⟨hname, htype, hflag field.isKey⟩

variable (hsplit : env.split = boostSplit)
include hsplit

theorem split_columnText {field : Field} (hname : Plain field.name) (htype : Plain field.type) :
    splitString env (columnText field) (ascii ",") =
      [field.name, field.type, if field.isKey then ascii "true" else ascii "false"] := by
  refine split_commas hsplit ?_ (columnText_plain hname htype)
  intro hnil
  rcases intercalate_eq_nil hnil with h | h <;> exact absurd (congrArg List.length h) (by simp)

theorem split_createStatement (hname : Plain tableName)
    (hschema : ∀ field ∈ schema, Plain field.name ∧ Plain field.type) :
    splitString env (createStatement tableName schema) (ascii " ") =
      ascii "create" :: tableName :: schema.map columnText := by
  refine split_sentence hsplit (by decide) ?_
  simp only [List.forall_mem_cons]
  refine ⟨by decide, hname.1, ?_⟩
  intro w hw
  obtain ⟨field, hfield, rfl⟩ := List.mem_map.mp hw
  obtain ⟨hfieldName, htype⟩ := hschema field hfield
  exact blank_not_mem_commas (columnText_plain hfieldName htype)

/-- The schema is read back. -/
theorem fieldsOf_createStatement
    (hschema : ∀ field ∈ schema, Plain field.name ∧ Plain field.type) :
    fieldsOf env (schema.map columnText) = schema := by
  rw [fieldsOf, List.map_map]
  refine (List.map_congr_left fun field hfield => ?_).trans (List.map_id schema)
  obtain ⟨hname, htype⟩ := hschema field hfield
  rw [Function.comp_apply, split_columnText hsplit hname htype]
  obtain ⟨name, type, isKey⟩ := field
  have hflag : decide ((if isKey then ascii "true" else ascii "false") = ascii "true") = isKey := by
    cases isKey <;> decide
  simpa using hflag

theorem declares_createStatement (hname : Plain tableName)
    (hschema : ∀ field ∈ schema, Plain field.name ∧ Plain field.type)
    (hkeys : ∀ key ∈ keyColumns schema, key.length < 2 ^ 31) :
    Declares env (createStatement tableName schema) := by
  unfold Declares
  rw [split_createStatement hsplit hname hschema]
  simp only [List.drop_succ_cons, List.drop_zero]
  rw [fieldsOf_createStatement hsplit hschema]
  constructor
  · intro key hkey
    obtain ⟨field, hfield, rfl⟩ := List.mem_map.mp hkey
    obtain ⟨hfieldName, htype⟩ := hschema field hfield
    rw [split_columnText hsplit hfieldName htype]
    exact le_refl 3
  · intro key hkey
    exact (Nat.mod_le _ _).trans_lt (hkeys key hkey)

end Create

section Commands
variable {env : Env} (hsplit : env.split = boostSplit)
include hsplit

/-- The statement of a command does to the statements what the command does to the rows. -/
theorem apply_op {command : Command} (hwell : command.WellFormed) (relations : Relations) :
    command.op.apply env relations.statements = (command.apply relations).statements := by
  cases command with
  | create tableName schema =>
    obtain ⟨hname, hschema, hkeys⟩ := hwell
    have hwords := split_createStatement hsplit hname hschema
    have hdeclares := declares_createStatement hsplit hname hschema hkeys
    simp only [Command.op, TabletOp.apply, hdeclares, if_true, hwords, List.getElem?_cons_succ,
      List.getElem?_cons_zero, List.drop_succ_cons, List.drop_zero,
      fieldsOf_createStatement hsplit hschema]
    funext n
    simp only [Database.create, Relations.statements, Command.apply]
    split_ifs with heq
    · subst heq
      cases relations n <;> rfl
    · rfl
  | insert io tableName row =>
    obtain ⟨hname, -⟩ := hwell
    simp only [Command.op, TabletOp.apply, row.split_statement hsplit hname,
      List.getElem?_cons_succ, List.getElem?_cons_zero]
    funext n
    simp only [Database.append, Relations.statements, Command.apply]
    by_cases heq : n = tableName
    · subst heq
      simp only [if_true]
      cases relations n with
      | none => rfl
      | some relation => simp
    · rw [if_neg heq, if_neg fun hsome => heq (Option.some.inj hsome).symm]
  | select tableName column value text => rfl
  | batch tableName startOffset endOffset => rfl
  | flush tableName k => rfl

theorem database_op {commands : List Command} (hwell : ∀ command ∈ commands, command.WellFormed) :
    TabletOp.database env (commands.map Command.op) = (Command.relations commands).statements := by
  induction commands using List.reverseRecOn with
  | nil => rfl
  | append_singleton commands command ih =>
    rw [List.map_append, List.map_singleton, TabletOp.database_concat, Command.relations_concat,
      ih fun c hc => hwell c (List.mem_append_left _ hc)]
    exact apply_op hsplit (hwell command (by simp)) _

theorem succeeds_op {command : Command} (hwell : command.WellFormed) :
    command.op.Succeeds env := by
  cases command with
  | create tableName schema =>
    obtain ⟨hname, hschema, hkeys⟩ := hwell
    intro key hkey
    rw [split_createStatement hsplit hname hschema] at hkey
    simp only [List.drop_succ_cons, List.drop_zero,
      fieldsOf_createStatement hsplit hschema] at hkey
    exact (hkeys key hkey).trans (by norm_num)
  | insert io tableName row => exact hwell.2
  | select tableName column value text => trivial
  | batch tableName startOffset endOffset => trivial
  | flush tableName k => trivial

/-- The first statement with the triple is the statement of the first such row. -/
theorem answer_statements {tableName column value : Bytes} {timestamp : UInt64}
    (hname : Plain tableName) (relation : Relation) :
    answer env (Contents.isKey ⟨relation.keys, relation.rows.map (Row.statement tableName)⟩)
        (relation.rows.map (Row.statement tableName)) column timestamp value =
      (relation.find env column value timestamp).map (Row.statement tableName) := by
  unfold answer Relation.find Contents.isKey
  by_cases hk : column ∈ relation.keys
  · have hcontains : relation.keys.contains column = true := List.contains_iff_mem.mpr hk
    simp only [hk, hcontains, decide_true, if_true, List.find?_map]
    congr 1
    refine List.find?_congr fun row _ => ?_
    rw [Bool.eq_iff_iff, Function.comp_apply, row.posts_statement hsplit hname, Bool.and_eq_true,
      List.contains_iff_mem, decide_eq_true_eq]
  · simp [hk]

end Commands

def Relations.select (env : Env) (tableName column value : Bytes) (timestamp : UInt64)
    (relations : Relations) : Response :=
  match relations tableName with
  | none => ⟨some .failed, some (ascii "table is not found")⟩
  | some relation =>
    let row := relation.find env column value timestamp
    ⟨some .ok, some ((row.map (Row.statement tableName)).getD [])⟩

section Run
variable {env : Env} (hsplit : env.split = boostSplit)
include hsplit

theorem get_statements {relations : Relations} {tableName column value text : Bytes}
    {timestamp : UInt64} (hname : Plain tableName) (hcolumn : Plain column) (hvalue : Plain value)
    (htext : Plain text) (htime : env.lexicalCast text = some timestamp) :
    relations.statements.get env (getStatement tableName column value text) =
      some (relations.select env tableName column value timestamp) := by
  rw [Database.get, split_getStatement hsplit hname hcolumn hvalue htext]
  simp only [List.getElem?_cons_succ, List.getElem?_cons_zero, Option.bind_eq_bind,
    Option.bind_some, Option.pure_def, Relations.statements, Relations.select,
    query_getStatement hsplit hname hcolumn hvalue htext, htime, Option.getD_some]
  cases relations tableName with
  | none => rfl
  | some relation =>
    simp only [Option.map_some, answer_statements hsplit hname]
    cases relation.find env column value timestamp with
    | none => rfl
    | some row =>
      simp only [Option.map_some, Option.getD_some, cString_of_nul_free (row.nul_not_mem hname)]

omit hsplit in
theorem batch_statements {relations : Relations} {tableName : Bytes} {relation : Relation}
    (hname : Plain tableName) (hrelation : relations tableName = some relation)
    (startOffset endOffset : ℕ) :
    relations.statements.batch tableName startOffset endOffset =
      ((relation.rows.drop startOffset).take (endOffset - startOffset)).map
        (Row.statement tableName) := by
  simp only [Database.batch, Relations.statements, hrelation, Option.map_some, ← List.map_drop,
    ← List.map_take, List.map_map]
  refine List.map_congr_left fun row _ => ?_
  exact cString_of_nul_free (row.nul_not_mem hname)

theorem name_of_create {commands : List Command} {names : List Bytes}
    (hwell : ∀ command ∈ commands, command.WellFormed)
    (hmem : ∀ tableName schema, .create tableName schema ∈ commands → tableName ∈ names)
    {statement name : Bytes} (hstatement : .create statement ∈ commands.map Command.op)
    (hsecond : (splitString env statement (ascii " "))[1]? = some name) : name ∈ names := by
  obtain ⟨command, hcommand, hop⟩ := List.mem_map.mp hstatement
  cases command with
  | create n schema =>
    cases hop
    obtain ⟨hplain, hschema, -⟩ := hwell _ hcommand
    rw [split_createStatement hsplit hplain hschema] at hsecond
    cases hsecond
    exact hmem _ schema hcommand
  | insert io n row => cases hop
  | select n column value text => cases hop
  | batch n startOffset endOffset => cases hop
  | flush n k => cases hop

/-- After every run of commands without I/O failure, over tables whose files lie apart, a `Get` of
a table that is written out answers the first row inserted with the value in the key column and the
timestamp, and `GetStatements` the rows of the offsets. -/
theorem rows_answered (names : List Bytes) {endpoint : Bytes} {isLeader : Bool} {fs : FileSystem}
    {response : Response} {commands : List Command} {c : Call}
    (hwell : ∀ command ∈ commands, command.WellFormed)
    (hapart : ∀ name ∈ names, ∀ n ∈ names, n ≠ name → Apart env name n)
    (hmem : ∀ tableName schema, .create tableName schema ∈ commands → tableName ∈ names)
    (hfresh : ∀ name ∈ names, (fs (logPath env name)).getD [] = [])
    (hrun : run (TabletOp.step env) (commands.map Command.op)
      ⟨fs, Tablet.init endpoint isLeader, response⟩ = some c)
    (hb : (Command.relations commands).statements.Bounded)
    (hshort : (Command.relations commands).statements.Short)
    {tableName : Bytes} (hname : Plain tableName) (hwritten : WrittenOut tableName c) :
    (∀ column value text timestamp, Plain column → Plain value → Plain text →
      env.lexicalCast text = some timestamp →
      ((Request.get (getStatement tableName column value text)).serve env c.unset).1 = .ok () ∧
        ((Request.get (getStatement tableName column value text)).serve env c.unset).2.response =
          (Command.relations commands).select env tableName column value timestamp) ∧
      ∀ relation, Command.relations commands tableName = some relation → relation.rows ≠ [] →
        ∀ startOffset endOffset,
          (Tablet.getStatements env tableName startOffset endOffset c).1 =
            .ok (((relation.rows.drop startOffset).take (endOffset - startOffset)).map
              (Row.statement tableName)) := by
  have hdatabase := database_op hsplit hwell
  have hsucceeds : ∀ op ∈ commands.map Command.op, op.Succeeds env := by
    intro op hop
    obtain ⟨command, hcommand, rfl⟩ := List.mem_map.mp hop
    exact succeeds_op hsplit (hwell command hcommand)
  have hheld := Holds.of_run hapart (fun _ _ => name_of_create hsplit hwell hmem) hfresh hrun
    hsucceeds (hdatabase ▸ hb)
  rw [hdatabase] at hheld
  refine ⟨?_, ?_⟩
  · intro column value text timestamp hcolumn hvalue htext htime
    have hwords : ∀ name, (splitString env (getStatement tableName column value text)
        (ascii " "))[1]? = some name → WrittenOut name c := by
      intro name hsecond
      rw [split_getStatement hsplit hname hcolumn hvalue htext] at hsecond
      cases hsecond
      exact hwritten
    have hanswer := hheld.get hb hshort hwords
    rw [get_statements hsplit hname hcolumn hvalue htext htime] at hanswer
    exact hanswer
  · intro relation hrelation hrows startOffset endOffset
    rw [← batch_statements hname hrelation]
    refine hheld.getStatements hb hshort hwritten fun _ contents hcontents => ?_
    simp only [Relations.statements, hrelation, Option.map_some, Option.some.injEq] at hcontents
    subst hcontents
    simpa using hrows

end Run

def firstRow : Row where
  cells := [(ascii "c", ascii "1"), (ascii "timestamp", ascii "7")]
  plain := by decide
  columns_ne := by decide
  values_ne := by decide

def secondRow : Row where
  cells := [(ascii "timestamp", ascii "8"), (ascii "c", ascii "2")]
  plain := by decide
  columns_ne := by decide
  values_ne := by decide

/-- Two tables, of which only the first gets rows. -/
def twoRowCommands : List Command :=
  [.create (ascii "t")
      [⟨ascii "c", ascii "string", true⟩, ⟨ascii "timestamp", ascii "uint64_t", false⟩],
    .create (ascii "u") [⟨ascii "c", ascii "string", true⟩],
    .insert .ok (ascii "t") firstRow, .flush (ascii "t") 20, .insert .ok (ascii "t") secondRow,
    .flush (ascii "t") 4096]

theorem relations_twoRow {n : Bytes} {relation : Relation}
    (h : Command.relations twoRowCommands n = some relation) :
    relation.rows = [] ∨ n = ascii "t" ∧ relation.rows = [firstRow, secondRow] := by
  by_cases ht : n = ascii "t"
  · subst ht
    cases h
    exact Or.inr ⟨rfl, rfl⟩
  · by_cases hu : n = ascii "u"
    · subst hu
      cases h
      exact Or.inl rfl
    · simp [Command.relations, twoRowCommands, Command.apply, ht, hu] at h

theorem rows_answered_two_rows :
    ∃ c, run (TabletOp.step Env.default) (twoRowCommands.map Command.op) newNode = some c ∧
      ((Request.get (getStatement (ascii "t") (ascii "c") (ascii "2") (ascii "8"))).serve
        Env.default c.unset).2.response = ⟨some .ok, some (secondRow.statement (ascii "t"))⟩ ∧
      ((Request.get (getStatement (ascii "t") (ascii "c") (ascii "2") (ascii "7"))).serve
        Env.default c.unset).2.response = ⟨some .ok, some []⟩ ∧
      (Tablet.getStatements Env.default (ascii "t") 1 5 c).1 =
        .ok [secondRow.statement (ascii "t")] := by
  have hbuffer : (run (TabletOp.step Env.default) (twoRowCommands.map Command.op) newNode).map
      (fun c => (c.tablet.tableMap[ascii "t"]?).map fun table => table.wf.fileHandle.buffer) =
      some (some []) := by
    decide +kernel
  obtain ⟨c, hrun, hempty⟩ := Option.map_eq_some_iff.mp hbuffer
  have hwritten : WrittenOut (ascii "t") c := by
    intro table htable
    rw [htable] at hempty
    exact Option.some.inj hempty
  have hcontents : ∀ name contents,
      (Command.relations twoRowCommands).statements name = some contents →
      contents.statements = [] ∨
        contents.statements = [firstRow, secondRow].map (Row.statement (ascii "t")) := by
    intro name contents hname
    obtain ⟨relation, hrelation, rfl⟩ := Option.map_eq_some_iff.mp hname
    rcases relations_twoRow hrelation with hrows | ⟨rfl, hrows⟩
    · exact Or.inl (by rw [hrows, List.map_nil])
    · exact Or.inr (by rw [hrows])
  have hshort : (Command.relations twoRowCommands).statements.Short := by
    intro name contents hname
    rcases hcontents name contents hname with h | h <;> rw [h] <;> decide +kernel
  have hb : (Command.relations twoRowCommands).statements.Bounded := by
    intro name contents hname
    refine .of_short (hshort name contents hname) ?_
    rcases hcontents name contents hname with h | h <;> rw [h] <;> decide +kernel
  have hwell : ∀ command ∈ twoRowCommands, command.WellFormed := by
    simp only [twoRowCommands, List.forall_mem_cons, List.not_mem_nil, false_imp_iff,
      implies_true, and_true]
    exact ⟨⟨by decide, by decide, by decide +kernel⟩, ⟨by decide, by decide, by decide +kernel⟩,
      ⟨by decide, .ok _, rfl⟩, trivial, ⟨by decide, .ok _, rfl⟩, trivial⟩
  have hmem : ∀ tableName schema, Command.create tableName schema ∈ twoRowCommands →
      tableName ∈ [ascii "t", ascii "u"] := by
    intro tableName schema h
    simp only [twoRowCommands, List.mem_cons, Command.create.injEq, reduceCtorEq, or_false,
      List.not_mem_nil] at h
    rcases h with ⟨rfl, -⟩ | ⟨rfl, -⟩ <;> decide
  obtain ⟨hget, hbatch⟩ := rows_answered rfl [ascii "t", ascii "u"] hwell (by decide +kernel) hmem
    (by simp) hrun hb hshort (show Plain (ascii "t") by decide) hwritten
  have hone : Plain (ascii "c") ∧ Plain (ascii "2") := by decide
  have hfound := (hget _ _ (ascii "8") 8 hone.1 hone.2 (by decide) (by decide)).2
  have hmissing := (hget _ _ (ascii "7") 7 hone.1 hone.2 (by decide) (by decide)).2
  have hrange := hbatch ⟨[ascii "c"], [firstRow, secondRow]⟩ rfl (List.cons_ne_nil _ _) 1 5
  exact ⟨c, hrun, hfound.trans (by decide +kernel), hmissing.trans (by decide +kernel), hrange⟩

end Ibdb.Cluster
