import Ibdb.Storage.Answers
import Ibdb.Base.Splitting

/-! The statements that a client writes, and what the table reads in them. -/
namespace Ibdb.Storage
open Base

/-- A word of a statement, without the characters that separate words and lists. -/
def Plain (word : Bytes) : Prop := 32 ∉ word ∧ 44 ∉ word ∧ 0 ∉ word

instance : DecidablePred Plain := fun _ => inferInstanceAs (Decidable (_ ∧ _))

def sentence (words : List Bytes) : Bytes := [32].intercalate words

def commas (words : List Bytes) : Bytes := [44].intercalate words

/-- What a row has in its columns. A list of one empty word would be read as an empty list. -/
structure Row where
  cells : List (Bytes × Bytes)
  plain : ∀ cell ∈ cells, Plain cell.1 ∧ Plain cell.2
  columns_ne : commas (cells.map Prod.fst) ≠ []
  values_ne : commas (cells.map Prod.snd) ≠ []

/-- `insert table_name key,key,key value,value,value` -/
def Row.statement (tableName : Bytes) (row : Row) : Bytes :=
  sentence [ascii "insert", tableName, commas (row.cells.map Prod.fst),
    commas (row.cells.map Prod.snd)]

/-- `get table_name key value timestamp` -/
def getStatement (tableName column value text : Bytes) : Bytes :=
  sentence [ascii "get", tableName, column, value, text]

/-- A column of `create`. -/
def columnText (field : Field) : Bytes :=
  commas [field.name, field.type, if field.isKey then ascii "true" else ascii "false"]

/-- `create table_name col_name,type,isIndex col_name,type,isIndex` -/
def createStatement (tableName : Bytes) (schema : List Field) : Bytes :=
  sentence (ascii "create" :: tableName :: schema.map columnText)

/-- The value of the first timestamp column, if it parses. -/
def Row.timestamp (env : Env) (row : Row) : Option UInt64 :=
  (row.cells.find? fun cell => cell.1 = env.tableTimestamp).bind fun cell =>
    env.lexicalCast cell.2

section Split

variable {env : Env} (hsplit : env.split = boostSplit)
include hsplit

theorem split_commas {words : List Bytes} (hne : commas words ≠ [])
    (hwords : ∀ w ∈ words, Plain w) : splitString env (commas words) (ascii ",") = words :=
  splitString_intercalate hsplit rfl hne fun w hw => (hwords w hw).2.1

theorem split_sentence {first : Bytes} {words : List Bytes} (hfirst : first ≠ [])
    (hwords : ∀ w ∈ first :: words, 32 ∉ w) :
    splitString env (sentence (first :: words)) (ascii " ") = first :: words := by
  refine splitString_intercalate hsplit rfl ?_ hwords
  intro hnil
  rcases intercalate_eq_nil hnil with h | h
  · cases h
  · exact hfirst (List.cons.inj h).1

end Split

/-- A list of plain words has no blanks. -/
theorem blank_not_mem_commas {words : List Bytes} (h : ∀ w ∈ words, Plain w) :
    32 ∉ commas words := by
  intro hmem
  rcases mem_intercalate hmem with heq | ⟨w, hw, hb⟩
  · exact absurd heq (by decide)
  · exact (h w hw).1 hb

theorem nul_not_mem_commas {words : List Bytes} (h : ∀ w ∈ words, Plain w) :
    0 ∉ commas words := by
  intro hmem
  rcases mem_intercalate hmem with heq | ⟨w, hw, hb⟩
  · exact absurd heq (by decide)
  · exact (h w hw).2.2 hb

theorem nul_not_mem_sentence {words : List Bytes} (h : ∀ w ∈ words, 0 ∉ w) :
    0 ∉ sentence words := by
  intro hmem
  rcases mem_intercalate hmem with heq | ⟨w, hw, hb⟩
  · exact absurd heq (by decide)
  · exact h w hw hb

/-- The timestamp is the value in the place of the first timestamp column. -/
theorem find?_cells (cells : List (Bytes × Bytes)) (column : Bytes) :
    (cells.map Prod.snd)[(cells.map Prod.fst).findIdx (· = column)]? =
      (cells.find? fun cell => cell.1 = column).map Prod.snd := by
  induction cells with
  | nil => rfl
  | cons cell rest ih =>
    rw [List.map_cons, List.map_cons, List.findIdx_cons, List.find?_cons]
    by_cases h : cell.1 = column
    · simp [h]
    · simpa [h] using ih

/-! What the table reads is what was written. -/

section Row
variable {env : Env} {tableName : Bytes}

theorem Row.columns_plain (row : Row) : ∀ w ∈ row.cells.map Prod.fst, Plain w := by
  intro w hw
  obtain ⟨cell, hcell, rfl⟩ := List.mem_map.mp hw
  exact (row.plain cell hcell).1

theorem Row.values_plain (row : Row) : ∀ w ∈ row.cells.map Prod.snd, Plain w := by
  intro w hw
  obtain ⟨cell, hcell, rfl⟩ := List.mem_map.mp hw
  exact (row.plain cell hcell).2

theorem Row.nul_not_mem (row : Row) (hname : Plain tableName) : 0 ∉ row.statement tableName := by
  refine nul_not_mem_sentence ?_
  simp only [List.forall_mem_cons, List.not_mem_nil, false_imp_iff, implies_true, and_true]
  exact ⟨by decide, hname.2.2, nul_not_mem_commas row.columns_plain,
    nul_not_mem_commas row.values_plain⟩

variable (hsplit : env.split = boostSplit)
include hsplit

theorem Row.split_statement (row : Row) (hname : Plain tableName) :
    splitString env (row.statement tableName) (ascii " ") =
      [ascii "insert", tableName, commas (row.cells.map Prod.fst),
        commas (row.cells.map Prod.snd)] := by
  refine split_sentence hsplit (by decide) ?_
  simp only [List.forall_mem_cons, List.not_mem_nil, false_imp_iff, implies_true, and_true]
  exact ⟨by decide, hname.1, blank_not_mem_commas row.columns_plain,
    blank_not_mem_commas row.values_plain⟩

/-- A row is posted under each of its columns, with its timestamp. -/
theorem Row.posts_statement (row : Row) (hname : Plain tableName) {column value : Bytes}
    {timestamp : UInt64} :
    posts env column timestamp value (row.statement tableName) = true ↔
      (column, value) ∈ row.cells ∧ row.timestamp env = some timestamp := by
  have hcolumns := split_commas hsplit row.columns_ne row.columns_plain
  have hvalues := split_commas hsplit row.values_ne row.values_plain
  have hfields : fields env (row.statement tableName) =
      (row.cells.find? fun cell => cell.1 = env.tableTimestamp).map fun cell =>
        (row.cells.map Prod.fst, row.cells.map Prod.snd, cell.2) := by
    simp only [fields, row.split_statement hsplit hname, Option.bind_eq_bind]
    simp only [List.getElem?_cons_succ, List.getElem?_cons_zero, Option.bind_some, hcolumns,
      hvalues, find?_cells]
    cases row.cells.find? fun cell => cell.1 = env.tableTimestamp <;> rfl
  have hzip : (row.cells.map Prod.fst).zip (row.cells.map Prod.snd) = row.cells := by
    rw [List.zip_map']
    exact List.map_id _
  unfold posts posting
  rw [hfields, Row.timestamp]
  cases row.cells.find? fun cell => cell.1 = env.tableTimestamp with
  | none => simp
  | some cell =>
    simp only [Option.map_some, Option.bind_eq_bind, Option.bind_some, Option.pure_def]
    cases env.lexicalCast cell.2 with
    | none => simp
    | some t =>
      simp only [Option.bind_some, hzip, decide_eq_true_eq, Option.some.injEq]
      constructor
      · intro hw
        exact ⟨hw.2, hw.1.symm⟩
      · intro hw
        exact ⟨hw.2.symm, hw.1⟩

theorem split_getStatement {column value text : Bytes} (hname : Plain tableName)
    (hcolumn : Plain column) (hvalue : Plain value) (htext : Plain text) :
    splitString env (getStatement tableName column value text) (ascii " ") =
      [ascii "get", tableName, column, value, text] := by
  refine split_sentence hsplit (by decide) ?_
  simp only [List.forall_mem_cons, List.not_mem_nil, false_imp_iff, implies_true, and_true]
  exact ⟨by decide, hname.1, hcolumn.1, hvalue.1, htext.1⟩

theorem query_getStatement {column value text : Bytes} (hname : Plain tableName)
    (hcolumn : Plain column) (hvalue : Plain value) (htext : Plain text) :
    query env (getStatement tableName column value text) =
      some (column, (env.lexicalCast text).getD 0, value) := by
  rw [query, split_getStatement hsplit hname hcolumn hvalue htext]
  rfl

end Row

end Ibdb.Storage
