import Ibdb.Storage.Posting

/-! What the index holds after a sequence of statements: for a column, a timestamp and a value,
the offset of the first statement that lists them. -/
namespace Ibdb.Storage
open Base Log

/-- The timestamp of a statement and its columns with their values, when it has them. -/
def posting (env : Env) (statement : Bytes) : Option (UInt64 × List (Bytes × Bytes)) := do
  let (columns, values, text) ← fields env statement
  let timestamp ← env.lexicalCast text
  return (timestamp, columns.zip values)

/-- The statement lists the column with the value, and has the timestamp. -/
def posts (env : Env) (column : Bytes) (timestamp : UInt64) (value statement : Bytes) : Bool :=
  match posting env statement with
  | none => false
  | some (t, pairs) => timestamp = t ∧ (column, value) ∈ pairs

theorem length_le_of_mem_columns {env : Env} {statement text : Bytes} {columns values : List Bytes}
    (h : fields env statement = some (columns, values, text)) :
    (∀ c ∈ columns, c.length ≤ statement.length) ∧ ∀ v ∈ values, v.length ≤ statement.length := by
  simp only [fields, Option.bind_eq_bind, Option.bind_eq_some_iff, Option.pure_def,
    Option.some.injEq, Prod.mk.injEq] at h
  obtain ⟨cols, hcols, vals, hvals, text', -, rfl, rfl, rfl⟩ := h
  have hc := length_le_of_mem_splitString (List.mem_of_getElem? hcols)
  have hv := length_le_of_mem_splitString (List.mem_of_getElem? hvals)
  exact ⟨fun c hmem => (length_le_of_mem_splitString hmem).trans hc,
    fun v hmem => (length_le_of_mem_splitString hmem).trans hv⟩

namespace Segment

/-- The loop of `Put` adds the pairs of a key column and its value, up to the end of the shorter
list. Induction on the columns left, which move with the values. -/
theorem putColumns_spec (timestamp : UInt64) {valueResult : List Bytes}
    (hvalues : ∀ v ∈ valueResult, v.length < 2 ^ 31) (offset i : ℕ) (keys : List Bytes)
    (seg : Segment) :
    ∃ result seg', putColumns timestamp valueResult offset i keys seg = (result, seg') ∧
      result ≠ .error .undefined ∧
      Adds offset (fun k t v => seg.contains k = true ∧ t = timestamp ∧
        (k, v) ∈ keys.zip (valueResult.drop i)) seg seg' := by
  induction keys generalizing i seg with
  | nil => exact ⟨_, _, rfl, by simp, .refl (by simp) seg⟩
  | cons key rest ih =>
    rw [putColumns, Exec.bind_ok (Exec.get_apply seg)]
    by_cases hkey : seg.contains key = true
    · simp only [hkey, if_true]
      by_cases hi : i < valueResult.length
      · rw [Exec.bind_ok (vectorAt_of_some (List.getElem?_eq_getElem hi) seg)]
        obtain ⟨mid, hput, hmid⟩ :=
          put_spec timestamp offset hkey (hvalues _ (List.getElem_mem hi))
        obtain ⟨result, seg', hrun, hne, hadds⟩ := ih (i + 1) mid
        refine ⟨result, seg', (Exec.bind_ok hput).trans hrun, hne, hmid.trans hadds ?_⟩
        intro k t v
        rw [hmid.contains, List.drop_eq_getElem_cons hi, List.zip_cons_cons, List.mem_cons,
          Prod.mk.injEq]
        constructor
        · rintro ⟨hk, ht, ⟨rfl, rfl⟩ | hmem⟩
          · exact .inl ⟨rfl, ht, rfl⟩
          · exact .inr ⟨hk, ht, hmem⟩
        · intro hcase
          rcases hcase with ⟨rfl, ht, rfl⟩ | ⟨hk, ht, hmem⟩
          · exact ⟨hkey, ht, .inl ⟨rfl, rfl⟩⟩
          · exact ⟨hk, ht, .inr hmem⟩
      · rw [Exec.bind_error (vectorAt_of_none (List.getElem?_eq_none (Nat.not_lt.mp hi)) seg)]
        have hend : valueResult.drop i = [] := List.drop_eq_nil_of_le (Nat.not_lt.mp hi)
        exact ⟨_, _, rfl, by simp, .refl (by simp [hend]) seg⟩
    · simp only [hkey, Bool.false_eq_true, if_false]
      obtain ⟨result, seg', hrun, hne, hadds⟩ := ih (i + 1) seg
      refine ⟨result, seg', hrun, hne, (Adds.refl (P := fun _ _ _ => False) (by simp) seg).trans
        hadds ?_⟩
      intro k t v
      rw [false_or]
      refine and_congr_right fun hk => and_congr_right fun _ => ?_
      have hne : k ≠ key := by
        intro heq
        subst heq
        exact hkey hk
      by_cases hi : i < valueResult.length
      · rw [List.drop_eq_getElem_cons hi, List.zip_cons_cons, List.mem_cons, Prod.mk.injEq]
        simp only [hne, false_and, false_or]
      · rw [List.drop_eq_nil_of_le (Nat.not_lt.mp hi), List.drop_eq_nil_of_le (by omega)]
        simp

/-- `Put` adds what the statement posts in key columns. -/
theorem indexStatement_spec (env : Env) {statement : Bytes} (hs : statement.length < 2 ^ 31)
    (offset : ℕ) (seg : Segment) :
    ∃ result seg', indexStatement env (splitString env statement (ascii " ")) offset seg =
        (result, seg') ∧ result ≠ .error .undefined ∧
      Adds offset (fun k t v => seg.contains k = true ∧ posts env k t v statement = true)
        seg seg' := by
  rw [Segment.indexStatement_eq]
  unfold posts posting
  cases hfields : fields env statement with
  | none => exact ⟨_, _, rfl, by simp, .refl (by simp) seg⟩
  | some parsed =>
    obtain ⟨columns, values, text⟩ := parsed
    simp only [Option.bind_eq_bind, Option.bind_some]
    cases htime : env.lexicalCast text with
    | none => exact ⟨_, _, rfl, by simp, .refl (by simp) seg⟩
    | some timestamp =>
      have hvalues : ∀ v ∈ values, v.length < 2 ^ 31 := fun v hv =>
        ((length_le_of_mem_columns hfields).2 v hv).trans_lt hs
      obtain ⟨result, seg', hrun, hne, hadds⟩ := putColumns_spec timestamp hvalues offset 0
        columns seg
      refine ⟨result, seg', hrun, hne,
        (Adds.refl (P := fun _ _ _ => False) (by simp) seg).trans hadds ?_⟩
      intro k t v
      simp

end Segment

/-- The index holds, for every key column, the first of the statements to post each triple. -/
structure IndexInv (env : Env) (isKey : Bytes → Bool) (ms : List Bytes) (seg : Segment) :
    Prop where
  contains : ∀ c, seg.contains c = isKey c
  get : ∀ c t v, seg.get c t v =
    if isKey c = true then ms.findIdx? (posts env c t v) else none

theorem IndexInv.concat {env : Env} {isKey : Bytes → Bool} {ms : List Bytes} {seg seg' : Segment}
    (h : IndexInv env isKey ms seg) {m : Bytes}
    (hadds : Segment.Adds ms.length
      (fun k t v => seg.contains k = true ∧ posts env k t v m = true) seg seg') :
    IndexInv env isKey (ms ++ [m]) seg' := by
  refine ⟨fun c => (hadds.contains c).trans (h.contains c), fun c t v => ?_⟩
  rw [List.findIdx?_append]
  by_cases hp : isKey c = true ∧ posts env c t v m = true
  · rw [hadds.added c t v (by rwa [h.contains]), h.get, if_pos hp.1, if_pos hp.1]
    cases ms.findIdx? (posts env c t v) <;> simp [hp.2]
  · rw [hadds.kept c t v (by rwa [h.contains]), h.get]
    by_cases hk : isKey c = true
    · have hm : posts env c t v m = false := by simpa [hk] using hp
      cases ms.findIdx? (posts env c t v) <;> simp [hk, hm]
    · simp [hk]

/-! The columns of a new table. -/

def keyColumns (schema : List Field) : List Bytes := (schema.filter (·.isKey)).map (·.name)

theorem buildKeyIndex_spec {key : Bytes} {seg seg' : Segment} {b : Bool}
    (hempty : ∀ c t v, seg.get c t v = none)
    (h : Segment.buildKeyIndex key seg = (.ok b, seg')) :
    (∀ c t v, seg'.get c t v = none) ∧
      ∀ c, seg'.contains c = true ↔
        seg.contains c = true ∨ (seg.contains key = false ∧ c = stored key) := by
  rw [Segment.buildKeyIndex, Exec.bind_ok (Exec.get_apply seg)] at h
  by_cases hkey : seg.contains key = true
  · simp only [hkey, if_true] at h
    cases h
    exact ⟨hempty, fun c => by simp [hkey]⟩
  · simp only [hkey, Bool.false_eq_true, if_false, Slice.ofBuffer_eq] at h
    by_cases hlen : key.length % 2 ^ 32 < 2 ^ 31
    · rw [if_pos hlen] at h
      have heq : Segment.mk (seg.segment.insert (stored key) ∅) = seg' := congrArg Prod.snd h
      subst heq
      refine ⟨fun c t v => ?_, fun c => ?_⟩
      · rw [Segment.get_insert]
        split_ifs
        · simp [Segment.lookup]
        · exact hempty c t v
      · have hc : Slice.compare (stored key) c = .eq ↔ c = stored key := by
          rw [Std.LawfulEqCmp.compare_eq_iff_eq, eq_comm]
        simp only [Segment.contains] at hkey ⊢
        simp [hkey, hc, or_comm]
    · rw [if_neg hlen] at h
      cases congrArg Prod.fst h

/-- The constructor makes an empty index with an entry for each key column; only a name whose
length does not fit 32 bits would get another's. -/
theorem buildKeys_spec {schema : List Field} {seg seg' : Segment}
    (hempty : ∀ c t v, seg.get c t v = none) (h : Table.buildKeys schema seg = (.ok (), seg')) :
    (∀ c t v, seg'.get c t v = none) ∧
      (∀ c, seg.contains c = true ∨ (c ∈ keyColumns schema ∧ c.length < 2 ^ 32) →
        seg'.contains c = true) ∧
      ((∀ c ∈ keyColumns schema, c.length < 2 ^ 32) → ∀ c, seg'.contains c = true →
        seg.contains c = true ∨ c ∈ keyColumns schema) := by
  induction schema generalizing seg with
  | nil =>
    cases h
    exact ⟨hempty, by simp [keyColumns], fun _ c hc => .inl hc⟩
  | cons field rest ih =>
    rw [Table.buildKeys] at h
    by_cases hfield : field.isKey = true
    · simp only [hfield, if_true] at h
      obtain ⟨b, mid, hbuild, h⟩ := Exec.bind_eq_ok.mp h
      obtain ⟨hmidempty, hmid⟩ := buildKeyIndex_spec hempty hbuild
      obtain ⟨hget, hmono, honly⟩ := ih hmidempty h
      have hcolumns : keyColumns (field :: rest) = field.name :: keyColumns rest := by
        simp [keyColumns, hfield]
      rw [hcolumns]
      refine ⟨hget, ?_, fun hall c hc => ?_⟩
      · intro c hcase
        rcases hcase with hc | ⟨hc, hlen⟩
        · exact hmono c (.inl ((hmid c).mpr (.inl hc)))
        · rcases List.mem_cons.mp hc with rfl | hc
          · refine hmono _ (.inl ((hmid _).mpr ?_))
            rw [stored_of_lt hlen]
            cases seg.contains field.name <;> simp
          · exact hmono c (.inr ⟨hc, hlen⟩)
      · rcases honly (fun c hc => hall c (List.mem_cons_of_mem _ hc)) c hc with hc | hc
        · rcases (hmid c).mp hc with hc | ⟨-, rfl⟩
          · exact .inl hc
          · rw [stored_of_lt (hall _ List.mem_cons_self)]
            exact .inr List.mem_cons_self
        · exact .inr (List.mem_cons_of_mem _ hc)
    · simp only [hfield, Bool.false_eq_true, if_false] at h
      have hcolumns : keyColumns (field :: rest) = keyColumns rest := by
        simp [keyColumns, hfield]
      rw [hcolumns]
      exact ih hempty h

/-- The names in the index are the slices they were made into. -/
def ShortNames (seg : Segment) : Prop := ∀ k, seg.contains k = true → k.length < 2 ^ 31

theorem shortNames_empty : ShortNames Segment.empty := by
  intro k hk
  simp [Segment.contains, Segment.empty] at hk

theorem buildKeyIndex_returns {key : Bytes} {seg : Segment} (hseg : ShortNames seg)
    (hkey : key.length % 2 ^ 32 < 2 ^ 31) :
    ∃ b seg', Segment.buildKeyIndex key seg = (.ok b, seg') ∧ ShortNames seg' := by
  rw [Segment.buildKeyIndex, Exec.bind_ok (Exec.get_apply seg)]
  by_cases hmem : seg.contains key = true
  · simp only [hmem, if_true]
    exact ⟨false, seg, rfl, hseg⟩
  · simp only [hmem, Bool.false_eq_true, if_false, Slice.ofBuffer_eq, if_pos hkey]
    refine ⟨true, _, rfl, fun k hk => ?_⟩
    change (seg.segment.insert (stored key) ∅).contains k = true at hk
    rw [Std.ExtTreeMap.contains_insert, Bool.or_eq_true] at hk
    rcases hk with heq | hk
    · rw [← Std.LawfulEqCmp.eq_of_compare (beq_iff_eq.mp heq), stored_length]
      exact hkey
    · exact hseg k hk

theorem buildKeyIndex_undefined {key : Bytes} {seg : Segment} (hseg : ShortNames seg)
    (hkey : 2 ^ 31 ≤ key.length % 2 ^ 32) :
    (Segment.buildKeyIndex key seg).1 = .error .undefined := by
  have hmem : ¬ seg.contains key = true := by
    intro hmem
    have hshort := hseg key hmem
    rw [Nat.mod_eq_of_lt (by omega)] at hkey
    omega
  rw [Segment.buildKeyIndex, Exec.bind_ok (Exec.get_apply seg)]
  simp only [hmem, Bool.false_eq_true, if_false, Slice.ofBuffer_eq, if_neg (Nat.not_lt.mpr hkey)]
  rfl

/-- The index is built unless the name of a key column has a length that is negative as an
`int`. -/
theorem buildKeys_result {schema : List Field} {seg : Segment} (hseg : ShortNames seg) :
    (Table.buildKeys schema seg).1 =
      if ∀ c ∈ keyColumns schema, c.length % 2 ^ 32 < 2 ^ 31 then .ok () else .error .undefined := by
  induction schema generalizing seg with
  | nil => rfl
  | cons field rest ih =>
    rw [Table.buildKeys]
    by_cases hfield : field.isKey = true
    · have hcolumns : keyColumns (field :: rest) = field.name :: keyColumns rest := by
        simp [keyColumns, hfield]
      simp only [hfield, if_true, hcolumns, List.forall_mem_cons]
      by_cases hname : field.name.length % 2 ^ 32 < 2 ^ 31
      · obtain ⟨b, seg', hbuild, hseg'⟩ := buildKeyIndex_returns hseg hname
        rw [Exec.bind_ok hbuild, ih hseg']
        simp only [hname, true_and]
      · have hbuild := buildKeyIndex_undefined hseg (Nat.not_lt.mp hname)
        rw [Exec.bind_error (Prod.ext hbuild rfl), if_neg fun hw => hname hw.1]
    · have hcolumns : keyColumns (field :: rest) = keyColumns rest := by
        simp [keyColumns, hfield]
      simp only [hfield, Bool.false_eq_true, if_false, hcolumns]
      exact ih hseg

section Created
variable {env : Env} {tableName : Bytes} {schema : List Field} {content : Bytes} {s : TableState}

theorem Created.get_eq_none (h : Created env tableName schema content s) (c : Bytes) (t : UInt64)
    (v : Bytes) : s.table.segmentIndex.get c t v = none := by
  obtain ⟨fs, seg, -, hbuild, rfl⟩ := created_iff.mp h
  exact (buildKeys_spec (fun c t v => by simp [Segment.get_eq, Segment.empty]) hbuild).1 c t v

theorem Created.contains (h : Created env tableName schema content s) {c : Bytes}
    (hc : c ∈ keyColumns schema) (hlen : c.length < 2 ^ 32) :
    s.table.segmentIndex.contains c = true := by
  obtain ⟨fs, seg, -, hbuild, rfl⟩ := created_iff.mp h
  exact (buildKeys_spec (fun c t v => by simp [Segment.get_eq, Segment.empty]) hbuild).2.1 c
    (.inr ⟨hc, hlen⟩)

theorem Created.contains_iff (h : Created env tableName schema content s)
    (hschema : ∀ c ∈ keyColumns schema, c.length < 2 ^ 32) (c : Bytes) :
    s.table.segmentIndex.contains c = true ↔ c ∈ keyColumns schema := by
  refine ⟨fun hc => ?_, fun hc => h.contains hc (hschema c hc)⟩
  obtain ⟨fs, seg, -, hbuild, rfl⟩ := created_iff.mp h
  refine ((buildKeys_spec (fun c t v => by simp [Segment.get_eq, Segment.empty]) hbuild).2.2
    hschema c hc).resolve_left ?_
  simp [Segment.contains, Segment.empty]

end Created
end Ibdb.Storage
