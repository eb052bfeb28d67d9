import Ibdb.Storage.Answers
import Ibdb.Storage.Positions

/-! Reading a statement back right after its `Put`. -/
namespace Ibdb.Storage
open Base Log

theorem Lists.length_le {env : Env} {column value statement : Bytes} {timestamp : UInt64}
    (h : Lists env column timestamp value statement) : column.length ≤ statement.length := by
  obtain ⟨columns, values, text, i, hfields, -, hcolumn, -⟩ := h
  exact (length_le_of_mem_columns hfields).1 column (List.mem_of_getElem? hcolumn)

theorem find?_concat_of_new {α : Type*} {p : α → Bool} {xs : List α} {x : α}
    (hnew : ∀ y ∈ xs, ¬ p y = true) (hx : p x = true) : (xs ++ [x]).find? p = some x := by
  rw [List.find?_append, List.find?_eq_none.mpr hnew]
  simp [hx]

section ReadBack
variable {env : Env} {tableName : Bytes} {schema : List Field} {s₀ s t : TableState}
  {ops : List TableOp}

/-- A read is of the last record only if all of the log is in the file. -/
theorem pending_eq_nil_of_getBatchData {isKey : Bytes → Bool} {ms : List Bytes} {m : Bytes}
    (h : TableInv env tableName isKey (ms ++ [m]) s) (hb : InBounds (ms ++ [m])) {data : List Bytes}
    (hread : (Table.getBatchData env ms.length (ms.length + 1) s).1 = .ok (true, data)) :
    s.pending = [] := by
  obtain ⟨t, ht, -⟩ := h.log.getBatchLoop hb (by simp) 1 ms.length []
  rw [Table.getBatchData, Nat.add_sub_cancel_left, ht] at hread
  cases hrecord : readRecord (ms ++ [m]) s.flushed.length ms.length with
  | error fault => simp [readBatch, hrecord] at hread
  | ok found =>
    cases found with
    | none => simp [readBatch, hrecord] at hread
    | some message =>
      have hle := (readRecord_eq_some hrecord).2
      have hlen : (ms ++ [m]).length ≤ ms.length + 1 := by simp
      rw [position_of_length_le hlen, ← h.log.contents, TableState.logContents,
        List.length_append] at hle
      exact List.length_eq_zero_iff.mp (by omega)

/-- Right after a `Put` that returned `true`, within the bounds of the log, the statement can be
read back by each of its new triples in a key column, and by every batch that ends with it,
exactly when stdio holds nothing back. -/
theorem read_your_writes_iff (hcreated : Created env tableName schema [] s₀)
    (hrun : run (TableOp.step env) ops s₀ = some s) (hok : ∀ op ∈ ops, op.Succeeds)
    (ms : List Bytes) (hms : TableOp.statements ops = ms) {io : DiskCalls} {m : Bytes}
    (hio : Complete io m) (hsync : io.sync = none)
    (hput : Table.put env io m s = (.ok true, t)) (hnul : 0 ∉ m)
    (hlen : ∀ m' ∈ ms ++ [m], m'.length < 2 ^ 31 - 1)
    (htotal : ((ms ++ [m]).map fun m => 12 + m.length).sum < 2 ^ 32) (k : ℕ) :
    ((∀ statement column timestamp value,
        query env statement = some (column, timestamp, value) → column ∈ keyColumns schema →
        Lists env column timestamp value m →
        (∀ m' ∈ ms, ¬ Lists env column timestamp value m') →
        (Table.get env statement (t.drain k)).1 = .ok (some m)) ∧
      ∀ a ≤ ms.length, ∃ data,
        (Table.getBatchData env a (ms.length + 1) (t.drain k)).1 = .ok (true, data)) ↔
      (t.drain k).pending = [] := by
  subst hms
  have hb := InBounds.of_short hlen htotal
  have hbefore := TableInv.of_run hcreated hrun hok hb.of_append
  have hm := hlen m (by simp)
  obtain ⟨result, t', ht, -, -, hafter, -⟩ := hbefore.put hio hsync (by omega)
    (hb.of_append.length_lt.trans (by norm_num))
  obtain ⟨-, rfl⟩ := Prod.mk.inj (ht.symm.trans hput)
  have hinv := hafter.drain k
  constructor
  · rintro ⟨-, hbatch⟩
    obtain ⟨data, hdata⟩ := hbatch _ le_rfl
    exact pending_eq_nil_of_getBatchData hinv hb hdata
  · intro hflushed
    refine ⟨?_, fun a ha => ⟨_, hinv.getBatchData_flushed hb hlen hflushed (by omega) (by simp)⟩⟩
    intro statement column timestamp value hquery hkey hlists hnew
    have hshort : column.length < 2 ^ 32 := (hlists.length_le.trans_lt hm).trans (by norm_num)
    rw [hinv.get_flushed hb hlen hflushed, hquery]
    simp only [answer, hcreated.contains hkey hshort, if_true]
    rw [find?_concat_of_new (fun m' hm' => by rw [posts_iff]; exact hnew m' hm')
      (posts_iff.mpr hlists), Option.map_some, cString_of_nul_free hnul]

/-- After the second of two `Put`s stdio writes out what it still holds. -/
theorem read_your_writes_iff_second_put :
    ∃ s t, run (TableOp.step Env.default)
        [.put .ok (ascii "insert t c,timestamp 1,7"), .flush 30]
        (emptyTable Env.default (ascii "t") keySchema) = some s ∧
      Table.put Env.default .ok (ascii "insert t c,timestamp 2,8") s = (.ok true, t) ∧
      (t.drain 36).pending = [] ∧
      (((∀ statement column timestamp value,
          query Env.default statement = some (column, timestamp, value) →
          column ∈ keyColumns keySchema →
          Lists Env.default column timestamp value (ascii "insert t c,timestamp 2,8") →
          (∀ m' ∈ [ascii "insert t c,timestamp 1,7"],
            ¬ Lists Env.default column timestamp value m') →
          (Table.get Env.default statement (t.drain 36)).1 =
            .ok (some (ascii "insert t c,timestamp 2,8"))) ∧
        ∀ a ≤ 1, ∃ data,
          (Table.getBatchData Env.default a (1 + 1) (t.drain 36)).1 = .ok (true, data)) ↔
        (t.drain 36).pending = []) := by
  have hput : (run (TableOp.step Env.default)
      [.put .ok (ascii "insert t c,timestamp 1,7"), .flush 30]
      (emptyTable Env.default (ascii "t") keySchema)).map (fun s =>
        ((Table.put Env.default .ok (ascii "insert t c,timestamp 2,8") s).1,
          ((Table.put Env.default .ok (ascii "insert t c,timestamp 2,8") s).2.drain 36).pending)) =
      some (.ok true, []) := by decide +kernel
  obtain ⟨s, hs, hafter⟩ := Option.map_eq_some_iff.mp hput
  obtain ⟨htrue, hflushed⟩ := Prod.mk.inj hafter
  exact ⟨s, _, hs, Prod.ext htrue rfl, hflushed,
    read_your_writes_iff (created_emptyTable _ _ keySchema rfl) hs
      (by simpa [TableOp.Succeeds] using ⟨Complete.ok _, rfl⟩)
      [ascii "insert t c,timestamp 1,7"] rfl (Complete.ok _) rfl (Prod.ext htrue rfl) (by simp [ascii]) (by simp [ascii])
      (by simp [ascii]) 36⟩

/-- The second `Put` returns `true` and waits in the buffer: no read finds it. -/
theorem reads_miss_second_put :
    let s := (Table.put Env.default .ok (ascii "insert t c,timestamp 1,7")
      (emptyTable Env.default (ascii "t") keySchema)).2
    let t := (Table.put Env.default .ok (ascii "insert t c,timestamp 2,8") s).2
    (Table.put Env.default .ok (ascii "insert t c,timestamp 2,8") s).1 = .ok true ∧
      Lists Env.default (ascii "c") 8 (ascii "2") (ascii "insert t c,timestamp 2,8") ∧
      (Table.get Env.default (ascii "get t c 2 8") t).1 = .ok none ∧
      (Table.getBatchData Env.default 1 2 t).1 = .ok (false, []) := by
  exact ⟨by decide +kernel, posts_iff.mp (by decide +kernel), by decide +kernel,
    by decide +kernel⟩

/-! Byte for byte. -/

theorem cString_length_le (m : Bytes) : (cString m).length ≤ m.length :=
  List.takeWhile_sublist _ |>.length_le

theorem nul_not_mem_cString (m : Bytes) : 0 ∉ cString m := by
  intro h
  simpa using List.mem_takeWhile_imp h

/-- What a batch read returns was found by `FindMessage` and cut at its first NUL. -/
theorem bounds_of_getBatchData {a : ℕ} {text : Bytes}
    (h : (Table.getBatchData env a (a + 1) s).1 = .ok (true, [text])) :
    0 ∉ text ∧ text.length < 2 ^ 31 - 1 := by
  rw [Table.getBatchData, Nat.add_sub_cancel_left, Table.getBatchLoop,
    Exec.bind_ok (Exec.get_apply s)] at h
  rcases Table.findOffsetPosition s.table.offsetPosMap a with ⟨file, start, pos⟩
  obtain ⟨found, u, hfound, h⟩ := Exec.bind_eq_ok.mp (Prod.ext h rfl)
  cases found with
  | none => simp at h
  | some message =>
    have hlt := findMessage_length_lt (congrArg Prod.fst hfound)
    have hle := cString_length_le message
    have htext := congrArg Prod.fst h
    have heq : cString message = text := by simpa [Table.getBatchLoop] using htext
    subst heq
    exact ⟨nul_not_mem_cString message, by omega⟩

/-- A `Get` that goes to the log leaves what it found in the cache. -/
theorem TableInv.get_caches {isKey : Bytes → Bool} {ms : List Bytes} {offset : ℕ}
    (h : TableInv env tableName isKey ms s) (hb : InBounds ms)
    (hlen : ∀ m ∈ ms, m.length < 2 ^ 31 - 1) (hflushed : s.pending = [])
    {statement column value : Bytes} {timestamp : UInt64}
    (hquery : query env statement = some (column, timestamp, value))
    (hindex : s.table.segmentIndex.get column timestamp value = some offset)
    (hcache : s.table.offsetMessage[offset]? = none) :
    ∃ m, ms[offset]? = some m ∧
      (Table.get env statement s).2.table.offsetMessage[offset]? = some (cString m) := by
  obtain ⟨ho, -⟩ := List.findIdx?_eq_some_iff_getElem.mp (h.index.get_eq_some hindex).2
  obtain ⟨u, hu, -, -, hcached⟩ := h.fetch_uncached hb ho hcache
  have hread := readRecord_of_short (f := s.flushed.length) ho (hlen _ (List.getElem_mem ho))
  rw [h.log.flushed_eq hflushed, if_pos (position_le_length ms (offset + 1))] at hread
  rw [h.log.flushed_eq hflushed] at hcached
  refine ⟨ms[offset], List.getElem?_eq_getElem ho, ?_⟩
  rw [get_eq, hquery]
  simp only [hindex]
  rw [hu]
  exact hcached _ hread

/-- The first statement of a table comes back byte for byte, through the log, the cache and a
batch read, exactly when it has no NUL and fewer than `2 ^ 31 - 1` bytes. -/
theorem read_back_iff (hcreated : Created env tableName schema [] s₀) {io : DiskCalls} {m : Bytes}
    (hio : Complete io m) (hsync : io.sync = none)
    (hput : Table.put env io m s₀ = (.ok true, t)) (hflushed : s = t.drain t.pending.length) :
    ((∀ statement column timestamp value,
        query env statement = some (column, timestamp, value) → column ∈ keyColumns schema →
        Lists env column timestamp value m →
        (Table.get env statement s).1 = .ok (some m) ∧
        (Table.get env statement s).2.table.offsetMessage[0]? = some m ∧
        (Table.get env statement (Table.get env statement s).2).1 = .ok (some m)) ∧
      (Table.getBatchData env 0 1 s).1 = .ok (true, [m])) ↔
      0 ∉ m ∧ m.length < 2 ^ 31 - 1 := by
  constructor
  · rintro ⟨-, hbatch⟩
    exact bounds_of_getBatchData hbatch
  · rintro ⟨hnul, hlen⟩
    have hshort : ∀ m' ∈ [m], m'.length < 2 ^ 31 - 1 := by
      intro m' hm'
      rwa [List.mem_singleton.mp hm']
    have hb : InBounds [m] := .of_short hshort (by simp; omega)
    obtain ⟨result, t', ht, -, -, hafter, hcache⟩ := (TableInv.created hcreated).put hio hsync
      (by omega) (by norm_num)
    obtain ⟨-, rfl⟩ := Prod.mk.inj (ht.symm.trans hput)
    have hempty : s₀.table.offsetMessage = ∅ := by
      obtain ⟨fs, seg, -, -, rfl⟩ := created_iff.mp hcreated
      rfl
    subst hflushed
    have hinv := hafter.drain t'.pending.length
    have hpending : (t'.drain t'.pending.length).pending = [] := by simp
    have hread : ∀ u, TableInv env tableName s₀.table.segmentIndex.contains [m] u →
        u.pending = [] → ∀ statement column timestamp value,
        query env statement = some (column, timestamp, value) → column ∈ keyColumns schema →
        Lists env column timestamp value m →
        (Table.get env statement u).1 = .ok (some m) := by
      intro u hu hnone statement column timestamp value hquery hkey hlists
      have hcolumn : column.length < 2 ^ 32 := by
        have hle := hlists.length_le
        omega
      rw [hu.get_flushed hb hshort hnone, hquery]
      simp [answer, hcreated.contains hkey hcolumn, posts_iff.mpr hlists,
        cString_of_nul_free hnul]
    refine ⟨?_, ?_⟩
    · intro statement column timestamp value hquery hkey hlists
      obtain ⟨hnext, readers, cache, hsame⟩ := hinv.get_keeps hb statement
      have hcolumn : column.length < 2 ^ 32 := by
        have hle := hlists.length_le
        omega
      have hindex : (t'.drain t'.pending.length).table.segmentIndex.get column timestamp value =
          some 0 := by
        rw [hinv.index.get, if_pos (hcreated.contains hkey hcolumn)]
        simp [List.findIdx?_cons, posts_iff.mpr hlists]
      have hnone : (t'.drain t'.pending.length).table.offsetMessage[0]? = none := by
        change t'.table.offsetMessage[0]? = none
        rw [hcache, hempty]
        simp
      obtain ⟨m', hm', hcached⟩ := hinv.get_caches hb hshort hpending hquery hindex hnone
      have heq : m = m' := by simpa using hm'
      subst heq
      rw [cString_of_nul_free hnul] at hcached
      refine ⟨hread _ hinv hpending _ _ _ _ hquery hkey hlists, hcached, ?_⟩
      refine hread _ hnext ?_ _ _ _ _ hquery hkey hlists
      rw [hsame]
      exact hpending
    · have hbatch := hinv.getBatchData_flushed hb hshort hpending (Nat.zero_le 1) le_rfl
      simpa [cString_of_nul_free hnul] using hbatch

theorem read_back_iff_one_put :
    let t := (Table.put Env.default .ok (ascii "insert t c,timestamp 1,7")
      (emptyTable Env.default (ascii "t") keySchema)).2
    let s := t.drain t.pending.length
    ((∀ statement column timestamp value,
        query Env.default statement = some (column, timestamp, value) →
        column ∈ keyColumns keySchema →
        Lists Env.default column timestamp value (ascii "insert t c,timestamp 1,7") →
        (Table.get Env.default statement s).1 = .ok (some (ascii "insert t c,timestamp 1,7")) ∧
        (Table.get Env.default statement s).2.table.offsetMessage[0]? =
          some (ascii "insert t c,timestamp 1,7") ∧
        (Table.get Env.default statement (Table.get Env.default statement s).2).1 =
          .ok (some (ascii "insert t c,timestamp 1,7"))) ∧
      (Table.getBatchData Env.default 0 1 s).1 =
        .ok (true, [ascii "insert t c,timestamp 1,7"])) ↔
      0 ∉ ascii "insert t c,timestamp 1,7" ∧
        (ascii "insert t c,timestamp 1,7").length < 2 ^ 31 - 1 :=
  read_back_iff (created_emptyTable _ _ keySchema rfl) (Complete.ok _) rfl
    (Prod.fst_eq_iff.mp put_first_statement) rfl

/-- A value with a NUL in it: both reads end there. -/
theorem reads_cut_at_nul :
    let m := ascii "insert t c,timestamp,d 1,7," ++ [0, 120]
    let t := (Table.put Env.default .ok m (emptyTable Env.default (ascii "t") keySchema)).2
    let s := t.drain t.pending.length
    (Table.put Env.default .ok m (emptyTable Env.default (ascii "t") keySchema)).1 = .ok true ∧
      Lists Env.default (ascii "c") 7 (ascii "1") m ∧
      (Table.get Env.default (ascii "get t c 1 7") s).1 =
        .ok (some (ascii "insert t c,timestamp,d 1,7,")) ∧
      (Table.getBatchData Env.default 0 1 s).1 =
        .ok (true, [ascii "insert t c,timestamp,d 1,7,"]) :=
  ⟨by decide +kernel, posts_iff.mp (by decide +kernel), by decide +kernel, by decide +kernel⟩

end ReadBack
end Ibdb.Storage
