import Ibdb.Storage.Outcomes

/-! The files a table has to do with: it writes to its log, and it reads the files that its sparse
index names. What it does is the same whatever the others hold. -/
namespace Ibdb.Storage
open Base Log Std

/-! The log in its directory. -/

/-- The directory of the log, which a search opens when the sparse index is empty. -/
def directoryPath (env : Env) (tableName : Bytes) : Path :=
  resolve env.workingDirectory (Table.logDir env tableName ++ ascii "/")

private theorem resolve_append (directory : Path) (d f : Bytes) :
    resolve directory (d ++ 47 :: f) =
      if 0 ∈ d then resolve directory (d ++ [47])
      else ((f.takeWhile (· ≠ 0)).splitOn 47).foldl Path.enter
        (resolve directory (d ++ [47])) := by
  have hhead : (d ++ 47 :: f).head? = (d ++ [47]).head? := by cases d <;> rfl
  have htake : ∀ xs : Bytes, (d ++ xs).takeWhile (· ≠ 0) =
      if 0 ∈ d then d.takeWhile (· ≠ 0) else d ++ xs.takeWhile (· ≠ 0) := by
    intro xs
    split_ifs with hzero
    · rw [List.takeWhile_append, if_neg]
      intro hlength
      have hall := List.takeWhile_eq_self_iff.mp
        ((List.takeWhile_prefix _).eq_of_length hlength) 0 hzero
      simp at hall
    · apply List.takeWhile_append_of_pos
      intro b hb
      have hne : b ≠ 0 := fun heq => hzero (heq ▸ hb)
      simpa using hne
  have hsplit : ∀ xs : Bytes, (d ++ 47 :: xs).splitOn 47 = d.splitOn 47 ++ xs.splitOn 47 :=
    fun xs => List.splitOnP_append_cons d xs (by simp)
  have hnul : ∀ xs : Bytes, (47 :: xs).takeWhile (· ≠ 0) = 47 :: xs.takeWhile (· ≠ 0) := by
    intro xs
    simp
  unfold resolve
  rw [hhead, htake, htake, hnul, hnul]
  by_cases hzero : 0 ∈ d
  · simp only [if_pos hzero]
  · simp only [if_neg hzero, hsplit, List.foldl_append]
    congr 1

/-- The path of the log is the one of its directory with a component more, or the same where the
name of the table has a NUL. -/
theorem directory_prefix_logPath (env : Env) (tableName : Bytes) :
    directoryPath env tableName <+: logPath env tableName := by
  have hlog : logPath env tableName =
      resolve env.workingDirectory (Table.logDir env tableName ++ 47 :: Table.logName) := by
    rw [logPath, logFile, List.append_assoc]
    rfl
  have hname : ((Table.logName.takeWhile (· ≠ 0)).splitOn 47) = [Table.logName] := by decide
  rw [hlog, resolve_append]
  split_ifs
  · exact List.prefix_refl _
  · rw [hname]
    have henter : ∀ p : Path, Path.enter p Table.logName = p ++ [Table.logName] := by
      intro p
      unfold Path.enter
      rw [if_neg (by decide), if_neg (by decide)]
    rw [List.foldl_cons, List.foldl_nil, henter]
    exact List.prefix_append _ _

/-! The file that a search reads. -/

theorem scanFiles_fst (offset : ℕ) (files : List (Bytes × ExtTreeMap ℕ ℕ compare)) (file : Bytes)
    (best : ℕ × ℕ) :
    (Table.scanFiles offset files file best).1 = file ∨
      ∃ entries, ((Table.scanFiles offset files file best).1, entries) ∈ files := by
  induction files generalizing file best with
  | nil => exact Or.inl rfl
  | cons entry rest ih =>
    obtain ⟨name, offsetMap⟩ := entry
    rw [Table.scanFiles]
    rcases Table.scanOffsets offset offsetMap.toList best with ⟨found, _ | _⟩
    · rcases ih name found with heq | ⟨entries, hmem⟩
      · rw [heq]
        exact Or.inr ⟨offsetMap, List.mem_cons_self⟩
      · exact Or.inr ⟨entries, List.mem_cons_of_mem _ hmem⟩
    · exact Or.inr ⟨offsetMap, List.mem_cons_self⟩

theorem findOffsetPosition_fst (m : OffsetPosMap) (offset : ℕ) :
    (Table.findOffsetPosition m offset).1 = [] ∨ (Table.findOffsetPosition m offset).1 ∈ m := by
  rcases scanFiles_fst offset m.toList [] (0, 0) with heq | ⟨entries, hmem⟩
  · exact Or.inl heq
  · right
    rw [ExtTreeMap.mem_iff_isSome_getElem?]
    rw [ExtTreeMap.mem_toList_iff_getElem?_eq_some] at hmem
    exact Option.isSome_of_mem hmem

theorem mem_recordPos {m : OffsetPosMap} {currentFile file : Bytes} {currentOffset currentPos : ℕ}
    (h : file ∈ Table.recordPos m currentFile currentOffset currentPos) :
    file = currentFile ∨ file ∈ m := by
  unfold Table.recordPos at h
  split at h
  · rw [ExtTreeMap.mem_insert] at h
    exact h.imp_left fun heq => (LawfulEqCmp.eq_of_compare heq).symm
  · rw [ExtTreeMap.mem_insertIfNew] at h
    exact h.imp_left fun heq => (LawfulEqCmp.eq_of_compare heq).symm

/-- The table writes to its log alone, and has opened no other files than the log and its
directory. -/
structure OwnFiles (env : Env) (tableName : Bytes) (table : Table) : Prop where
  name : table.tableManifest.name = tableName
  logName : table.tableManifest.currentLogFile.logName = Table.logName
  writer : table.wf.fileHandle.path = logPath env tableName
  readers : ∀ (file : Bytes) (rf : RandomAccessFileHandle), table.logReaderMap[file]? = some rf →
    rf.path = logPath env tableName ∨ rf.path = directoryPath env tableName
  files : ∀ file : Bytes, file ∈ table.offsetPosMap → file = Table.logName

/-- The same table over file systems that differ in one file. -/
structure SameBut (env : Env) (tableName : Bytes) (p : Path) (s t : TableState) : Prop where
  table : t.table = s.table
  fs : ∀ q, q ≠ p → t.fs q = s.fs q
  own : OwnFiles env tableName s.table

theorem append_same {p : Path} {fs fs' : FileSystem} (h : ∀ q, q ≠ p → fs' q = fs q) (r : Path)
    (data : Bytes) : ∀ q, q ≠ p → fs'.append r data q = fs.append r data q := by
  intro q hq
  unfold FileSystem.append
  by_cases heq : q = r
  · subst heq
    rw [Function.update_self, Function.update_self, h q hq]
  · rw [Function.update_of_ne heq, Function.update_of_ne heq, h q hq]

section Respects
variable (env : Env) (tableName : Bytes) (p : Path)

theorem vectorAt_respects {σ α : Type} (R : σ → σ → Prop) (xs : List α) (i : ℕ) :
    Exec.Respects R (vectorAt xs i : Exec Fault σ α) := by
  unfold vectorAt
  cases xs[i]? with
  | none => exact .throw R _
  | some x => exact .pure R x

theorem modifyTable_respects {f : Table → Table}
    (h : ∀ table, OwnFiles env tableName table → OwnFiles env tableName (f table)) :
    Exec.Respects (SameBut env tableName p) (Table.modifyTable f) := by
  apply Exec.Respects.modify
  intro s t hst
  exact ⟨congrArg f hst.table, hst.fs, h s.table hst.own⟩

theorem onSegment_respects {α : Type} (x : Exec Fault Segment α) :
    Exec.Respects (SameBut env tableName p) (Table.onSegment x) := by
  have hone : Exec.Keeps (fun _ : Segment => ()) x := fun _ => rfl
  apply Exec.Respects.zoom (Exec.Respects.of_keeps hone fun _ => True)
  · intro s t hst
    exact ⟨congrArg Table.segmentIndex hst.table, trivial⟩
  · rintro seg seg' s t hst ⟨rfl, -⟩
    obtain ⟨hname, hlogName, hwriter, hreaders, hfiles⟩ := hst.own
    refine ⟨?_, hst.fs, ⟨hname, hlogName, hwriter, hreaders, hfiles⟩⟩
    rw [hst.table]

/-- An append leaves the file of the writer as it is. -/
theorem append_keeps (io : DiskCalls) (offset : ℕ) (slice : Bytes) :
    Exec.Keeps (fun w : WritableFileHandle => w.fileHandle.path)
      (WritableFileHandle.append env io offset slice) := by
  have hslice : ∀ (data : Bytes) (result : Option ℕ),
      Exec.Keeps (fun w : WritableFileHandle => w.fileHandle.path)
        (WritableFileHandle.appendSlice data result) := by
    intro data result w
    change (UnixWritableFile.append data result w.fileHandle).2.path = w.fileHandle.path
    have hkeeps : Exec.Keeps UnixWritableFile.path (UnixWritableFile.append data result) := by
      refine (Exec.Keeps.get _).bind fun f => ?_
      split
      · exact .throw _ _
      · apply Exec.Keeps.bind
        · exact Exec.Keeps.modify fun _ => rfl
        · intro _
          split
          · exact .pure _ _
          · exact .pure _ _
    exact hkeeps w.fileHandle
  refine (hslice _ _).bind fun status => ?_
  split
  · exact .pure _ _
  refine (hslice _ _).bind fun status => ?_
  split
  · exact .pure _ _
  refine (Exec.Keeps.lift _ _).bind fun logData => (hslice _ _).bind fun status => ?_
  split
  · exact .pure _ _
  · apply Exec.Keeps.bind
    · exact Exec.Keeps.modify fun _ => rfl
    · exact fun _ => .pure _ _

theorem onWriter_respects (io : DiskCalls) (offset : ℕ) (slice : Bytes) :
    Exec.Respects (SameBut env tableName p)
      (Table.onWriter (WritableFileHandle.append env io offset slice)) := by
  apply Exec.Respects.zoom
    (Exec.Respects.of_keeps (append_keeps env io offset slice) (· = logPath env tableName))
  · intro s t hst
    exact ⟨congrArg Table.wf hst.table, hst.own.writer⟩
  · rintro w w' s t hst ⟨rfl, hpath⟩
    obtain ⟨hname, hlogName, -, hreaders, hfiles⟩ := hst.own
    refine ⟨?_, hst.fs, ⟨hname, hlogName, hpath, hreaders, hfiles⟩⟩
    rw [hst.table]

/-- The same file of a table over file systems that differ in one file. -/
def SameFile (a b : FileSystem × UnixWritableFile) : Prop :=
  b.2 = a.2 ∧ (∀ q, q ≠ p → b.1 q = a.1 q) ∧ a.2.path = logPath env tableName

theorem SameFile.drain {a b : FileSystem × UnixWritableFile} (h : SameFile env tableName p a b)
    (k : ℕ) :
    SameFile env tableName p (UnixWritableFile.drain k a) (UnixWritableFile.drain k b) := by
  obtain ⟨hfile, hfs, hpath⟩ := h
  refine ⟨?_, ?_, hpath⟩
  · change { b.2 with buffer := b.2.buffer.drop k } = { a.2 with buffer := a.2.buffer.drop k }
    rw [hfile]
  · change ∀ q, q ≠ p → FileSystem.append b.1 b.2.path (b.2.buffer.take k) q = _
    rw [hfile]
    exact append_same hfs a.2.path _

theorem sync_respects (result : Option ℕ) :
    Exec.Respects (SameFile env tableName p) (UnixWritableFile.sync result) := by
  apply Exec.Respects.get_bind
  · intro a b h
    obtain ⟨fs, f⟩ := a
    obtain ⟨fs', f'⟩ := b
    obtain rfl : f' = f := h.1
    rfl
  · intro a _ _
    obtain ⟨fs, f⟩ := a
    simp only
    split
    · exact .throw _ _
    cases result with
    | none =>
      apply Exec.Respects.bind
      · exact Exec.Respects.modify fun a b h => h.drain _ _ _ _
      · exact fun _ => .pure _ _
    | some k =>
      apply Exec.Respects.bind
      · exact Exec.Respects.modify fun a b h => h.drain _ _ _ k
      intro _
      apply Exec.Respects.bind
      · apply Exec.Respects.modify
        rintro a b ⟨hfile, hfs, hpath⟩
        exact ⟨by simp only [hfile], hfs, hpath⟩
      · exact fun _ => .pure _ _

theorem syncWriter_respects (result : Option ℕ) :
    Exec.Respects (SameBut env tableName p) (Table.syncWriter result) := by
  apply Exec.Respects.zoom (sync_respects env tableName p result)
  · intro s t hst
    refine ⟨?_, hst.fs, hst.own.writer⟩
    change t.table.wf.fileHandle = s.table.wf.fileHandle
    rw [hst.table]
  · rintro a b s t hst ⟨hfile, hfs, hpath⟩
    obtain ⟨hname, hlogName, -, hreaders, hfiles⟩ := hst.own
    refine ⟨?_, hfs, ⟨hname, hlogName, hpath, hreaders, hfiles⟩⟩
    simp only [hst.table, hfile]

theorem putDisk_respects (io : DiskCalls) (statement : Bytes) :
    Exec.Respects (SameBut env tableName p) (Table.putDisk env io statement) := by
  apply Exec.Respects.get_bind
  · intro s t hst
    simp only [hst.table]
  intro s _ hst
  have hlogName := hst.own.logName
  refine (onWriter_respects env tableName p io _ statement).bind fun status => ?_
  cases status.isOk with
  | false => exact .pure _ false
  | true =>
    simp only [Bool.not_true, Bool.false_eq_true, if_false]
    split
    all_goals
      refine Exec.Respects.bind (by first
        | exact syncWriter_respects env tableName p io.sync
        | exact .pure _ _) fun synced => ?_
      cases synced.isOk with
      | false => exact .pure _ false
      | true =>
        refine (modifyTable_respects env tableName p ?_).bind fun _ => ?_
        · intro table h
          refine ⟨h.name, h.logName, h.writer, h.readers, ?_⟩
          intro file hfile
          dsimp only at hfile
          split at hfile
          · rcases mem_recordPos hfile with rfl | hmem
            · exact hlogName
            · exact h.files file hmem
          · exact h.files file hfile
        refine (modifyTable_respects env tableName p ?_).bind fun _ => ?_
        · intro table h
          exact ⟨h.name, h.logName, h.writer, h.readers, h.files⟩
        refine (modifyTable_respects env tableName p ?_).bind fun _ => .pure _ true
        intro table h
        exact ⟨h.name, h.logName, h.writer, h.readers, h.files⟩

theorem put_respects (io : DiskCalls) (statement : Bytes) :
    Exec.Respects (SameBut env tableName p) (Table.put env io statement) := by
  apply Exec.Respects.get_bind
  · intro s t hst
    simp only [hst.table]
  intro s _ _
  refine (putDisk_respects env tableName p io statement).bind fun ok => ?_
  cases ok with
  | false => exact .pure _ false
  | true =>
    change Exec.Respects _ (Table.indexStatement env _ _)
    rw [indexStatement_eq]
    exact onSegment_respects env tableName p _

theorem drain_respects (k : ℕ) :
    Exec.Respects (SameBut env tableName p) (Exec.modify (TableState.drain k) : TableM Unit) := by
  apply Exec.Respects.modify
  intro s t hst
  obtain ⟨fs, table⟩ := s
  obtain ⟨fs', table'⟩ := t
  obtain rfl : table' = table := hst.table
  have hsame : SameFile env tableName p (fs, table'.wf.fileHandle) (fs', table'.wf.fileHandle) :=
    ⟨rfl, hst.fs, hst.own.writer⟩
  obtain ⟨-, hfs, hpath⟩ := hsame.drain _ _ _ k
  obtain ⟨hname, hlogName, -, hreaders, hfiles⟩ := hst.own
  exact ⟨rfl, hfs, ⟨hname, hlogName, hpath, hreaders, hfiles⟩⟩

/-- The file is neither the log of the table nor the directory of the log. -/
structure Foreign (env : Env) (tableName : Bytes) (p : Path) : Prop where
  log : logPath env tableName ≠ p
  directory : directoryPath env tableName ≠ p

/-- The names of the files that a search reads. -/
def Searched (env : Env) (tableName file : Bytes) : Prop :=
  resolve env.workingDirectory file = logPath env tableName ∨
    resolve env.workingDirectory file = directoryPath env tableName

variable {env tableName p}

theorem OwnFiles.searched {table : Table} (h : OwnFiles env tableName table) (offset : ℕ) :
    Searched env tableName (Table.logDir env table.tableManifest.name ++ ascii "/" ++
      (Table.findOffsetPosition table.offsetPosMap offset).1) := by
  rw [h.name]
  rcases findOffsetPosition_fst table.offsetPosMap offset with heq | hmem
  · rw [heq, List.append_nil]
    exact Or.inr rfl
  · rw [h.files _ hmem]
    exact Or.inl rfl

theorem Foreign.ne (h : Foreign env tableName p) {q : Path}
    (hq : q = logPath env tableName ∨ q = directoryPath env tableName) : q ≠ p := by
  rcases hq with rfl | rfl
  · exact h.log
  · exact h.directory

theorem reader_respects (hp : Foreign env tableName p) {file : Bytes}
    (hfile : Searched env tableName file) :
    Exec.Respects (SameBut env tableName p) (Table.reader env file) := by
  intro s t hst
  rw [Table.reader, Exec.bind_ok (Exec.get_apply s), Exec.bind_ok (Exec.get_apply t), hst.table]
  cases hreader : s.table.logReaderMap[file]? with
  | some rf => exact ⟨rfl, hst⟩
  | none =>
    have hnew : RandomAccessFileHandle.new env t.fs file =
        RandomAccessFileHandle.new env s.fs file := by
      unfold RandomAccessFileHandle.new
      rw [hst.fs _ (hp.ne hfile)]
    simp only [hnew]
    unfold RandomAccessFileHandle.new
    split_ifs
    · have hopened := @modifyTable_respects env tableName p
        (fun table => { table with
          logReaderMap :=
            table.logReaderMap.insertIfNew file ⟨resolve env.workingDirectory file⟩ }) (by
        intro table h
        refine ⟨h.name, h.logName, h.writer, ?_, h.files⟩
        intro file' rf hrf
        dsimp only at hrf
        rw [ExtTreeMap.getElem?_insertIfNew] at hrf
        split_ifs at hrf
        · cases hrf
          exact hfile
        · exact h.readers file' rf hrf)
      exact (hopened.bind fun _ => .pure _ _) s t hst
    · exact ⟨rfl, hst⟩

theorem findMessage_respects (hp : Foreign env tableName p) (offset start pos : ℕ) {file : Bytes}
    (hfile : Searched env tableName (Table.logDir env tableName ++ ascii "/" ++ file)) :
    Exec.Respects (SameBut env tableName p) (Table.findMessage env offset start pos file) := by
  intro s t hst
  rw [Table.findMessage, Exec.bind_ok (Exec.get_apply s), Exec.bind_ok (Exec.get_apply t),
    hst.table]
  dsimp only
  rw [hst.own.name]
  obtain ⟨hresult, hnext⟩ := reader_respects hp hfile s t hst
  rcases hs : Table.reader env (Table.logDir env tableName ++ ascii "/" ++ file) s with
    ⟨fault | rf, s'⟩ <;>
    rcases ht : Table.reader env (Table.logDir env tableName ++ ascii "/" ++ file) t with
      ⟨fault' | rf', t'⟩ <;>
    rw [hs, ht] at hresult hnext <;> cases hresult
  · rw [Exec.bind_error hs, Exec.bind_error ht]
    exact ⟨rfl, hnext⟩
  · rw [Exec.bind_ok hs, Exec.bind_ok ht]
    have hrf : rf.path = logPath env tableName ∨ rf.path = directoryPath env tableName := by
      rw [reader_eq (congrArg Prod.fst hs)]
      cases hopen : s.table.logReaderMap[Table.logDir env tableName ++ ascii "/" ++ file]? with
      | none => exact hfile
      | some rf' => exact hst.own.readers _ rf' hopen
    have hcontent : rf.content t.fs = rf.content s.fs := by
      unfold RandomAccessFileHandle.content
      rw [hst.fs _ (hp.ne hrf)]
    simp only [hcontent]
    refine ((Exec.Respects.lift _ _).bind fun found => ?_) s' t' hnext
    cases found with
    | none => exact .pure _ none
    | some message => exact (Exec.Respects.lift _ _).bind fun slice => .pure _ (some slice)

theorem fetch_respects (hp : Foreign env tableName p) (offset : ℕ) :
    Exec.Respects (SameBut env tableName p) (Table.fetch env offset) := by
  apply Exec.Respects.get_bind
  · intro s t hst
    simp only [hst.table]
  intro s _ hst
  have hfile := hst.own.searched offset
  rw [hst.own.name] at hfile
  dsimp only
  cases s.table.offsetMessage[offset]? with
  | some message => exact .pure _ (some message)
  | none =>
    generalize Table.findOffsetPosition s.table.offsetPosMap offset = place at hfile
    refine (findMessage_respects hp offset place.2.1 place.2.2 hfile).bind fun found => ?_
    cases found with
    | none => exact .pure _ none
    | some message =>
      refine (modifyTable_respects env tableName p ?_).bind fun _ => .pure _ _
      intro table h
      exact ⟨h.name, h.logName, h.writer, h.readers, h.files⟩

theorem get_respects (hp : Foreign env tableName p) (statement : Bytes) :
    Exec.Respects (SameBut env tableName p) (Table.get env statement) := by
  refine (vectorAt_respects _ _ 2).bind fun key => (vectorAt_respects _ _ 3).bind fun value =>
    (vectorAt_respects _ _ 4).bind fun text => ?_
  apply Exec.Respects.get_bind
  · intro s t hst
    simp only [hst.table]
  intro s _ _
  cases s.table.segmentIndex.get key ((env.lexicalCast text).getD 0) value with
  | none => exact .pure _ none
  | some offset => exact fetch_respects hp offset

theorem getBatchData_respects (hp : Foreign env tableName p) (startOffset endOffset : ℕ) :
    Exec.Respects (SameBut env tableName p) (Table.getBatchData env startOffset endOffset) := by
  unfold Table.getBatchData
  generalize endOffset - startOffset = count
  generalize ([] : List Bytes) = data
  induction count generalizing startOffset data with
  | zero => exact .pure _ (true, data)
  | succ count ih =>
    apply Exec.Respects.get_bind
    · intro s t hst
      simp only [hst.table]
    intro s _ hst
    have hfile := hst.own.searched startOffset
    rw [hst.own.name] at hfile
    generalize Table.findOffsetPosition s.table.offsetPosMap startOffset = place at hfile
    refine (findMessage_respects hp startOffset place.2.1 place.2.2 hfile).bind fun found => ?_
    cases found with
    | none => exact .pure _ (false, data)
    | some message => exact ih (startOffset + 1) _

end Respects

/-! What a table writes. -/

/-- The file that the table writes to, and what the others hold. -/
def TableState.elsewhere (s : TableState) : Path × (Path → Option Bytes) :=
  (s.table.wf.fileHandle.path,
    fun q => if q = s.table.wf.fileHandle.path then none else s.fs q)

section Elsewhere
variable (env : Env)

theorem elsewhere_of_files {α : Type} {x : TableM α} (h : Exec.Keeps TableState.files x) :
    Exec.Keeps TableState.elsewhere x := by
  intro s
  obtain ⟨hfs, hwf⟩ := Prod.mk.inj (h s)
  unfold TableState.elsewhere
  rw [hfs, hwf]

theorem elsewhere_drain (k : ℕ) (s : TableState) : (s.drain k).elsewhere = s.elsewhere := by
  refine Prod.ext rfl (funext fun q => ?_)
  change (if q = s.table.wf.fileHandle.path then none
    else FileSystem.append s.fs s.table.wf.fileHandle.path _ q) = _
  by_cases hq : q = s.table.wf.fileHandle.path
  · rw [if_pos hq]
    exact (if_pos hq).symm
  · rw [if_neg hq, FileSystem.append, Function.update_of_ne hq]
    exact (if_neg hq).symm

theorem syncWriter_elsewhere (result : Option ℕ) :
    Exec.Keeps TableState.elsewhere (Table.syncWriter result) := by
  intro s
  cases hf : s.table.wf.fileHandle.filestream with
  | false =>
    have hthrow : (Table.syncWriter result s).2 = s := by
      simp [Table.syncWriter, UnixWritableFile.sync, Exec.bind_apply, hf]
    rw [hthrow]
  | true =>
    cases result with
    | none =>
      rw [syncWriter_ok hf]
      exact elsewhere_drain _ s
    | some k =>
      have hdrain : (Table.syncWriter (some k) s).2.elsewhere = (s.drain k).elsewhere := by
        simp [Table.syncWriter, UnixWritableFile.sync, Exec.bind_apply, hf,
          UnixWritableFile.drain, TableState.drain, TableState.elsewhere, TableState.pending]
      rw [hdrain, elsewhere_drain]

theorem putDisk_elsewhere (io : DiskCalls) (statement : Bytes) :
    Exec.Keeps TableState.elsewhere (Table.putDisk env io statement) := by
  refine (Exec.Keeps.get _).bind fun s => ?_
  refine Exec.Keeps.bind ?_ fun status => ?_
  · intro t
    have hpath : (WritableFileHandle.append env io s.table.currentOffset statement
        t.table.wf).2.fileHandle.path = t.table.wf.fileHandle.path :=
      append_keeps env io s.table.currentOffset statement t.table.wf
    refine Prod.ext hpath (funext fun q => ?_)
    change (if q = (WritableFileHandle.append env io s.table.currentOffset statement
      t.table.wf).2.fileHandle.path then none else t.fs q) = _
    rw [hpath]
    rfl
  cases status.isOk with
  | false => exact .pure _ false
  | true =>
    simp only [Bool.not_true, Bool.false_eq_true, if_false]
    split
    all_goals
      refine Exec.Keeps.bind (by first
        | exact syncWriter_elsewhere io.sync
        | exact .pure _ _) fun synced => ?_
      cases synced.isOk with
      | false => exact .pure _ false
      | true =>
        simp only [Bool.not_true, Bool.false_eq_true, if_false]
        refine Exec.Keeps.bind (elsewhere_of_files (modifyTable_keeps ?_)) fun _ => ?_
        · exact fun _ => rfl
        refine Exec.Keeps.bind (elsewhere_of_files (modifyTable_keeps ?_)) fun _ => ?_
        · exact fun _ => rfl
        refine Exec.Keeps.bind (elsewhere_of_files (modifyTable_keeps ?_)) fun _ => .pure _ true
        exact fun _ => rfl

theorem put_elsewhere (io : DiskCalls) (statement : Bytes) :
    Exec.Keeps TableState.elsewhere (Table.put env io statement) := by
  refine (Exec.Keeps.get _).bind fun s => ?_
  refine (putDisk_elsewhere env io statement).bind fun ok => ?_
  cases ok with
  | false => exact .pure _ false
  | true =>
    change Exec.Keeps _ (Table.indexStatement env _ _)
    rw [indexStatement_eq]
    exact Exec.Keeps.zoom _ fun _ _ => rfl

end Elsewhere
end Ibdb.Storage
