import Ibdb.Storage.Positions
import Ibdb.Storage.TableRun

/-! When `Put` and `Get` return `true`, in terms of the state they are called in. -/
namespace Ibdb.Storage
open Base Log

section Outcomes
variable {env : Env} {io : DiskCalls} {statement : Bytes} {s : TableState}

/-- A `Put` that comes back returns `true` when its `Sync` succeeds, if one is due, and the
statement can be indexed. -/
theorem put_true_iff
    (hback : ∀ fault, (Table.put env io statement s).1 = .error fault → fault.isException = true) :
    (Table.put env io statement s).1 = .ok true ↔ (s.table.SyncDue → io.sync = none) ∧
      Indexable env s.table.segmentIndex statement := by
  obtain ⟨hf, hs⟩ := stream_and_length_of_put hback
  by_cases hsync : s.table.SyncDue → io.sync = none
  · obtain ⟨t, ht, -, -, -, hsegment⟩ := putDisk_written env io hf hs hsync
    have hrun : (Segment.indexStatement env (splitString env statement (ascii " "))
        s.table.currentOffset s.table.segmentIndex).1 = (Table.put env io statement s).1 := by
      rw [put_of_putDisk ht, ← hsegment]
      rfl
    rcases indexStatement_result env statement _ _ hrun with ⟨hr, hi⟩ | ⟨hr, hi⟩ | hr
    · exact ⟨fun _ => ⟨hsync, hi⟩, fun _ => hr⟩
    · rcases hr with hr | hr <;> simp [hr, hi]
    · have hexc := hback _ hr
      simp [Fault.isException] at hexc
  · have hfailed : s.table.SyncDue ∧ io.sync ≠ none := by tauto
    obtain ⟨k, hk⟩ := Option.ne_none_iff_exists'.mp hfailed.2
    obtain ⟨t, ht, -⟩ := putDisk_sync_failed env io hf hs hfailed.1 hk
    simp [put_of_putDisk_false ht, hsync]

/-- What a `Put` returns, when it does. -/
theorem put_returns {b : Bool} (h : (Table.put env io statement s).1 = .ok b) :
    b = true ↔ (s.table.SyncDue → io.sync = none) ∧
      Indexable env s.table.segmentIndex statement := by
  rw [← put_true_iff (by rw [h]; exact nofun), h, Except.ok.injEq]

/-- The search of the log file from where the sparse index points for the record. -/
def search (env : Env) (offset : ℕ) (s : TableState) : Option (Except Fault (Option Bytes)) :=
  let found := Table.findOffsetPosition s.table.offsetPosMap offset
  let logFile := Table.logDir env s.table.tableManifest.name ++ ascii "/" ++ found.1
  let rf := s.table.logReaderMap[logFile]?.getD ⟨resolve env.workingDirectory logFile⟩
  Table.scanMessages env (rf.content s.fs) offset (Table.scanBound offset found.2.1) found.2.1
    found.2.2

/-- The index has an offset for the column, the timestamp and the value of the statement, and
the record is in the cache or can be read from the log file. -/
def Found (env : Env) (statement : Bytes) (s : TableState) : Prop :=
  ∃ column timestamp value offset, query env statement = some (column, timestamp, value) ∧
    s.table.segmentIndex.get column timestamp value = some offset ∧
    (s.table.offsetMessage[offset]? ≠ none ∨ ∃ m, search env offset s = some (.ok (some m)))

theorem reader_eq {logFile : Bytes} {rf : RandomAccessFileHandle}
    (h : (Table.reader env logFile s).1 = .ok rf) :
    rf = s.table.logReaderMap[logFile]?.getD ⟨resolve env.workingDirectory logFile⟩ := by
  rw [Table.reader, Exec.bind_ok (Exec.get_apply s)] at h
  cases hrf : s.table.logReaderMap[logFile]? with
  | some found =>
    simp only [hrf] at h
    exact (Except.ok.inj h).symm
  | none =>
    simp only [hrf, RandomAccessFileHandle.new] at h
    split_ifs at h
    · exact (Except.ok.inj h).symm
    · cases h

theorem fetch_returns {offset : ℕ} {result : Option Bytes}
    (h : (Table.fetch env offset s).1 = .ok result) :
    result ≠ none ↔ s.table.offsetMessage[offset]? ≠ none ∨
      ∃ m, search env offset s = some (.ok (some m)) := by
  cases hcache : s.table.offsetMessage[offset]? with
  | some text =>
    rw [fetch_cached hcache] at h
    simp [← Except.ok.inj h]
  | none =>
    rw [Table.fetch, Exec.bind_ok (Exec.get_apply s)] at h
    simp only [hcache] at h
    obtain ⟨found, t, hfound, h⟩ := Exec.bind_eq_ok.mp (Prod.ext h rfl)
    obtain ⟨rf, hreader, hscan⟩ := scanMessages_of_findMessage (congrArg Prod.fst hfound)
    rw [reader_eq hreader] at hscan
    have hsearch : search env offset s = some (.ok found) := hscan
    rw [hsearch]
    cases found with
    | none =>
      have hresult : none = result := by simpa using congrArg Prod.fst h
      simp [← hresult]
    | some message =>
      obtain ⟨_, u, -, h⟩ := Exec.bind_eq_ok.mp h
      have hresult : some (cString message) = result := by simpa using congrArg Prod.fst h
      simp [← hresult]

/-- A `Get` that returns, returns `true` when it finds the record. -/
theorem get_returns {result : Option Bytes} (h : (Table.get env statement s).1 = .ok result) :
    result ≠ none ↔ Found env statement s := by
  rw [get_eq] at h
  unfold Found
  rcases hquery : query env statement with _ | ⟨column, timestamp, value⟩ <;> rw [hquery] at h
  · cases h
  simp only at h
  cases hindex : s.table.segmentIndex.get column timestamp value with
  | none =>
    simp only [hindex] at h
    have hresult : none = result := Except.ok.inj h
    simp [← hresult, hindex]
  | some offset =>
    simp only [hindex] at h
    rw [fetch_returns h]
    constructor
    · intro hfound
      exact ⟨column, timestamp, value, offset, rfl, hindex, hfound⟩
    · rintro ⟨_, _, _, offset', heq, hget, hfound⟩
      cases heq
      have hid : offset = offset' := Option.some.inj (hindex.symm.trans hget)
      subst hid
      exact hfound

end Outcomes

/-! Reads write to no file and leave the writer alone. -/

section Reads

def TableState.files (s : TableState) : FileSystem × WritableFileHandle := (s.fs, s.table.wf)

/-- The view shows neither the open descriptors nor the cache. -/
def BlindToReads {γ : Type} (view : TableState → γ) : Prop :=
  ∀ (s : TableState) readers cache, view { s with table :=
    { s.table with logReaderMap := readers, offsetMessage := cache } } = view s

theorem files_blindToReads : BlindToReads TableState.files := fun _ _ _ => rfl

theorem segmentIndex_blindToReads : BlindToReads (·.table.segmentIndex) := fun _ _ _ => rfl

theorem vectorAt_keeps {σ α γ : Type} (view : σ → γ) (xs : List α) (i : ℕ) :
    Exec.Keeps view (vectorAt xs i : Exec Fault σ α) := by
  unfold vectorAt
  cases xs[i]? with
  | none => exact .throw view _
  | some x => exact .pure view x

theorem modifyTable_keeps {f : Table → Table} (h : ∀ t, (f t).wf = t.wf) :
    Exec.Keeps TableState.files (Table.modifyTable f) :=
  Exec.Keeps.modify fun s => Prod.ext rfl (h s.table)

variable {γ : Type} {view : TableState → γ} (hview : BlindToReads view) (env : Env)
include hview

theorem reader_keeps (logFile : Bytes) : Exec.Keeps view (Table.reader env logFile) := by
  refine (Exec.Keeps.get _).bind fun s => ?_
  cases s.table.logReaderMap[logFile]? with
  | some rf => exact .pure _ rf
  | none =>
    refine (Exec.Keeps.lift _ _).bind fun rf => Exec.Keeps.bind ?_ fun _ => .pure _ rf
    exact Exec.Keeps.modify fun s => hview s _ s.table.offsetMessage

theorem findMessage_keeps (offset startOffset pos : ℕ) (file : Bytes) :
    Exec.Keeps view (Table.findMessage env offset startOffset pos file) := by
  refine (Exec.Keeps.get _).bind fun s => (reader_keeps hview env _).bind fun rf =>
    (Exec.Keeps.lift _ _).bind fun found => ?_
  cases found with
  | none => exact .pure _ none
  | some message => exact (Exec.Keeps.lift _ _).bind fun slice => .pure _ (some slice)

theorem fetch_keeps (offset : ℕ) : Exec.Keeps view (Table.fetch env offset) := by
  refine (Exec.Keeps.get _).bind fun s => ?_
  dsimp only
  cases s.table.offsetMessage[offset]? with
  | some message => exact .pure _ (some message)
  | none =>
    rcases Table.findOffsetPosition s.table.offsetPosMap offset with ⟨file, startOffset, pos⟩
    refine (findMessage_keeps hview env offset startOffset pos file).bind fun found => ?_
    cases found with
    | none => exact .pure _ none
    | some message =>
      refine Exec.Keeps.bind ?_ fun _ => Exec.Keeps.pure _ (some (cString message))
      exact Exec.Keeps.modify fun s => hview s s.table.logReaderMap _

theorem get_keeps (statement : Bytes) : Exec.Keeps view (Table.get env statement) := by
  refine (vectorAt_keeps _ _ 2).bind fun key => (vectorAt_keeps _ _ 3).bind fun value =>
    (vectorAt_keeps _ _ 4).bind fun text => (Exec.Keeps.get _).bind fun s => ?_
  cases s.table.segmentIndex.get key ((env.lexicalCast text).getD 0) value with
  | none => exact .pure _ none
  | some offset => exact fetch_keeps hview env offset

theorem getBatchData_keeps (startOffset endOffset : ℕ) :
    Exec.Keeps view (Table.getBatchData env startOffset endOffset) := by
  unfold Table.getBatchData
  generalize endOffset - startOffset = count
  generalize ([] : List Bytes) = data
  induction count generalizing startOffset data with
  | zero => exact .pure _ (true, data)
  | succ count ih =>
    refine (Exec.Keeps.get _).bind fun s =>
      (findMessage_keeps hview env _ _ _ _).bind fun found => ?_
    cases found with
    | none => exact .pure _ (false, data)
    | some message => exact ih (startOffset + 1) _

end Reads
end Ibdb.Storage
