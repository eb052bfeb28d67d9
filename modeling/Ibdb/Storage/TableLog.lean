import Ibdb.Storage.Append
import Ibdb.Storage.Scan

/-! The invariant of a table's log: which messages it holds, and what the counters and the sparse
index say of them. -/
namespace Ibdb.Storage
open Base Log

def logFile (env : Env) (tableName : Bytes) : Bytes :=
  Table.logDir env tableName ++ ascii "/" ++ Table.logName

def logPath (env : Env) (tableName : Bytes) : Path :=
  resolve env.workingDirectory (logFile env tableName)

/-- The log of the table holds the messages `ms`, all of them put since the file was empty, and
the counters and the sparse index say so. -/
structure LogInv (env : Env) (tableName : Bytes) (ms : List Bytes) (s : TableState) : Prop where
  name : s.table.tableManifest.name = tableName
  logName : s.table.tableManifest.currentLogFile.logName = Table.logName
  path : s.table.wf.fileHandle.path = logPath env tableName
  filestream : s.table.wf.fileHandle.filestream = true
  opened : (s.fs (logPath env tableName)).isSome = true
  contents : s.logContents = logBytes ms
  currentPos : s.table.wf.currentPos = (logBytes ms).length % 2 ^ 32
  currentOffset : s.table.currentOffset = ms.length % 2 ^ 64
  diskCacheThreshold : s.table.diskCacheThreshold = 1000
  index : SparseIndex env.logIndexSparseThreshold ms s.table.offsetPosMap
  readers : ∀ file rf, s.table.logReaderMap[file]? = some rf →
    rf.path = resolve env.workingDirectory file

/-- A table as its constructor leaves it, over a log file with the given bytes. -/
def Created (env : Env) (tableName : Bytes) (schema : List Field) (content : Bytes)
    (s : TableState) : Prop :=
  ∃ fs : FileSystem, (fs (logPath env tableName)).getD [] = content ∧
    Table.new env tableName schema fs = (.ok s.table, s.fs)

/-- The table of the constructor once the keys have their entries in the index. -/
def Table.initial (env : Env) (tableName : Bytes) (schema : List Field) (segmentIndex : Segment) :
    Table where
  tableManifest := ⟨tableName, [⟨logName, 0, indexName, 0⟩], schema, 0,
    ⟨logName, 0, indexName, 0⟩⟩
  currentOffset := 0
  segmentIndex := segmentIndex
  wf := ⟨logFile env tableName, 0, ⟨logFile env tableName, logPath env tableName, [], true⟩⟩
  logReaderMap := ∅
  diskCacheThreshold := 1000
  offsetPosMap := ∅
  offsetMessage := ∅

theorem created_iff {env : Env} {tableName : Bytes} {schema : List Field} {content : Bytes}
    {s : TableState} :
    Created env tableName schema content s ↔
      ∃ (fs : FileSystem) (seg : Segment), (fs (logPath env tableName)).getD [] = content ∧
        Table.buildKeys schema Segment.empty = (.ok (), seg) ∧
        s = ⟨fs.append (logPath env tableName) [], Table.initial env tableName schema seg⟩ := by
  unfold Created Table.new
  rcases hb : Table.buildKeys schema Segment.empty with ⟨_ | _, seg⟩
  · simp [Exec.bind_apply]
  · simp only [Exec.bind_apply, Exec.lift_apply, WritableFileHandle.new, openAppend,
      Exec.modify_apply, Exec.pure_apply, Prod.mk.injEq, Except.ok.injEq, true_and]
    constructor
    · rintro ⟨fs, hc, ht, hfs⟩
      refine ⟨fs, seg, hc, rfl, ?_⟩
      cases s
      simp only [TableState.mk.injEq]
      exact ⟨hfs.symm, ht.symm⟩
    · rintro ⟨fs, _, hc, rfl, rfl⟩
      exact ⟨fs, hc, rfl, rfl⟩

def emptyTable (env : Env) (tableName : Bytes) (schema : List Field) : TableState :=
  ⟨FileSystem.append (fun _ => none) (logPath env tableName) [],
    Table.initial env tableName schema (Table.buildKeys schema Segment.empty).2⟩

theorem created_emptyTable (env : Env) (tableName : Bytes) (schema : List Field)
    (h : (Table.buildKeys schema Segment.empty).1 = .ok ()) :
    Created env tableName schema [] (emptyTable env tableName schema) :=
  created_iff.mpr ⟨fun _ => none, _, rfl, Prod.ext h rfl, rfl⟩

def tableOver (env : Env) (tableName : Bytes) (schema : List Field) (content : Bytes) :
    TableState :=
  ⟨FileSystem.append (fun p => if p = logPath env tableName then some content else none)
      (logPath env tableName) [],
    Table.initial env tableName schema (Table.buildKeys schema Segment.empty).2⟩

theorem created_tableOver (env : Env) (tableName : Bytes) (schema : List Field) (content : Bytes)
    (h : (Table.buildKeys schema Segment.empty).1 = .ok ()) :
    Created env tableName schema content (tableOver env tableName schema content) :=
  created_iff.mpr ⟨_, _, by simp, Prod.ext h rfl, rfl⟩

section LogInv
variable {env : Env} {tableName : Bytes} {ms : List Bytes} {s : TableState}

theorem LogInv.created {schema : List Field} (h : Created env tableName schema [] s) :
    LogInv env tableName [] s := by
  obtain ⟨fs, seg, hc, -, rfl⟩ := created_iff.mp h
  have hcontents : (fs.append (logPath env tableName) []) (logPath env tableName) = some [] := by
    simp [FileSystem.append, hc]
  exact {
    name := rfl
    logName := rfl
    path := rfl
    filestream := rfl
    opened := by simp [hcontents]
    contents := by
      simp [TableState.logContents, TableState.flushed, TableState.pending, Table.initial,
        hcontents]
    currentPos := rfl
    currentOffset := rfl
    diskCacheThreshold := rfl
    index := SparseIndex.empty _
    readers := by simp [Table.initial] }

theorem LogInv.drain (h : LogInv env tableName ms s) (k : ℕ) :
    LogInv env tableName ms (s.drain k) := by
  have hopened : ((s.drain k).fs (logPath env tableName)).isSome = true := by
    simp [TableState.drain, FileSystem.append, h.path]
  exact { h with
    opened := hopened
    contents := (TableState.logContents_drain k s).trans h.contents }

/-- `PutDisk` adds its message when its writes and the `Sync` due after them succeed, and leaves
the index and the cache alone. -/
theorem LogInv.putDisk (h : LogInv env tableName ms s) {io : DiskCalls} {m : Bytes}
    (hm : m.length % 2 ^ 32 < 2 ^ 31) (hio : Complete io m)
    (hsync : s.table.SyncDue → io.sync = none) :
    ∃ t, Table.putDisk env io m s = (.ok true, t) ∧ LogInv env tableName (ms ++ [stored m]) t ∧
      t.table.segmentIndex = s.table.segmentIndex ∧
      t.table.offsetMessage = s.table.offsetMessage := by
  have hframe : frame io s.table.currentOffset m = record ms.length (stored m) := by
    have he : LittleEndian.encode 8 (ms.length % 2 ^ 64) = LittleEndian.encode 8 ms.length :=
      LittleEndian.encode_mod 8 ms.length
    rw [frame_complete hio, h.currentOffset, record, record, he]
  have hlen : (logBytes (ms ++ [stored m])).length =
      (logBytes ms).length + 12 + m.length % 2 ^ 32 := by
    rw [logBytes_concat, List.length_append, record_length, stored_length, Nat.add_assoc]
  have hcontents := logContents_synced io m s
  rw [h.contents, hframe, ← logBytes_concat] at hcontents
  have hput := putDisk_ok env io h.filestream hm hsync
  obtain ⟨fs, buffer, heq, hopened⟩ := synced_frame io m s
  rw [heq] at hcontents hput
  refine ⟨_, hput, ?_, rfl, rfl⟩
  exact {
    name := h.name
    logName := h.logName
    path := h.path
    filestream := h.filestream
    opened := hopened _ h.opened
    contents := hcontents
    currentPos := by
      change (s.table.wf.currentPos + 12 + m.length) % 2 ^ 32 = _
      rw [h.currentPos, hlen]
      omega
    currentOffset := by
      change (s.table.currentOffset + 1) % 2 ^ 64 = _
      rw [h.currentOffset, List.length_append, List.length_singleton]
      omega
    diskCacheThreshold := h.diskCacheThreshold
    index := by
      have hnext := h.index.concat (stored m)
      rw [position_length, ← h.currentOffset, ← h.currentPos, ← h.logName] at hnext
      exact hnext
    readers := h.readers }

theorem LogInv.sync (h : LogInv env tableName ms s) :
    Table.sync none s = (.ok true, s.drain s.pending.length) := by
  rw [Table.sync, Exec.bind_ok (syncWriter_ok h.filestream)]
  rfl

end LogInv
end Ibdb.Storage
