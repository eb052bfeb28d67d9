import Ibdb.Storage.Record

/-! The log of a table as one sequence of bytes, of which stdio holds back a suffix, and what an
append does to it under any outcome of the calls of libc. -/
namespace Ibdb.Storage
open Base Log

/-- What is left of a message once its length has gone through 32 bits. -/
def stored (message : Bytes) : Bytes := message.take (message.length % 2 ^ 32)

@[simp] theorem stored_length (message : Bytes) :
    (stored message).length = message.length % 2 ^ 32 := by
  rw [stored, List.length_take, Nat.min_eq_left (Nat.mod_le _ _)]

theorem stored_of_lt {message : Bytes} (h : message.length < 2 ^ 32) :
    stored message = message := by
  rw [stored, Nat.mod_eq_of_lt h, List.take_length]

theorem map_stored_of_lt {ms : List Bytes} (h : ∀ m ∈ ms, m.length < 2 ^ 32) :
    ms.map stored = ms :=
  (List.map_congr_left fun m hm => stored_of_lt (h m hm)).trans (List.map_id' ms)

/-- The bytes that the three `fwrite` calls of one append take. -/
def frame (io : DiskCalls) (offset : ℕ) (slice : Bytes) : Bytes :=
  (LittleEndian.encode 8 offset).take (written 8 io.offsetField) ++
    (LittleEndian.encode 4 slice.length).take (written 4 io.sizeField) ++
    (stored slice).take (written (stored slice).length io.payload)

structure Complete (io : DiskCalls) (slice : Bytes) : Prop where
  offsetField : written 8 io.offsetField = 8
  sizeField : written 4 io.sizeField = 4
  payload : written (stored slice).length io.payload = (stored slice).length

theorem Complete.ok (slice : Bytes) : Complete .ok slice := ⟨rfl, rfl, rfl⟩

theorem frame_complete {io : DiskCalls} {slice : Bytes} (h : Complete io slice) (offset : ℕ) :
    frame io offset slice = record offset (stored slice) := by
  have hoff : (LittleEndian.encode 8 offset).take 8 = LittleEndian.encode 8 offset :=
    List.take_of_length_le (by simp)
  have hsize : (LittleEndian.encode 4 slice.length).take 4 =
      LittleEndian.encode 4 slice.length := List.take_of_length_le (by simp)
  have hmod : LittleEndian.encode 4 (slice.length % 2 ^ 32) =
      LittleEndian.encode 4 slice.length := LittleEndian.encode_mod 4 slice.length
  unfold frame record
  rw [h.offsetField, h.sizeField, h.payload, hoff, hsize, List.take_length, stored_length, hmod]

/-- A short count is a short frame. -/
theorem complete_of_length {io : DiskCalls} (offset : ℕ) {slice : Bytes}
    (h : (frame io offset slice).length = 12 + (stored slice).length) : Complete io slice := by
  have h8 := written_le 8 io.offsetField
  have h4 := written_le 4 io.sizeField
  have hp := written_le (stored slice).length io.payload
  simp only [frame, List.length_append, List.length_take, LittleEndian.encode_length,
    Nat.min_eq_left h8, Nat.min_eq_left h4, Nat.min_eq_left hp] at h
  exact ⟨by omega, by omega, by omega⟩

theorem frame_length_le (io : DiskCalls) (offset : ℕ) (slice : Bytes) :
    (frame io offset slice).length ≤ 12 + (stored slice).length := by
  simp only [frame, List.length_append, List.length_take, LittleEndian.encode_length]
  omega

theorem append_eq {data : Bytes} {result : Option ℕ} {f : UnixWritableFile}
    (hf : f.filestream = true) :
    UnixWritableFile.append data result f =
      (.ok .ok, { f with buffer := f.buffer ++ data.take (written data.length result) }) := by
  simp [UnixWritableFile.append, Exec.bind_apply, hf]

namespace WritableFileHandle

def write (data : Bytes) (w : WritableFileHandle) : WritableFileHandle :=
  { w with fileHandle := { w.fileHandle with buffer := w.fileHandle.buffer ++ data } }

@[simp] theorem write_currentPos (data : Bytes) (w : WritableFileHandle) :
    (w.write data).currentPos = w.currentPos := rfl

@[simp] theorem write_filestream (data : Bytes) (w : WritableFileHandle) :
    (w.write data).fileHandle.filestream = w.fileHandle.filestream := rfl

theorem write_write (a b : Bytes) (w : WritableFileHandle) :
    (w.write a).write b = w.write (a ++ b) := by
  simp [write]

theorem appendSlice_eq (slice : Bytes) (result : Option ℕ) {w : WritableFileHandle}
    (hf : w.fileHandle.filestream = true) :
    appendSlice slice result w =
      (.ok .ok, w.write (slice.take (written slice.length result))) := by
  simp [appendSlice, append_eq hf, write]

/-- Short counts pass unnoticed: a stream that is there takes what it takes, and the position
moves on by the whole record. -/
theorem append_eq (env : Env) (io : DiskCalls) (offset : ℕ) {slice : Bytes} {w : WritableFileHandle}
    (hf : w.fileHandle.filestream = true) (hs : slice.length % 2 ^ 32 < 2 ^ 31) :
    append env io offset slice w =
      (.ok .ok, { w.write (frame io offset slice) with
        currentPos := (w.currentPos + 12 + slice.length) % 2 ^ 32 }) := by
  have hsize : LittleEndian.encode 4 (slice.length % 2 ^ 32) =
      LittleEndian.encode 4 slice.length := LittleEndian.encode_mod 4 slice.length
  have hlive : ∀ data, (w.write data).fileHandle.filestream = true := fun _ => hf
  have h1 := appendSlice_eq (encodeFixed64 env.kLittleEndian offset) io.offsetField hf
  have h2 := fun data => appendSlice_eq (encodeFixed32 env.kLittleEndian (slice.length % 2 ^ 32))
    io.sizeField (hlive data)
  have h3 := fun logData data => appendSlice_eq logData io.payload (hlive data)
  rw [append, Exec.bind_ok h1]
  simp only [Status.isOk_ok, Bool.not_true, Bool.false_eq_true, if_false]
  rw [Exec.bind_ok (h2 _)]
  simp only [Status.isOk_ok, Bool.not_true, Bool.false_eq_true, if_false, Slice.ofBuffer_eq,
    if_pos hs, write_write]
  rw [Exec.bind_ok (Exec.lift_apply _ _), Exec.bind_ok (h3 _ _)]
  simp only [Status.isOk_ok, Bool.not_true, Bool.false_eq_true, if_false, write_write,
    encodeFixed64_eq, encodeFixed32_eq, hsize]
  rfl

theorem append_undefined (env : Env) (io : DiskCalls) (offset : ℕ) {slice : Bytes}
    {w : WritableFileHandle} (hf : w.fileHandle.filestream = true)
    (hs : 2 ^ 31 ≤ slice.length % 2 ^ 32) :
    (append env io offset slice w).1 = .error .undefined := by
  have hlive : ∀ data, (w.write data).fileHandle.filestream = true := fun _ => hf
  have h1 := appendSlice_eq (encodeFixed64 env.kLittleEndian offset) io.offsetField hf
  have h2 := fun data => appendSlice_eq (encodeFixed32 env.kLittleEndian (slice.length % 2 ^ 32))
    io.sizeField (hlive data)
  rw [append, Exec.bind_ok h1]
  simp only [Status.isOk_ok, Bool.not_true, Bool.false_eq_true, if_false]
  rw [Exec.bind_ok (h2 _)]
  simp only [Status.isOk_ok, Bool.not_true, Bool.false_eq_true, if_false, Slice.ofBuffer_eq,
    if_neg (Nat.not_lt.mpr hs)]
  rfl

theorem append_nullStream (env : Env) (io : DiskCalls) (offset : ℕ) (slice : Bytes)
    {w : WritableFileHandle} (hf : w.fileHandle.filestream = false) :
    (append env io offset slice w).1 = .error .nullStream := by
  have h1 : appendSlice (encodeFixed64 env.kLittleEndian offset) io.offsetField w =
      (.error .nullStream, w) := by
    simp [appendSlice, UnixWritableFile.append, Exec.bind_apply, hf]
  rw [append, Exec.bind_error h1]

end WritableFileHandle

namespace TableState

/-- What readers of the log see. -/
def flushed (s : TableState) : Bytes := (s.fs s.table.wf.fileHandle.path).getD []

/-- What stdio holds back. -/
def pending (s : TableState) : Bytes := s.table.wf.fileHandle.buffer

def logContents (s : TableState) : Bytes := s.flushed ++ s.pending

def drain (k : ℕ) (s : TableState) : TableState :=
  ⟨s.fs.append s.table.wf.fileHandle.path (s.pending.take k),
    { s.table with wf := { s.table.wf with
      fileHandle := { s.table.wf.fileHandle with buffer := s.pending.drop k } } }⟩

def withWriter (w : WritableFileHandle) (s : TableState) : TableState :=
  { s with table := { s.table with wf := w } }

@[simp] theorem flushed_drain (k : ℕ) (s : TableState) :
    (s.drain k).flushed = s.flushed ++ s.pending.take k := by
  simp [flushed, drain, FileSystem.append]

@[simp] theorem pending_drain (k : ℕ) (s : TableState) :
    (s.drain k).pending = s.pending.drop k := rfl

@[simp] theorem logContents_drain (k : ℕ) (s : TableState) :
    (s.drain k).logContents = s.logContents := by
  simp [logContents]

end TableState

/-- What `PutDisk` does to the table once the record is out. -/
def Table.logged (env : Env) (currentPos : ℕ) (t : Table) : Table :=
  { t with
    offsetPosMap := if t.currentOffset % env.logIndexSparseThreshold = 0
      then recordPos t.offsetPosMap t.tableManifest.currentLogFile.logName t.currentOffset
        currentPos
      else t.offsetPosMap
    currentOffset := (t.currentOffset + 1) % 2 ^ 64
    tableManifest := { t.tableManifest with currentOffset := t.currentOffset } }

/-- `PutDisk` syncs at this offset. -/
def Table.SyncDue (t : Table) : Prop := t.currentOffset % t.diskCacheThreshold = 0

instance (t : Table) : Decidable t.SyncDue := inferInstanceAs (Decidable (_ = _))

theorem syncWriter_ok {s : TableState} (hf : s.table.wf.fileHandle.filestream = true) :
    Table.syncWriter none s = (.ok .ok, s.drain s.pending.length) := by
  simp [Table.syncWriter, UnixWritableFile.sync, Exec.bind_apply, hf, UnixWritableFile.drain,
    TableState.drain, TableState.pending]

theorem syncWriter_failed {s : TableState} (hf : s.table.wf.fileHandle.filestream = true)
    (k : ℕ) :
    ∃ t, Table.syncWriter (some k) s = (.ok (.ioError s.table.wf.fileHandle.filename), t) ∧
      t.logContents = s.logContents ∧ t.table.wf.currentPos = s.table.wf.currentPos ∧
      ∃ wf, t.table = { s.table with wf := wf } := by
  refine ⟨(s.drain k).withWriter { (s.drain k).table.wf with
    fileHandle := { (s.drain k).table.wf.fileHandle with filestream := false } }, ?_, ?_, rfl, _, rfl⟩
  · simp [Table.syncWriter, UnixWritableFile.sync, Exec.bind_apply, hf, UnixWritableFile.drain,
      TableState.drain, TableState.pending, TableState.withWriter]
  · exact TableState.logContents_drain k s

def TableState.appended (io : DiskCalls) (statement : Bytes) (s : TableState) : TableState :=
  s.withWriter { s.table.wf.write (frame io s.table.currentOffset statement) with
    currentPos := (s.table.wf.currentPos + 12 + statement.length) % 2 ^ 32 }

theorem logContents_appended (io : DiskCalls) (statement : Bytes) (s : TableState) :
    (s.appended io statement).logContents =
      s.logContents ++ frame io s.table.currentOffset statement :=
  (List.append_assoc _ _ _).symm

/-- The state of `PutDisk` after the `Sync`, when one is due. -/
def TableState.synced (io : DiskCalls) (statement : Bytes) (s : TableState) : TableState :=
  let t := s.appended io statement
  if s.table.SyncDue then t.drain t.pending.length else t

theorem logContents_synced (io : DiskCalls) (statement : Bytes) (s : TableState) :
    (s.synced io statement).logContents =
      s.logContents ++ frame io s.table.currentOffset statement := by
  rw [← logContents_appended]
  unfold TableState.synced
  split
  · exact TableState.logContents_drain _ _
  · rfl

/-- The append and the `Sync` write to the log file, and move the position and the buffer of its
writer; the rest of the table is as it was. -/
theorem synced_frame (io : DiskCalls) (statement : Bytes) (s : TableState) :
    ∃ fs buffer, s.synced io statement = ⟨fs, { s.table with wf := { s.table.wf with
        currentPos := (s.table.wf.currentPos + 12 + statement.length) % 2 ^ 32
        fileHandle := { s.table.wf.fileHandle with buffer := buffer } } }⟩ ∧
      ∀ path, (s.fs path).isSome = true → (fs path).isSome = true := by
  unfold TableState.synced
  split
  · refine ⟨_, _, rfl, ?_⟩
    intro path hpath
    change (FileSystem.append s.fs s.table.wf.fileHandle.path _ path).isSome = true
    unfold FileSystem.append
    by_cases heq : path = s.table.wf.fileHandle.path
    · rw [heq, Function.update_self]
      rfl
    · rwa [Function.update_of_ne heq]
  · exact ⟨_, _, rfl, fun path hpath => hpath⟩

section PutDisk
variable (env : Env) (io : DiskCalls) {statement : Bytes} {s : TableState}

private theorem onWriter_append (hf : s.table.wf.fileHandle.filestream = true)
    (hs : statement.length % 2 ^ 32 < 2 ^ 31) :
    Table.onWriter (WritableFileHandle.append env io s.table.currentOffset statement) s =
      (.ok .ok, s.appended io statement) := by
  rw [Table.onWriter, Exec.zoom_apply, WritableFileHandle.append_eq env io _ hf hs]
  rfl

theorem putDisk_ok (hf : s.table.wf.fileHandle.filestream = true)
    (hs : statement.length % 2 ^ 32 < 2 ^ 31) (hsync : s.table.SyncDue → io.sync = none) :
    Table.putDisk env io statement s = (.ok true, { s.synced io statement with
      table := (s.synced io statement).table.logged env s.table.wf.currentPos }) := by
  have hft : (s.appended io statement).table.wf.fileHandle.filestream = true := hf
  unfold TableState.synced
  rw [Table.putDisk, Exec.bind_ok (Exec.get_apply s), Exec.bind_ok (onWriter_append env io hf hs)]
  simp only [Status.isOk_ok, Bool.not_true, Bool.false_eq_true, if_false]
  by_cases hdue : s.table.SyncDue
  · have hmod : s.table.currentOffset % s.table.diskCacheThreshold = 0 := hdue
    have hsyncs := syncWriter_ok hft
    rw [← hsync hdue] at hsyncs
    simp only [if_pos hmod, if_pos hdue]
    rw [Exec.bind_ok hsyncs]
    rfl
  · have hmod : ¬ s.table.currentOffset % s.table.diskCacheThreshold = 0 := hdue
    simp only [if_neg hmod, if_neg hdue]
    rfl

theorem putDisk_written (hf : s.table.wf.fileHandle.filestream = true)
    (hs : statement.length % 2 ^ 32 < 2 ^ 31) (hsync : s.table.SyncDue → io.sync = none) :
    ∃ t, Table.putDisk env io statement s = (.ok true, t) ∧
      t.logContents = s.logContents ++ frame io s.table.currentOffset statement ∧
      t.table.wf.currentPos = (s.table.wf.currentPos + 12 + statement.length) % 2 ^ 32 ∧
      t.table.currentOffset = (s.table.currentOffset + 1) % 2 ^ 64 ∧
      t.table.segmentIndex = s.table.segmentIndex := by
  have hcontents := logContents_synced io statement s
  have hput := putDisk_ok env io hf hs hsync
  obtain ⟨fs, buffer, heq, -⟩ := synced_frame io statement s
  rw [heq] at hcontents hput
  exact ⟨_, hput, hcontents, rfl, rfl, rfl⟩

/-- Without a stream, or with a length that is negative as an `int`, no result comes back. -/
theorem putDisk_error
    (h : s.table.wf.fileHandle.filestream = false ∨ 2 ^ 31 ≤ statement.length % 2 ^ 32) :
    ∃ fault, (Table.putDisk env io statement s).1 = .error fault ∧
      (fault = .nullStream ∨ fault = .undefined) := by
  have happend : ∃ fault, (WritableFileHandle.append env io s.table.currentOffset statement
      s.table.wf).1 = .error fault ∧ (fault = .nullStream ∨ fault = .undefined) := by
    cases hf : s.table.wf.fileHandle.filestream with
    | false => exact ⟨_, WritableFileHandle.append_nullStream env io _ statement hf, .inl rfl⟩
    | true =>
      have hs := h.resolve_left (by simp [hf])
      exact ⟨_, WritableFileHandle.append_undefined env io _ hf hs, .inr rfl⟩
  obtain ⟨fault, hfault, hkind⟩ := happend
  have hwriter : Table.onWriter (WritableFileHandle.append env io s.table.currentOffset statement)
      s = (.error fault, (Table.onWriter (WritableFileHandle.append env io
        s.table.currentOffset statement) s).2) := Prod.ext hfault rfl
  refine ⟨fault, ?_, hkind⟩
  rw [Table.putDisk, Exec.bind_ok (Exec.get_apply s), Exec.bind_error hwriter]

/-- After a failed `Sync` the record stays where it is and the position is past it; the rest of
the table is as it was. -/
theorem putDisk_sync_failed (hf : s.table.wf.fileHandle.filestream = true)
    (hs : statement.length % 2 ^ 32 < 2 ^ 31) (hdue : s.table.SyncDue) {k : ℕ}
    (hk : io.sync = some k) :
    ∃ t, Table.putDisk env io statement s = (.ok false, t) ∧
      t.logContents = s.logContents ++ frame io s.table.currentOffset statement ∧
      t.table.wf.currentPos = (s.table.wf.currentPos + 12 + statement.length) % 2 ^ 32 ∧
      ∃ wf, t.table = { s.table with wf := wf } := by
  have hmod : s.table.currentOffset % s.table.diskCacheThreshold = 0 := hdue
  have hft : (s.appended io statement).table.wf.fileHandle.filestream = true := hf
  obtain ⟨t, ht, hcontents, hpos, htable⟩ := syncWriter_failed hft k
  rw [← hk] at ht
  refine ⟨t, ?_, hcontents.trans (logContents_appended io statement s), hpos, htable⟩
  rw [Table.putDisk, Exec.bind_ok (Exec.get_apply s), Exec.bind_ok (onWriter_append env io hf hs)]
  simp only [Status.isOk_ok, Bool.not_true, Bool.false_eq_true, if_false, if_pos hmod]
  rw [Exec.bind_ok ht]
  simp

end PutDisk

end Ibdb.Storage
