import Ibdb.Base.Utils
import Ibdb.Lib.Exec

/-! The constants of the log's format, files opened for appending, with the bytes that stdio still
holds back, and files read from front to back. -/
namespace Ibdb.Log
open Base

inductive RecordType
  | kZeroType
  | kFullType
  | kFirstType
  | kMiddleType
  | kLastType
  | kEofType
  deriving DecidableEq

def RecordType.toNat : RecordType → ℕ
  | kZeroType => 0
  | kFullType => 1
  | kFirstType => 2
  | kMiddleType => 3
  | kLastType => 4
  | kEofType => 5

def kMaxRecordType : ℕ := RecordType.kEofType.toNat

def kBlockSize : ℕ := 4 * 1024

/-- Header is checksum (4 bytes), length (2 bytes), type (1 byte). -/
def kHeaderSize : ℕ := 4 + 2 + 1

/-- The names that lead from the root to a file. -/
abbrev Path := List Bytes

/-- One component of a path name: an empty one and `.` name nothing, and `..` goes back one
directory, which from the root is the root. -/
def Path.enter (p : Path) (c : Bytes) : Path :=
  if c = [] ∨ c = ascii "." then p
  else if c = ascii ".." then p.dropLast
  else p ++ [c]

/-- POSIX resolution of a path name that is given as a C string, from the root if it begins with a
slash, else from the working directory. There are no symbolic links, and the directories on the way
are there. -/
def resolve (workingDirectory : Path) (p : Bytes) : Path :=
  ((p.takeWhile (· ≠ 0)).splitOn 47).foldl Path.enter
    (if p.head? = some 47 then [] else workingDirectory)

/-- The regular files and the bytes that `pread` finds in each. -/
abbrev FileSystem := Path → Option Bytes

def FileSystem.append (fs : FileSystem) (p : Path) (data : Bytes) : FileSystem :=
  Function.update fs p (some ((fs p).getD [] ++ data))

/-- What the calls of libc return during one framed append and the `Sync` after it. For an
`fwrite`, `some r` is a short count of `r` bytes. For the `Sync`, `some k` is a failure
after `k` buffered bytes reached the file. -/
structure DiskCalls where
  offsetField : Option ℕ
  sizeField : Option ℕ
  payload : Option ℕ
  sync : Option ℕ

def DiskCalls.ok : DiskCalls := ⟨none, none, none, none⟩

/-- The count `fwrite` returns for a request of `n` bytes. -/
def written (n : ℕ) : Option ℕ → ℕ
  | none => n
  | some r => min r n

theorem written_le (n : ℕ) (result : Option ℕ) : written n result ≤ n := by
  cases result with
  | none => exact le_rfl
  | some r => exact Nat.min_le_right r n

/-- `buffer` holds the bytes given to `fwrite` and not yet written out; `filestream` says
that `filestream_` is not null. -/
structure UnixWritableFile where
  filename : Bytes
  path : Path
  buffer : Bytes
  filestream : Bool

namespace UnixWritableFile

def append (data : Bytes) (result : Option ℕ) : Exec Fault UnixWritableFile Status := do
  let f ← Exec.get
  if !f.filestream then Exec.throw .nullStream else
  let r := written data.length result
  Exec.modify fun f => { f with buffer := f.buffer ++ data.take r }
  -- `r` is a `size_t`: the first comparison never holds
  if r < 0 ∧ r ≠ data.length then return .ioError f.filename else
  return .ok

/-- Write out the first `k` buffered bytes, as stdio may do at any time. -/
def drain (k : ℕ) (s : FileSystem × UnixWritableFile) : FileSystem × UnixWritableFile :=
  (s.1.append s.2.path (s.2.buffer.take k), { s.2 with buffer := s.2.buffer.drop k })

def sync (result : Option ℕ) : Exec Fault (FileSystem × UnixWritableFile) Status := do
  let (_, f) ← Exec.get
  if !f.filestream then Exec.throw .nullStream else
  match result with
  | none => do
    Exec.modify (drain f.buffer.length)
    return .ok
  | some k => do
    Exec.modify (drain k)
    Exec.modify fun (fs, f) => (fs, { f with filestream := false })
    return .ioError f.filename

/-- `Flush` leaves out the `fsync` of `Sync`, which moves no byte here. -/
def flush (result : Option ℕ) : Exec Fault (FileSystem × UnixWritableFile) Status := sync result

end UnixWritableFile

/-- What a call of `read` comes to. One that a signal interrupts is made again. -/
inductive ReadCall
  | full
  | short (n : ℕ)
  | error
  deriving DecidableEq

/-- A descriptor is the bytes of the file and the position in them. `calls` are the next calls of
`read`; those after them are full. -/
structure UnixSequentialFile where
  filename : Bytes
  content : Bytes
  pos : ℕ
  calls : List ReadCall

namespace UnixSequentialFile

/-- `Read(n, result, scratch)`, with the bytes of `result`. -/
def read (n : ℕ) (f : UnixSequentialFile) : Except Status Bytes × UnixSequentialFile :=
  let rest := f.content.drop f.pos
  let filled (data : Bytes) :=
    (.ok data, { f with pos := f.pos + data.length, calls := f.calls.tail })
  match f.calls.headD .full with
  | .full => filled (rest.take n)
  | .short k => filled (rest.take (min n k))
  | .error => (.error (.ioError f.filename), { f with calls := f.calls.tail })

/-- `Skip(n)`: `lseek` takes `n` for a signed number, and refuses a position it cannot return. -/
def skip (n : UInt64) (f : UnixSequentialFile) : Status × UnixSequentialFile :=
  let pos : ℤ := f.pos + (n.toNat : ℤ).bmod (2 ^ 64)
  if 0 ≤ pos ∧ pos < 2 ^ 63 then (.ok, { f with pos := pos.toNat })
  else (.ioError f.filename, f)

end UnixSequentialFile
end Ibdb.Log
