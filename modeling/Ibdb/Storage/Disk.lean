import Ibdb.Base.Coding
import Ibdb.Log.Format

/-! The record log on disk: framed appends on one side, positioned reads on the other.
A record is its 64-bit offset, its 32-bit length and its bytes. -/
namespace Ibdb.Storage
open Base Log

structure WritableFileHandle where
  filename : Bytes
  currentPos : ℕ
  fileHandle : UnixWritableFile

namespace WritableFileHandle

/-- `Append(const Slice&)`. -/
def appendSlice (slice : Bytes) (result : Option ℕ) : Exec Fault WritableFileHandle Status :=
  Exec.zoom (·.fileHandle) (fun f w => { w with fileHandle := f })
    (UnixWritableFile.append slice result)

/-- `Append(uint64_t, const Slice&)`. The payload goes through `Slice(const char*, const int)`. -/
def append (env : Env) (io : DiskCalls) (offset : ℕ) (slice : Bytes) :
    Exec Fault WritableFileHandle Status := do
  let offsetByte := encodeFixed64 env.kLittleEndian offset
  let sizeByte := encodeFixed32 env.kLittleEndian (slice.length % 2 ^ 32)
  let s ← appendSlice offsetByte io.offsetField
  if !s.isOk then return s else
  let s ← appendSlice sizeByte io.sizeField
  if !s.isOk then return s else
  let logData ← Exec.lift (Slice.ofBuffer slice slice.length)
  let s ← appendSlice logData io.payload
  if !s.isOk then return s else
  Exec.modify fun w => { w with currentPos := (w.currentPos + 12 + slice.length) % 2 ^ 32 }
  return .ok

end WritableFileHandle

/-- `fopen(filename, "a+")`: the file is there afterwards, with the bytes it had. The call is taken
to succeed, and so are the `mkdir` calls before it. -/
def openAppend (env : Env) (filename : Bytes) : Exec Fault FileSystem UnixWritableFile := do
  let path := resolve env.workingDirectory filename
  Exec.modify fun fs => fs.append path []
  return ⟨filename, path, [], true⟩

def WritableFileHandle.new (env : Env) (filename : Bytes) :
    Exec Fault FileSystem WritableFileHandle := do
  return ⟨filename, 0, ← openAppend env filename⟩

/-- An open descriptor; nothing removes or replaces a log file, so its path names it. -/
structure RandomAccessFileHandle where
  path : Path

/-- `pread`: the bytes available from `offset`, up to `n`. One call is taken to transfer all of
them, also where a system stops at some count. -/
def pread (file : Bytes) (n offset : ℕ) : Bytes := (file.drop offset).take n

namespace RandomAccessFileHandle

/-- The constructor asserts that `fopen(filename, "r+")` found a regular file. -/
def new (env : Env) (fs : FileSystem) (filename : Bytes) : Except Fault RandomAccessFileHandle :=
  if (fs (resolve env.workingDirectory filename)).isSome then
    .ok ⟨resolve env.workingDirectory filename⟩
  else .error .assertFailed

def content (rf : RandomAccessFileHandle) (fs : FileSystem) : Bytes := (fs rf.path).getD []

def getMessageOffset (env : Env) (file : Bytes) (offset : ℕ) : Except Status ℕ :=
  let scratch := pread file 8 offset
  if scratch.length ≠ 8 then .error (.ioError (ascii "read_size is not equal offset_length"))
  else .ok (decodeFixed64 env.kLittleEndian scratch)

def getMessageSize (env : Env) (file : Bytes) (offset : ℕ) : Except Status ℕ :=
  let scratch := pread file 4 (offset + 8)
  if scratch.length ≠ 4 then .error (.ioError (ascii "read_size is not equal message_length"))
  else .ok (decodeFixed32 env.kLittleEndian scratch)

/-- The declared length is kept in an `int`. `new char[message_size + 1]` throws when that sum
is negative, which at `2 ^ 31 - 1` it is by wrapping: a `bad_array_new_length`, or, where the
compiler hands the converted size on, the `bad_alloc` it derives from. For the length `-1` the
array is empty, `pread` fails with `-1` as well, and the terminator is written before the array. -/
def getMessage (env : Env) (file : Bytes) (offset : ℕ) : Except Fault (Except Status Bytes) :=
  let scratch := pread file 4 (offset + 8)
  if scratch.length ≠ 4 then
    .ok (.error (.ioError (ascii "read_size is not equal message_length")))
  else
  let messageSize := toInt32 (decodeFixed32 env.kLittleEndian scratch)
  if (messageSize + 1).bmod (2 ^ 32) < 0 then .error .badAlloc
  else if messageSize = -1 then .error .undefined
  else
  let payload := pread file messageSize.toNat (offset + 12)
  if payload.length ≠ messageSize.toNat then
    .ok (.error (.ioError (ascii "read_size is not equal message_size")))
  else .ok (.ok payload)

end RandomAccessFileHandle
end Ibdb.Storage
