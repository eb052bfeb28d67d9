import Ibdb.Base.Slice
import Ibdb.Lib.Exec
import Ibdb.Lib.LittleEndian
import Ibdb.Lib.Owners
import Ibdb.Lib.Run

/-! The outcome of an operation, which keeps its code and message in a block of the heap. -/
namespace Ibdb.Base

namespace StatusObject

inductive Code
  | kOk
  | kNotFound
  | kCorruption
  | kNotSupported
  | kInvalidArgument
  | kIOError
  | kWaitRecord
  | kEof
  deriving DecidableEq

namespace Code

def toByte : Code → UInt8
  | kOk => 0
  | kNotFound => 1
  | kCorruption => 2
  | kNotSupported => 3
  | kInvalidArgument => 4
  | kIOError => 5
  | kWaitRecord => 6
  | kEof => 7

/-- The cast to the enumeration; other bytes are no code. -/
def ofByte (b : UInt8) : Option Code :=
  [kOk, kNotFound, kCorruption, kNotSupported, kInvalidArgument, kIOError, kWaitRecord, kEof][
    b.toNat]?

/-- What `ToString` puts before the message. -/
def type : Code → Bytes
  | kOk => ascii "OK"
  | kNotFound => ascii "NotFound: "
  | kCorruption => ascii "Corruption: "
  | kNotSupported => ascii "Not implemented: "
  | kInvalidArgument => ascii "Invalid argument: "
  | kIOError => ascii "IO error: "
  | kWaitRecord => ascii "Wait record"
  | kEof => ascii "End of file"

theorem ofByte_toByte (code : Code) : ofByte code.toByte = some code := by
  cases code <;> rfl

end Code

/-- What `ToString` puts before the message of a byte that is no code; `char` is signed. -/
def unknownType (b : UInt8) : Bytes :=
  ascii "Unknown code(" ++ ascii (toString b.toInt8.toInt) ++ ascii "): "

def poke (offset : ℕ) (data block : Bytes) : Except Fault Bytes :=
  if offset + data.length ≤ block.length then
    .ok (block.take offset ++ data ++ block.drop (offset + data.length))
  else .error .undefined

/-- `Status(code, msg, msg2)`, in a block of the given raw bytes: its sizes are of 32 bits. -/
def construct (raw : ℕ → UInt8) (code : Code) (msg msg2 : Bytes) : Except Fault Bytes := do
  if code = .kOk then .error .assertFailed else
  let len1 := msg.length % 2 ^ 32
  let len2 := msg2.length % 2 ^ 32
  let size := (len1 + if len2 = 0 then 0 else 2 + len2) % 2 ^ 32
  let result := (List.range ((size + 5) % 2 ^ 32)).map raw
  let result ← poke 0 (LittleEndian.encode 4 size) result
  let result ← poke 4 [code.toByte] result
  let result ← poke 5 (msg.take len1) result
  if len2 = 0 then return result else
  let result ← poke ((5 + len1) % 2 ^ 32) (ascii ":") result
  let result ← poke ((6 + len1) % 2 ^ 32) (ascii " ") result
  poke (7 + len1) (msg2.take len2) result

def peek (offset n : ℕ) (block : Bytes) : Except Fault Bytes :=
  if offset + n ≤ block.length then .ok ((block.drop offset).take n) else .error .undefined

def copyState (state : Bytes) : Except Fault Bytes := do
  let size := LittleEndian.decode (← peek 0 4 state)
  peek 0 ((size + 5) % 2 ^ 32) state

/-- `ToString` of a status that is not null. -/
def format (state : Bytes) : Except Fault Bytes := do
  let code ← peek 4 1 state
  let length := LittleEndian.decode (← peek 0 4 state)
  let message ← peek 5 length state
  let type := match code.head?.bind Code.ofByte with
    | some code => code.type
    | none => unknownType (code.headD 0)
  return type ++ message

end StatusObject

/-- The heap, and `state_` of each object that lives. -/
structure StatusStore (V : Type) where
  heap : ℕ → Option Bytes
  pointer : V → Option (Option ℕ)

namespace StatusObject
variable {V : Type} [DecidableEq V]

def start : StatusStore V := ⟨fun _ => none, fun _ => none⟩

def state_ (v : V) (s : StatusStore V) : Except Fault (Option ℕ) :=
  match s.pointer v with
  | none => .error .undefined
  | some p => .ok p

/-- The block a pointer leads to, if it has not been deleted. -/
def block (a : ℕ) (s : StatusStore V) : Except Fault Bytes :=
  match s.heap a with
  | none => .error .undefined
  | some b => .ok b

def delete (p : Option ℕ) (s : StatusStore V) : Except Fault (StatusStore V) :=
  match p with
  | none => .ok s
  | some a => do
    let _ ← block a s
    return { s with heap := Function.update s.heap a none }

/-- `state_ = (p == nullptr) ? nullptr : CopyState(p)`, where `new` returns the address. -/
def copyTo (v : V) (p : Option ℕ) (address : ℕ) (s : StatusStore V) :
    Except Fault (StatusStore V) :=
  match p with
  | none => .ok { s with pointer := Function.update s.pointer v (some none) }
  | some a => do
    let result ← copyState (← block a s)
    return ⟨Function.update s.heap address (some result),
      Function.update s.pointer v (some (some address))⟩

/-- `operator=`. -/
def assign (v rhs : V) (address : ℕ) (s : StatusStore V) : Except Fault (StatusStore V) := do
  let p ← state_ v s
  let q ← state_ rhs s
  if p = q then return s else
  let t ← delete p s
  copyTo v q address t

def code (v : V) (s : StatusStore V) : Except Fault (Option Code) := do
  match ← state_ v s with
  | none => return some .kOk
  | some a => do
    let b ← peek 4 1 (← block a s)
    return b.head?.bind Code.ofByte

/-- `ok()`, which looks at the pointer alone. -/
def isOk (v : V) (s : StatusStore V) : Except Fault Bool := do return (← state_ v s).isNone

/-- The shape of the other predicates. -/
def is (expected : Code) (v : V) (s : StatusStore V) : Except Fault Bool := do
  return (← code v s) = some expected

def isNotFound : V → StatusStore V → Except Fault Bool := is .kNotFound

def isCorruption : V → StatusStore V → Except Fault Bool := is .kCorruption

def isIOError : V → StatusStore V → Except Fault Bool := is .kIOError

def isNotSupportedError : V → StatusStore V → Except Fault Bool := is .kNotSupported

def isInvalidArgument : V → StatusStore V → Except Fault Bool := is .kInvalidArgument

/-- `ToString`. -/
def toText (v : V) (s : StatusStore V) : Except Fault Bytes := do
  match ← state_ v s with
  | none => return ascii "OK"
  | some a => format (← block a s)

end StatusObject

inductive StatusOp (V : Type)
  | ok (v : V)
  | make (v : V) (address : ℕ) (raw : ℕ → UInt8) (code : StatusObject.Code) (msg msg2 : Bytes)
  | copy (v rhs : V) (address : ℕ)
  | assign (v rhs : V) (address : ℕ)
  | destroy (v : V)

namespace StatusOp
variable {V : Type} [DecidableEq V]

/-- An object is constructed where none lives. -/
def exec : StatusOp V → StatusStore V → Except Fault (StatusStore V)
  | ok v, s =>
    if s.pointer v = none then .ok { s with pointer := Function.update s.pointer v (some none) }
    else .error .undefined
  | make v address raw code msg msg2, s =>
    if s.pointer v = none then do
      let result ← StatusObject.construct raw code msg msg2
      return ⟨Function.update s.heap address (some result),
        Function.update s.pointer v (some (some address))⟩
    else .error .undefined
  | copy v rhs address, s =>
    if s.pointer v = none then do StatusObject.copyTo v (← StatusObject.state_ rhs s) address s
    else .error .undefined
  | assign v rhs address, s => StatusObject.assign v rhs address s
  | destroy v, s => do
    let t ← StatusObject.delete (← StatusObject.state_ v s) s
    return { t with pointer := Function.update t.pointer v none }

def step (op : StatusOp V) (s : StatusStore V) : Option (StatusStore V) := (op.exec s).toOption

end StatusOp

/-! What the objects stand for. -/

namespace StatusObject

/-- A message that its length field and its block have room for. -/
structure Failure where
  code : Code
  text : Bytes
  failed : code ≠ .kOk
  fits : text.length + 5 < 2 ^ 32

namespace Failure

def block (failure : Failure) : Bytes :=
  LittleEndian.encode 4 failure.text.length ++ failure.code.toByte :: failure.text

theorem block_length (failure : Failure) : failure.block.length = failure.text.length + 5 := by
  simp [block]
  omega

theorem peek_size (failure : Failure) :
    peek 0 4 failure.block = .ok (LittleEndian.encode 4 failure.text.length) := by
  have hlength := failure.block_length
  rw [peek, if_pos (by omega), List.drop_zero, block,
    List.take_left' (LittleEndian.encode_length 4 _)]

theorem peek_code (failure : Failure) : peek 4 1 failure.block = .ok [failure.code.toByte] := by
  have hlength := failure.block_length
  rw [peek, if_pos (by omega), block, List.drop_left' (LittleEndian.encode_length 4 _)]
  rfl

theorem peek_text (failure : Failure) :
    peek 5 failure.text.length failure.block = .ok failure.text := by
  have hlength := failure.block_length
  have hblock : failure.block =
      (LittleEndian.encode 4 failure.text.length ++ [failure.code.toByte]) ++ failure.text := by
    rw [block, List.append_assoc]
    rfl
  rw [peek, if_pos (by omega), hblock, List.drop_left' (by simp), List.take_length]

theorem decode_size (failure : Failure) :
    LittleEndian.decode (LittleEndian.encode 4 failure.text.length) = failure.text.length := by
  have hfits := failure.fits
  rw [LittleEndian.decode_encode]
  exact Nat.mod_eq_of_lt (by norm_num; omega)

theorem copyState_block (failure : Failure) : copyState failure.block = .ok failure.block := by
  have hfits := failure.fits
  have hlength := failure.block_length
  rw [copyState, peek_size, Except.ok_bind, decode_size]
  change peek 0 ((failure.text.length + 5) % 2 ^ 32) failure.block = _
  rw [Nat.mod_eq_of_lt hfits, peek, if_pos (by omega), List.drop_zero,
    List.take_of_length_le (by omega)]

theorem format_block (failure : Failure) :
    format failure.block = .ok (failure.code.type ++ failure.text) := by
  rw [format, peek_code, Except.ok_bind, peek_size, Except.ok_bind, decode_size]
  simp only [peek_text, Except.ok_bind, List.head?_cons, Option.bind_some, Code.ofByte_toByte]
  rfl

end Failure

/-- The text of the two messages; an empty second one leaves no trace. -/
def message (msg msg2 : Bytes) : Bytes :=
  if msg2 = [] then msg else msg ++ ascii ": " ++ msg2

/-- As much of a message as a 32-bit size tells of. -/
def clipped (msg : Bytes) : Bytes := msg.take (msg.length % 2 ^ 32)

theorem clipped_length (msg : Bytes) : (clipped msg).length = msg.length % 2 ^ 32 := by
  rw [clipped, List.length_take]
  exact min_eq_left (Nat.mod_le _ _)

theorem poke_next {pre junk data : Bytes} {offset k : ℕ} (hoffset : offset = pre.length)
    (h : k + data.length ≤ junk.length) :
    poke offset data (pre ++ junk.drop k) =
      .ok ((pre ++ data) ++ junk.drop (k + data.length)) := by
  rw [poke, List.length_append, List.length_drop, if_pos (by omega), hoffset,
    List.take_left' rfl, List.drop_length_add_append, List.drop_drop]

theorem poke_past {offset : ℕ} {data block : Bytes} (h : block.length < offset + data.length) :
    poke offset data block = .error .undefined := by
  rw [poke, if_neg (by omega)]

/-- When what comes after a write cannot be done in a block of this size, nothing can. -/
theorem poke_bind {offset : ℕ} {data block : Bytes} {f : Bytes → Except Fault Bytes}
    (h : ∀ result : Bytes, result.length = block.length → f result = .error .undefined) :
    (poke offset data block >>= f) = .error .undefined := by
  unfold poke
  split_ifs with hfit
  · refine h _ ?_
    simp only [List.length_append, List.length_take, List.length_drop]
    omega
  · rfl

theorem clipped_eq_nil {msg : Bytes} : clipped msg = [] ↔ msg.length % 2 ^ 32 = 0 := by
  rw [← List.length_eq_zero_iff, clipped_length]

theorem message_length (msg msg2 : Bytes) : (message (clipped msg) (clipped msg2)).length =
    msg.length % 2 ^ 32 + if msg2.length % 2 ^ 32 = 0 then 0 else 2 + msg2.length % 2 ^ 32 := by
  unfold message
  by_cases hempty : msg2.length % 2 ^ 32 = 0
  · rw [if_pos (clipped_eq_nil.mpr hempty), if_pos hempty, clipped_length]
    rfl
  · rw [if_neg fun hnil => hempty (clipped_eq_nil.mp hnil), if_neg hempty, List.length_append,
      List.length_append, clipped_length, clipped_length]
    simp [ascii]
    omega

/-- Size, code and first message. -/
theorem poke_first {header msg junk : Bytes} {code : UInt8} (hheader : header.length = 4)
    (hroom : 5 + msg.length ≤ junk.length) (f : Bytes → Except Fault Bytes) :
    (poke 0 header junk >>= fun r => poke 4 [code] r >>= fun r => poke 5 msg r >>= f) =
      f ((header ++ [code] ++ msg) ++ junk.drop (5 + msg.length)) := by
  have h0 : poke 0 header junk = .ok (header ++ junk.drop 4) := by
    have h := @poke_next [] junk header 0 0 rfl (by omega)
    rwa [List.nil_append, List.drop_zero, Nat.zero_add, List.nil_append, hheader] at h
  have h1 : poke 4 [code] (header ++ junk.drop 4) = .ok ((header ++ [code]) ++ junk.drop 5) :=
    poke_next hheader.symm (by simp; omega)
  have h2 : poke 5 msg ((header ++ [code]) ++ junk.drop 5) =
      .ok ((header ++ [code] ++ msg) ++ junk.drop (5 + msg.length)) :=
    poke_next (by simp [hheader]) hroom
  rw [h0, Except.ok_bind, h1, Except.ok_bind, h2, Except.ok_bind]

/-- Colon, blank and second message, up to the end of the block. -/
theorem poke_second {pre msg2 junk : Bytes} {n : ℕ} (hpre : pre.length = 5 + n)
    (hroom : junk.length = 7 + n + msg2.length) (hsmall : junk.length < 2 ^ 32) :
    (poke ((5 + n) % 2 ^ 32) (ascii ":") (pre ++ junk.drop (5 + n)) >>= fun r =>
      poke ((6 + n) % 2 ^ 32) (ascii " ") r >>= fun r => poke (7 + n) msg2 r) =
      .ok (pre ++ ascii ": " ++ msg2) := by
  have h3 : poke (5 + n) (ascii ":") (pre ++ junk.drop (5 + n)) =
      .ok ((pre ++ ascii ":") ++ junk.drop (6 + n)) := by
    rw [show 6 + n = 5 + n + (ascii ":").length by simp [ascii]; omega]
    exact poke_next hpre.symm (by simp [ascii]; omega)
  have h4 : poke (6 + n) (ascii " ") ((pre ++ ascii ":") ++ junk.drop (6 + n)) =
      .ok ((pre ++ ascii ":" ++ ascii " ") ++ junk.drop (7 + n)) := by
    rw [show 7 + n = 6 + n + (ascii " ").length by simp [ascii]; omega]
    exact poke_next (by simp [hpre, ascii]; omega) (by simp [ascii]; omega)
  have h5 : poke (7 + n) msg2 ((pre ++ ascii ":" ++ ascii " ") ++ junk.drop (7 + n)) =
      .ok ((pre ++ ascii ":" ++ ascii " " ++ msg2) ++ junk.drop (7 + n + msg2.length)) :=
    poke_next (by simp [hpre, ascii]; omega) hroom.ge
  rw [Nat.mod_eq_of_lt (by omega), Nat.mod_eq_of_lt (by omega), h3, Except.ok_bind, h4,
    Except.ok_bind, h5, List.drop_eq_nil_of_le hroom.le, List.append_nil]
  simp [ascii]

/-- The constructor fills its block, and no raw byte is left in it. -/
theorem construct_fits (raw : ℕ → UInt8) {msg msg2 : Bytes} (failure : Failure)
    (htext : failure.text = message (clipped msg) (clipped msg2)) :
    construct raw failure.code msg msg2 = .ok failure.block := by
  have hfits := failure.fits
  have hlength := message_length msg msg2
  rw [← htext] at hlength
  rw [construct, if_neg failure.failed, Failure.block]
  simp only [← hlength]
  rw [Nat.mod_eq_of_lt (show failure.text.length < 2 ^ 32 by omega), Nat.mod_eq_of_lt hfits]
  generalize hjunk : (List.range (failure.text.length + 5)).map raw = junk
  have hroom : junk.length = failure.text.length + 5 := by
    rw [← hjunk, List.length_map, List.length_range]
  have hsize := LittleEndian.encode_length 4 failure.text.length
  have hfirst : msg.take (msg.length % 2 ^ 32) = clipped msg := rfl
  have hsecond : msg2.take (msg2.length % 2 ^ 32) = clipped msg2 := rfl
  rw [hfirst, hsecond, ← clipped_length msg, ← clipped_length msg2]
  rw [← clipped_length msg, ← clipped_length msg2] at hlength
  rw [poke_first hsize (by omega)]
  by_cases hempty : (clipped msg2).length = 0
  · rw [if_pos hempty] at hlength ⊢
    rw [List.drop_eq_nil_of_le (by omega), List.append_nil, htext, message,
      if_pos (List.length_eq_zero_iff.mp hempty), List.append_assoc]
    rfl
  · rw [if_neg hempty] at hlength ⊢
    rw [poke_second (by simp [hsize]; omega) (by omega) (by omega), htext, message,
      if_neg fun hnil => hempty (by rw [hnil]; rfl)]
    simp

/-- The constructor writes past its block when the block's size has wrapped around. -/
theorem construct_overflows (raw : ℕ → UInt8) {code : Code} (hcode : code ≠ .kOk)
    {msg msg2 : Bytes}
    (hlong : 2 ^ 32 ≤ (message (clipped msg) (clipped msg2)).length + 5) :
    construct raw code msg msg2 = .error .undefined := by
  rw [message_length] at hlong
  have hone := clipped_length msg
  have htwo := clipped_length msg2
  rw [construct, if_neg hcode]
  simp only
  generalize hsize : (msg.length % 2 ^ 32 + if msg2.length % 2 ^ 32 = 0 then 0
    else 2 + msg2.length % 2 ^ 32) % 2 ^ 32 = size
  have hroom : ((List.range ((size + 5) % 2 ^ 32)).map raw).length < 2 ^ 32 := by
    rw [List.length_map, List.length_range]
    exact Nat.mod_lt _ (by norm_num)
  refine poke_bind fun r0 h0 => poke_bind fun r1 h1 => ?_
  by_cases hempty : msg2.length % 2 ^ 32 = 0
  · rw [if_pos hempty] at hlong
    have hpast : poke 5 (clipped msg) r1 = .error .undefined := poke_past (by omega)
    rw [show msg.take (msg.length % 2 ^ 32) = clipped msg from rfl, hpast]
    rfl
  · rw [if_neg hempty] at hlong
    refine poke_bind fun r2 h2 => ?_
    rw [if_neg hempty]
    refine poke_bind fun r3 h3 => poke_bind fun r4 h4 => poke_past ?_
    rw [show (msg2.take (msg2.length % 2 ^ 32)).length = msg2.length % 2 ^ 32 from htwo]
    omega

def failure? (code : Code) (msg msg2 : Bytes) : Option Failure :=
  if h : code ≠ .kOk ∧ (message (clipped msg) (clipped msg2)).length + 5 < 2 ^ 32 then
    some ⟨code, message (clipped msg) (clipped msg2), h.1, h.2⟩
  else none

theorem construct_eq (raw : ℕ → UInt8) (code : Code) (msg msg2 : Bytes) :
    (construct raw code msg msg2).toOption = (failure? code msg msg2).map Failure.block := by
  unfold failure?
  split_ifs with h
  · rw [construct_fits raw ⟨code, message (clipped msg) (clipped msg2), h.1, h.2⟩ rfl]
    rfl
  · by_cases hcode : code = .kOk
    · rw [construct, if_pos hcode]
      rfl
    · rw [construct_overflows raw hcode (by
        by_contra hlt
        exact h ⟨hcode, by omega⟩)]
      rfl

def textOf : Option Failure → Bytes
  | none => ascii "OK"
  | some failure => failure.code.type ++ failure.text

def codeOf : Option Failure → Code
  | none => .kOk
  | some failure => failure.code

end StatusObject

namespace StatusOp
variable {V : Type} [DecidableEq V]
open StatusObject

/-- The operation on values that are copied whole: nothing for an object that does not live, or
lives already, and for a message there is no room for. -/
def apply (op : StatusOp V) (values : V → Option (Option Failure)) :
    Option (V → Option (Option Failure)) :=
  match op with
  | ok v => if values v = none then some (Function.update values v (some none)) else none
  | make v _ _ code msg msg2 =>
    if values v = none then
      (failure? code msg msg2).map fun failure => Function.update values v (some (some failure))
    else none
  | copy v rhs _ =>
    if values v = none then (values rhs).map fun value => Function.update values v (some value)
    else none
  | assign v rhs _ =>
    if values v = none then none
    else (values rhs).map fun value => Function.update values v (some value)
  | destroy v => if values v = none then none else some (Function.update values v none)

/-- `new` returns an address at which there is no block; an assignment may get the one it has just
deleted. -/
def Allocates : StatusOp V → StatusStore V → Prop
  | ok _, _ => True
  | make _ address _ _ _ _, s => s.heap address = none
  | copy _ _ address, s => s.heap address = none
  | assign v _ address, s => s.heap address = none ∨ s.pointer v = some (some address)
  | destroy _, _ => True

end StatusOp

namespace StatusObject
variable {V : Type}

structure Represents (s : StatusStore V) (values : V → Option (Option Failure)) : Prop where
  owners : Owners s.heap s.pointer
  values : ∀ v, Owners.value s.heap s.pointer v = (values v).map (Option.map Failure.block)

section Represents
variable {s : StatusStore V} {values : V → Option (Option Failure)}

theorem Represents.eq_none (h : Represents s values) (v : V) :
    s.pointer v = none ↔ values v = none := by
  have hvalue : Owners.value s.heap s.pointer v = none ↔ s.pointer v = none := Owners.value_eq_none
  rw [← hvalue, h.values, Option.map_eq_none_iff]

/-- An object lives and is null, or has a block with the message. -/
theorem Represents.cases (h : Represents s values) {v : V} {value : Option Failure}
    (hv : values v = some value) :
    (value = none ∧ s.pointer v = some none) ∨ ∃ failure a, value = some failure ∧
      s.pointer v = some (some a) ∧ s.heap a = some failure.block := by
  have hvalue := h.values v
  rw [hv] at hvalue
  cases value with
  | none => exact Or.inl ⟨rfl, h.owners.value_eq_some_none.mp hvalue⟩
  | some failure =>
    right
    rw [Owners.value, Option.map_some, Option.map_some, Option.map_eq_some_iff] at hvalue
    obtain ⟨p, hp, hblock⟩ := hvalue
    obtain ⟨a, rfl, ha⟩ := Option.bind_eq_some_iff.mp hblock
    exact ⟨failure, a, rfl, hp, ha⟩

theorem Represents.text (h : Represents s values) {v : V} {value : Option Failure}
    (hv : values v = some value) : toText v s = .ok (textOf value) := by
  rcases h.cases hv with ⟨rfl, hp⟩ | ⟨failure, a, rfl, hp, ha⟩
  · rw [toText, state_, hp]
    rfl
  · rw [toText, state_, hp]
    simp only [Except.ok_bind, block, ha]
    exact failure.format_block

theorem Represents.kind (h : Represents s values) {v : V} {value : Option Failure}
    (hv : values v = some value) : code v s = .ok (some (codeOf value)) := by
  rcases h.cases hv with ⟨rfl, hp⟩ | ⟨failure, a, rfl, hp, ha⟩
  · rw [code, state_, hp]
    rfl
  · rw [code, state_, hp]
    simp only [Except.ok_bind, block, ha, failure.peek_code, List.head?_cons, Option.bind_some,
      Code.ofByte_toByte]
    rfl

theorem Represents.eq_of_pointer (h : Represents s values) {v rhs : V}
    {old value : Option Failure} (hv : values v = some old) (hrhs : values rhs = some value)
    (hsame : s.pointer v = s.pointer rhs) : old = value := by
  rcases h.cases hv with ⟨rfl, hp⟩ | ⟨failure, a, rfl, hp, -⟩
  · rcases h.cases hrhs with ⟨rfl, -⟩ | ⟨failure, a, rfl, hq, -⟩
    · rfl
    · cases hp.symm.trans (hsame.trans hq)
  · cases h.owners.unshared v rhs a hp (hsame.symm.trans hp)
    exact Option.some.inj (hv.symm.trans hrhs)

variable [DecidableEq V]

theorem Represents.of_update {s' : StatusStore V} {v : V} {value : Option (Option Failure)}
    (h : Represents s values) (howners : Owners s'.heap s'.pointer)
    (hvalue : Owners.value s'.heap s'.pointer = Function.update (Owners.value s.heap s.pointer) v
      (value.map (Option.map Failure.block))) :
    Represents s' (Function.update values v value) := by
  refine ⟨howners, fun u => ?_⟩
  rw [hvalue]
  by_cases huv : u = v
  · subst huv
    rw [Function.update_self, Function.update_self]
  · rw [Function.update_of_ne huv, Function.update_of_ne huv, h.values]

theorem Represents.copied (h : Represents s values) {v rhs : V} {value : Option Failure}
    (hv : ∀ a, s.pointer v ≠ some (some a)) (hrhs : values rhs = some value) {p : Option ℕ}
    (hp : s.pointer rhs = some p) {address : ℕ} (hfresh : s.heap address = none) :
    ∃ t, copyTo v p address s = .ok t ∧
      Represents t (Function.update values v (some value)) := by
  rcases h.cases hrhs with ⟨rfl, hnull⟩ | ⟨failure, a, rfl, hpointer, ha⟩
  · cases hp.symm.trans hnull
    refine ⟨_, rfl, h.of_update (h.owners.setNull hv ?_) ?_⟩
    · intro b hb
      cases hb
    · exact Owners.value_setNull fun b hb => by cases hb
  · cases hp.symm.trans hpointer
    have hcopy : copyTo v (some a) address s =
        .ok ⟨Function.update s.heap address (some failure.block),
          Function.update s.pointer v (some (some address))⟩ := by
      simp only [copyTo, block, ha, Except.ok_bind, failure.copyState_block]
      rfl
    refine ⟨_, hcopy, h.of_update (h.owners.give hv hfresh _) ?_⟩
    exact h.owners.value_give hfresh _

/-- The old pointer is not looked at. -/
theorem copyTo_update (v : V) (p : Option ℕ) (address : ℕ) (heap : ℕ → Option Bytes)
    (pointer : V → Option (Option ℕ)) (old : Option (Option ℕ)) :
    copyTo v p address ⟨heap, Function.update pointer v old⟩ =
      copyTo v p address ⟨heap, pointer⟩ := by
  unfold copyTo
  cases p with
  | none => simp only [Function.update_idem]
  | some a => simp only [Function.update_idem, block]

/-- After `delete[]` an object is null or gone, and its block is free. -/
theorem Represents.released (h : Represents s values) {v : V} {value : Option Failure}
    (hv : values v = some value) {p : Option (Option ℕ)} (hp : ∀ a, p ≠ some (some a)) :
    ∃ old heap, s.pointer v = some old ∧ delete old s = .ok ⟨heap, s.pointer⟩ ∧
      Represents ⟨heap, Function.update s.pointer v p⟩
        (Function.update values v (p.map fun _ => none)) ∧
      ∀ address, s.heap address = none ∨ s.pointer v = some (some address) →
        heap address = none := by
  have hnull : (p.map fun _ => none).map (Option.map Failure.block) = p.map fun _ => none := by
    rw [Option.map_map]
    rfl
  rcases h.cases hv with ⟨rfl, hold⟩ | ⟨failure, a, rfl, hold, ha⟩
  · refine ⟨none, s.heap, hold, rfl, h.of_update (h.owners.setNull (by simp [hold]) hp) ?_, ?_⟩
    · rw [hnull]
      exact Owners.value_setNull hp
    · exact fun address hnew => hnew.resolve_right (by simp [hold])
  · refine ⟨some a, Function.update s.heap a none, hold, ?_, h.of_update (h.owners.drop hold hp) ?_,
      fun address hnew => ?_⟩
    · simp only [delete, block, ha]
      rfl
    · rw [hnull]
      exact h.owners.value_drop hold hp
    · by_cases heq : address = a
      · rw [heq, Function.update_self]
      · rw [Function.update_of_ne heq]
        refine hnew.resolve_right fun hsame => heq ?_
        exact (Option.some.inj (Option.some.inj (hold.symm.trans hsame))).symm

/-- `operator=`, also of an object to itself, and where `new` reuses the block just deleted. -/
theorem Represents.assigned (h : Represents s values) {v rhs : V} {old value : Option Failure}
    (hv : values v = some old) (hrhs : values rhs = some value) {address : ℕ}
    (hnew : s.heap address = none ∨ s.pointer v = some (some address)) :
    ∃ t, StatusObject.assign v rhs address s = .ok t ∧
      Represents t (Function.update values v (some value)) := by
  obtain ⟨q, hq⟩ : ∃ q, s.pointer rhs = some q :=
    Option.ne_none_iff_exists'.mp fun hnone => by simp [(h.eq_none rhs).mp hnone] at hrhs
  obtain ⟨p, heap, hp, hdelete, hgone, hfree⟩ := h.released hv (p := some none) (by simp)
  rw [StatusObject.assign, state_, state_, hq, hp]
  by_cases hsame : p = q
  · have heq : old = value := h.eq_of_pointer hv hrhs (by rw [hp, hq, hsame])
    refine ⟨s, ?_, ?_⟩
    · simp only [Except.ok_bind, if_pos hsame]
      rfl
    · rwa [← heq, ← hv, Function.update_eq_self]
  · have hne : rhs ≠ v := by
      rintro rfl
      exact hsame (Option.some.inj (hp.symm.trans hq))
    have hrhs' : Function.update values v (some none) rhs = some value := by
      rw [Function.update_of_ne hne, hrhs]
    have hq' : Function.update s.pointer v (some none) rhs = some q := by
      rw [Function.update_of_ne hne, hq]
    obtain ⟨t, ht, hnext⟩ := hgone.copied (v := v) (by simp) hrhs' hq' (hfree address hnew)
    rw [copyTo_update] at ht
    rw [Option.map_some, Function.update_idem] at hnext
    refine ⟨t, ?_, hnext⟩
    simp only [Except.ok_bind, if_neg hsame, hdelete, ht]

/-- A constructor with a message goes through when there is room for the message. -/
theorem Represents.made (h : Represents s values) {v : V} (hv : values v = none) {address : ℕ}
    (hnew : s.heap address = none) (raw : ℕ → UInt8) (code : Code) (msg msg2 : Bytes) :
    Option.Rel Represents
      ((construct raw code msg msg2).toOption.map fun result => ⟨Function.update s.heap address
        (some result), Function.update s.pointer v (some (some address))⟩)
      ((failure? code msg msg2).map fun failure =>
        Function.update values v (some (some failure))) := by
  rw [construct_eq, Option.map_map]
  cases failure? code msg msg2 with
  | none => exact .none
  | some failure =>
    refine .some (h.of_update (h.owners.give ?_ hnew _) (h.owners.value_give hnew _))
    simp [(h.eq_none v).mpr hv]

/-- Each operation does to the objects what it does to the values, and goes wrong when there is no
such value. -/
theorem Represents.step (h : Represents s values) {op : StatusOp V} (hnew : op.Allocates s) :
    Option.Rel Represents (op.step s) (op.apply values) := by
  cases op with
  | ok v =>
    rw [StatusOp.step, StatusOp.exec, StatusOp.apply]
    by_cases hv : values v = none
    · have hp : s.pointer v = none := (h.eq_none v).mpr hv
      rw [if_pos hp, if_pos hv]
      refine .some (h.of_update (h.owners.setNull ?_ nofun) (Owners.value_setNull nofun))
      simp [hp]
    · rw [if_neg (mt (h.eq_none v).mp hv), if_neg hv]
      exact .none
  | make v address raw code msg msg2 =>
    rw [StatusOp.step, StatusOp.exec, StatusOp.apply]
    by_cases hv : values v = none
    · rw [if_pos ((h.eq_none v).mpr hv), if_pos hv]
      have hmade := h.made hv hnew raw code msg msg2
      cases hresult : construct raw code msg msg2 with
      | error fault => rwa [hresult] at hmade
      | ok result => rwa [hresult] at hmade
    · rw [if_neg (mt (h.eq_none v).mp hv), if_neg hv]
      exact .none
  | copy v rhs address =>
    rw [StatusOp.step, StatusOp.exec, StatusOp.apply]
    by_cases hv : values v = none
    · have hp : s.pointer v = none := (h.eq_none v).mpr hv
      rw [if_pos hp, if_pos hv, state_]
      cases hrhs : values rhs with
      | none =>
        rw [(h.eq_none rhs).mpr hrhs]
        exact .none
      | some value =>
        cases hq : s.pointer rhs with
        | none => cases hrhs.symm.trans ((h.eq_none rhs).mp hq)
        | some p =>
          obtain ⟨t, ht, hnext⟩ := h.copied (v := v) (by simp [hp]) hrhs hq hnew
          simp only [Except.ok_bind, ht]
          exact .some hnext
    · rw [if_neg (mt (h.eq_none v).mp hv), if_neg hv]
      exact .none
  | assign v rhs address =>
    rw [StatusOp.step, StatusOp.exec, StatusOp.apply]
    cases hv : values v with
    | none =>
      rw [StatusObject.assign, state_, (h.eq_none v).mpr hv]
      exact .none
    | some old =>
      rw [if_neg (Option.some_ne_none old)]
      cases hrhs : values rhs with
      | none =>
        have hq := (h.eq_none rhs).mpr hrhs
        rw [StatusObject.assign, state_, state_, hq]
        cases s.pointer v <;> exact .none
      | some value =>
        obtain ⟨t, ht, hnext⟩ := h.assigned hv hrhs hnew
        rw [ht]
        exact .some hnext
  | destroy v =>
    rw [StatusOp.step, StatusOp.exec, StatusOp.apply, state_]
    cases hv : values v with
    | none =>
      rw [(h.eq_none v).mpr hv]
      exact .none
    | some value =>
      rw [if_neg (Option.some_ne_none value)]
      obtain ⟨p, heap, hp, hdelete, hgone, -⟩ := h.released hv (p := none) (by simp)
      rw [hp]
      simp only [Except.ok_bind, hdelete]
      exact .some hgone

end Represents

section Behaves
variable {s : StatusStore V} {values : V → Option (Option Failure)}

theorem represents_start : Represents (start : StatusStore V) fun _ => none :=
  ⟨Owners.empty, fun _ => rfl⟩

theorem Represents.isOk (h : Represents s values) {v : V} {value : Option Failure}
    (hv : values v = some value) : StatusObject.isOk v s = .ok value.isNone := by
  rcases h.cases hv with ⟨rfl, hp⟩ | ⟨failure, a, rfl, hp, -⟩
  · rw [StatusObject.isOk, state_, hp]
    rfl
  · rw [StatusObject.isOk, state_, hp]
    rfl

theorem Represents.is (h : Represents s values) {v : V} {value : Option Failure}
    (hv : values v = some value) (expected : Code) :
    StatusObject.is expected v s = .ok (decide (codeOf value = expected)) := by
  rw [StatusObject.is, h.kind hv, Except.ok_bind]
  simp only [Option.some.injEq]
  rfl

structure Behaves (s : StatusStore V) (values : V → Option (Option Failure)) : Prop where
  owners : Owners s.heap s.pointer
  lives : ∀ v, s.pointer v = none ↔ values v = none
  text : ∀ v value, values v = some value → toText v s = .ok (textOf value)
  ok : ∀ v value, values v = some value → isOk v s = .ok value.isNone
  code : ∀ v value expected, values v = some value →
    is expected v s = .ok (decide (codeOf value = expected))

end Behaves

variable [DecidableEq V]

/-- Objects behave as values that are copied whole. Every program on them goes through exactly when
it does on the values; no block is then used after it is deleted, deleted twice or lost. -/
theorem status_values {ops : List (StatusOp V)}
    (hnew : Run.Along StatusOp.step StatusOp.Allocates ops start) :
    Option.Rel Behaves (run StatusOp.step ops start) (run StatusOp.apply ops fun _ => none) := by
  have hrel : Option.Rel Represents (run StatusOp.step ops start)
      (run StatusOp.apply ops fun _ => none) := by
    refine Run.lockstep ?_ represents_start hnew
    intro op s values h hallocates
    exact h.step hallocates
  cases hs : run StatusOp.step ops start with
  | none =>
    rw [hs] at hrel
    cases ht : run StatusOp.apply ops (fun _ => none) with
    | none => exact .none
    | some values => rw [ht] at hrel; cases hrel
  | some s =>
    rw [hs] at hrel
    cases ht : run StatusOp.apply ops (fun _ => none) with
    | none => rw [ht] at hrel; cases hrel
    | some values =>
      rw [ht] at hrel
      cases hrel with
      | some h =>
        exact .some ⟨h.owners, h.eq_none, fun v value hv => h.text hv,
          fun v value hv => h.isOk hv, fun v value expected hv => h.is hv expected⟩

/-- A failure, a copy, and the copy assigned from the first, where `new` reuses the old block. -/
def copies : List (StatusOp Bool) :=
  [.make false 0 (fun _ => 255) .kIOError (ascii "disk") (ascii "full"), .copy true false 1,
    .assign true false 1, .destroy false]

theorem status_values_copies :
    Option.Rel Behaves (run StatusOp.step copies start)
      (run StatusOp.apply copies fun _ => none) := by
  refine status_values ?_
  refine Run.along_cons.mpr ⟨rfl, fun s hs => ?_⟩
  obtain rfl := Option.some.inj hs
  refine Run.along_cons.mpr ⟨rfl, fun s hs => ?_⟩
  obtain rfl := Option.some.inj hs
  refine Run.along_cons.mpr ⟨.inr rfl, fun s hs => ?_⟩
  exact Run.along_cons.mpr ⟨trivial, fun s hs => Run.along_nil _ s⟩

end StatusObject

end Ibdb.Base
