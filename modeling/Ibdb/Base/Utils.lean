import Ibdb.Base.Slice

/-! Flags, status values and string splitting. -/
namespace Ibdb.Base

/-- The flags of the storage layer, the working directory of the process as the names that lead to
it, the byte order the code was compiled for, and the two Boost routines it calls: `split` with
`is_any_of`, whose tokens are pieces of its input, and `lexical_cast<uint64_t>`, where `none` stands
for `bad_lexical_cast`. -/
structure Env where
  dbRoot : Bytes
  workingDirectory : List Bytes
  tableTimestamp : Bytes
  logIndexSparseThreshold : ℕ
  logIndexSparseThreshold_pos : 0 < logIndexSparseThreshold
  kLittleEndian : Bool
  split : Bytes → Bytes → List Bytes
  length_le_of_mem_split : ∀ full delim token, token ∈ split full delim →
    token.length ≤ full.length
  lexicalCast : Bytes → Option UInt64

/-- An error carries its first message; the `errno` text after it is left out. -/
inductive Status
  | ok
  | ioError (msg : Bytes)
  deriving DecidableEq

def Status.isOk : Status → Bool
  | ok => true
  | ioError _ => false

@[simp] theorem Status.isOk_ok : Status.ok.isOk = true := rfl

@[simp] theorem Status.isOk_ioError (msg : Bytes) : (Status.ioError msg).isOk = false := rfl

def splitString (env : Env) (full delim : Bytes) : List Bytes :=
  if full.isEmpty then [] else env.split full delim

theorem length_le_of_mem_splitString {env : Env} {full delim token : Bytes}
    (h : token ∈ splitString env full delim) : token.length ≤ full.length := by
  unfold splitString at h
  split_ifs at h
  · simp at h
  · exact env.length_le_of_mem_split full delim token h

/-- `boost::split` without token compression: every separator ends a token. -/
def boostSplit (full delim : Bytes) : List Bytes := full.splitOnP (delim.contains ·)

private theorem length_le_of_mem_splitOnP (p : UInt8 → Bool) {full token : Bytes}
    (h : token ∈ full.splitOnP p) : token.length ≤ full.length := by
  induction full generalizing token with
  | nil => simp_all
  | cons b bs ih =>
    rw [List.splitOnP_cons_eq_if_modifyHead] at h
    split_ifs at h
    · rcases List.mem_cons.mp h with rfl | h
      · simp
      · exact (ih h).trans (Nat.le_succ _)
    · cases htail : bs.splitOnP p with
      | nil => simp [htail] at h
      | cons first rest =>
        rw [htail, List.modifyHead_cons] at h
        rcases List.mem_cons.mp h with rfl | h
        · exact Nat.succ_le_succ (ih (by simp [htail]))
        · exact (ih (by simp [htail, h])).trans (Nat.le_succ _)

private def digits : Bytes → Option ℕ → Option ℕ
  | [], n => n
  | c :: cs, n =>
    if 48 ≤ c ∧ c ≤ 57 then digits cs (some (10 * n.getD 0 + (c.toNat - 48))) else none

/-- `boost::lexical_cast<uint64_t>`: decimal digits after an optional sign, in range;
a minus sign negates modulo `2 ^ 64`. -/
def boostLexicalCast (s : Bytes) : Option UInt64 := do
  let negative := s.head? = some 45
  let signed := negative ∨ s.head? = some 43
  let n ← digits (if signed then s.tail else s) none
  if n < 2 ^ 64 then some (if negative then -UInt64.ofNat n else UInt64.ofNat n) else none

/-- The defaults of `flags.cc` in a process started in `/srv`, with Boost as documented. -/
def Env.default : Env where
  dbRoot := ascii "ibdb/db"
  workingDirectory := [ascii "srv"]
  tableTimestamp := ascii "timestamp"
  logIndexSparseThreshold := 100
  logIndexSparseThreshold_pos := by decide
  kLittleEndian := true
  split := boostSplit
  length_le_of_mem_split := fun _ _ _ => length_le_of_mem_splitOnP _
  lexicalCast := boostLexicalCast

example : splitString Env.default (ascii "a,,b,") (ascii ",") =
    [ascii "a", [], ascii "b", []] := by decide

example : Env.default.lexicalCast (ascii "1024") = some 1024 := by decide

end Ibdb.Base
