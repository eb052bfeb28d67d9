import Ibdb.Base.Slice
import Ibdb.Lib.Exec
import Ibdb.Lib.Ranges
import Ibdb.Lib.Run

/-! The arena that gives out the memory of skip lists. -/
namespace Ibdb.Base

/-- Addresses are numbers and `nullptr` is 0. `blocks` has the size of each block beside its
address. -/
structure Arena where
  allocPtr : ℕ
  allocBytesRemaining : ℕ
  blocks : List AddressRange
  memoryUsage : ℕ

namespace Arena

def kBlockSize : ℕ := 4096

def new : Arena := ⟨0, 0, [], 0⟩

/-- `AllocateNewBlock(block_bytes)`, where `new char[block_bytes]` returns `block`. -/
def allocateNewBlock (block blockBytes : ℕ) : Exec Fault Arena ℕ := do
  Exec.modify fun a => { a with
    blocks := a.blocks ++ [⟨block, blockBytes⟩]
    memoryUsage := (a.memoryUsage + blockBytes + 8) % 2 ^ 64 }
  return block

def advance (bytes : ℕ) (a : Arena) : Arena :=
  { a with
    allocPtr := (a.allocPtr + bytes) % 2 ^ 64
    allocBytesRemaining := (a.allocBytesRemaining + 2 ^ 64 - bytes) % 2 ^ 64 }

def allocateFallBack (block bytes : ℕ) : Exec Fault Arena ℕ := do
  if bytes > kBlockSize / 4 then allocateNewBlock block bytes
  else
    let ptr ← allocateNewBlock block kBlockSize
    Exec.modify fun a => { a with allocPtr := ptr, allocBytesRemaining := kBlockSize }
    let result := (← Exec.get).allocPtr
    Exec.modify (advance bytes)
    return result

def allocate (block bytes : ℕ) : Exec Fault Arena ℕ := do
  if bytes = 0 then Exec.throw .assertFailed else
  let a ← Exec.get
  if bytes ≤ a.allocBytesRemaining then
    Exec.modify (advance bytes)
    return a.allocPtr
  else allocateFallBack block bytes

/-- A pointer has 8 bytes, so `align` is 8. -/
def allocateAligned (block bytes : ℕ) : Exec Fault Arena ℕ := do
  let align := 8
  let a ← Exec.get
  let currentMod := a.allocPtr &&& (align - 1)
  let slop := if currentMod = 0 then 0 else align - currentMod
  let needed := (bytes + slop) % 2 ^ 64
  let result ←
    if needed ≤ a.allocBytesRemaining then
      Exec.modify (advance needed)
      pure ((a.allocPtr + slop) % 2 ^ 64)
    else allocateFallBack block bytes
  if result &&& (align - 1) ≠ 0 then Exec.throw .assertFailed else return result

end Arena

/-- A call, what `new` returns if the call asks for a block, and where `blocks_` keeps its
pointers once it has one more. -/
structure ArenaCall where
  aligned : Bool
  bytes : ℕ
  block : ℕ
  storage : ℕ

structure Allocation where
  aligned : Bool
  range : AddressRange

/-- An arena and what was given out of it, the last first. -/
structure ArenaUse where
  arena : Arena
  given : List Allocation

namespace ArenaUse

def new : ArenaUse := ⟨.new, []⟩

end ArenaUse

namespace ArenaCall

def perform (c : ArenaCall) : Exec Fault Arena ℕ :=
  if c.aligned then Arena.allocateAligned c.block c.bytes else Arena.allocate c.block c.bytes

/-- A call that fails an assertion ends the run. -/
def step (c : ArenaCall) (s : ArenaUse) : Option ArenaUse :=
  match c.perform s.arena with
  | (.ok result, a) => some ⟨a, ⟨c.aligned, ⟨result, c.bytes⟩⟩ :: s.given⟩
  | (.error _, _) => none

end ArenaCall

/-- What `new` promises of a block when others are held: it is aligned and apart from them, and so
is the memory of the vector that holds their addresses. The address after the last is one too. -/
structure FreshBlock (blocks : List AddressRange) (storage : ℕ) (b : AddressRange) : Prop where
  aligned : b.address % 8 = 0
  nonnull : 0 < b.address
  fits : b.address + b.bytes < 2 ^ 64
  apart : ∀ q ∈ blocks, b.Apart q
  storageNonnull : 0 < storage
  storageFits : storage + 8 * (blocks.length + 1) < 2 ^ 64
  storageApart : ∀ q ∈ b :: blocks, AddressRange.Apart ⟨storage, 8 * (blocks.length + 1)⟩ q

def ArenaCall.NewIsFresh (c : ArenaCall) (s : ArenaUse) : Prop :=
  ∀ b, (c.perform s.arena).2.blocks = s.arena.blocks ++ [b] →
    FreshBlock s.arena.blocks c.storage b

/-- What was given out lies in blocks and never overlaps, and the counters are true. -/
structure ArenaUse.Sound (s : ArenaUse) : Prop where
  inside : ∀ r ∈ s.given, ∃ b ∈ s.arena.blocks, r.range.Inside b
  apart : (s.given.map (·.range)).Pairwise AddressRange.Apart
  aligned : ∀ r ∈ s.given, r.aligned = true → r.range.address % 8 = 0
  remaining : (s.arena.allocPtr = 0 ∧ s.arena.allocBytesRemaining = 0) ∨
    ∃ b ∈ s.arena.blocks, b.bytes = Arena.kBlockSize ∧ b.address ≤ s.arena.allocPtr ∧
      s.arena.allocPtr + s.arena.allocBytesRemaining = b.address + b.bytes
  memoryUsage : s.arena.memoryUsage = (s.arena.blocks.map (·.bytes + 8)).sum

/-- The invariant: the rest of the current block has not been given out either. -/
structure ArenaUse.Inv (s : ArenaUse) : Prop extends s.Sound where
  blocks : ∀ b ∈ s.arena.blocks, 0 < b.address ∧ b.address + b.bytes < 2 ^ 64
  blocksApart : s.arena.blocks.Pairwise AddressRange.Apart
  free : ∀ r ∈ s.given,
    r.range.Apart ⟨s.arena.allocPtr, s.arena.allocBytesRemaining⟩

section Arena
variable {a : Arena} {s : ArenaUse} {c : ArenaCall} {b : AddressRange}

def Arena.withBlock (b : AddressRange) (a : Arena) : Arena :=
  { a with
    blocks := a.blocks ++ [b]
    memoryUsage := (a.memoryUsage + b.bytes + 8) % 2 ^ 64 }

def Arena.at (ptr remaining : ℕ) (a : Arena) : Arena :=
  { a with allocPtr := ptr, allocBytesRemaining := remaining }

theorem Arena.advance_eq {bytes : ℕ} (hptr : a.allocPtr + bytes < 2 ^ 64)
    (hle : bytes ≤ a.allocBytesRemaining) (hlt : a.allocBytesRemaining < 2 ^ 64) :
    a.advance bytes = a.at (a.allocPtr + bytes) (a.allocBytesRemaining - bytes) := by
  have hsub : (a.allocBytesRemaining + 2 ^ 64 - bytes) % 2 ^ 64 =
      a.allocBytesRemaining - bytes := by omega
  rw [Arena.advance, Nat.mod_eq_of_lt hptr, hsub]
  rfl

theorem Arena.allocateFallBack_large {block bytes : ℕ} (h : kBlockSize / 4 < bytes) :
    allocateFallBack block bytes a = (.ok block, a.withBlock ⟨block, bytes⟩) := by
  rw [allocateFallBack, if_pos h]
  rfl

theorem Arena.allocateFallBack_small {block bytes : ℕ} (h : bytes ≤ kBlockSize / 4) :
    allocateFallBack block bytes a =
      (.ok block, ((a.withBlock ⟨block, kBlockSize⟩).at block kBlockSize).advance bytes) := by
  rw [allocateFallBack, if_neg (Nat.not_lt.mpr h)]
  rfl

theorem Arena.allocateFallBack_returns (a : Arena) (block bytes : ℕ) :
    ∃ a', allocateFallBack block bytes a = (.ok block, a') := by
  rcases Nat.lt_or_ge (kBlockSize / 4) bytes with hlarge | hsmall
  · exact ⟨_, allocateFallBack_large hlarge⟩
  · exact ⟨_, allocateFallBack_small hsmall⟩

theorem and_align (n : ℕ) : n &&& (8 - 1) = n % 8 := Nat.and_two_pow_sub_one_eq_mod n 3

/-- A request goes to the rest of the block, to a block of its own, or to a new current block. -/
inductive Arena.Grants (a : Arena) (c : ArenaCall) : ℕ → Arena → Prop
  | rest (skip : ℕ) (hroom : skip + c.bytes ≤ a.allocBytesRemaining)
      (haligned : c.aligned = true → (a.allocPtr + skip) % 8 = 0) :
      Grants a c (a.allocPtr + skip)
        (a.at (a.allocPtr + skip + c.bytes) (a.allocBytesRemaining - (skip + c.bytes)))
  | own (hfresh : FreshBlock a.blocks c.storage ⟨c.block, c.bytes⟩) :
      Grants a c c.block (a.withBlock ⟨c.block, c.bytes⟩)
  | current (hroom : c.bytes ≤ kBlockSize)
      (hfresh : FreshBlock a.blocks c.storage ⟨c.block, kBlockSize⟩) :
      Grants a c c.block
        ((a.withBlock ⟨c.block, kBlockSize⟩).at (c.block + c.bytes) (kBlockSize - c.bytes))

theorem Arena.allocateFallBack_grants
    (hfresh : ∀ b, (allocateFallBack c.block c.bytes a).2.blocks = a.blocks ++ [b] →
      FreshBlock a.blocks c.storage b) :
    ∃ a', allocateFallBack c.block c.bytes a = (.ok c.block, a') ∧ a.Grants c c.block a' ∧
      c.block % 8 = 0 := by
  rcases Nat.lt_or_ge (kBlockSize / 4) c.bytes with hlarge | hsmall
  · have hcall := @allocateFallBack_large a c.block c.bytes hlarge
    have hblock := hfresh ⟨c.block, c.bytes⟩ (by rw [hcall]; rfl)
    exact ⟨_, hcall, .own hblock, hblock.aligned⟩
  · have hcall := @allocateFallBack_small a c.block c.bytes hsmall
    have hblock := hfresh ⟨c.block, kBlockSize⟩ (by rw [hcall]; rfl)
    have hfits := hblock.fits
    have hsize : kBlockSize = 4096 := rfl
    have hroom : c.bytes ≤ kBlockSize := by omega
    rw [advance_eq (show c.block + c.bytes < 2 ^ 64 by simp only at hfits; omega) hroom
      (show kBlockSize < 2 ^ 64 by decide)] at hcall
    exact ⟨_, hcall, .current hroom hblock, hblock.aligned⟩

theorem ArenaCall.perform_grants (hend : s.arena.allocPtr + s.arena.allocBytesRemaining < 2 ^ 64)
    (hpos : 0 < c.bytes) (hle : c.bytes ≤ 2 ^ 63) (hnew : c.NewIsFresh s) :
    ∃ result a, c.perform s.arena = (.ok result, a) ∧ s.arena.Grants c result a := by
  unfold NewIsFresh at hnew
  cases haligned : c.aligned with
  | false =>
    have hperform : c.perform = Arena.allocate c.block c.bytes := by simp [perform, haligned]
    rw [hperform] at hnew ⊢
    rw [Arena.allocate, if_neg hpos.ne', Exec.bind_ok (Exec.get_apply s.arena)] at hnew ⊢
    by_cases hroom : c.bytes ≤ s.arena.allocBytesRemaining
    · rw [if_pos hroom, Exec.bind_ok (Exec.modify_apply _ _),
        Arena.advance_eq (by omega) hroom (by omega)]
      have hgrants := Arena.Grants.rest (a := s.arena) (c := c) 0 (by omega) (by simp [haligned])
      simp only [Nat.add_zero, Nat.zero_add] at hgrants
      exact ⟨_, _, rfl, hgrants⟩
    · rw [if_neg hroom] at hnew ⊢
      obtain ⟨a', hcall, hgrants, -⟩ := Arena.allocateFallBack_grants hnew
      exact ⟨_, a', hcall, hgrants⟩
  | true =>
    have hperform : c.perform = Arena.allocateAligned c.block c.bytes := by
      simp [perform, haligned]
    rw [hperform] at hnew ⊢
    rw [Arena.allocateAligned, Exec.bind_ok (Exec.get_apply s.arena)] at hnew ⊢
    simp only [and_align] at hnew ⊢
    generalize hslop : (if s.arena.allocPtr % 8 = 0 then 0 else 8 - s.arena.allocPtr % 8) = slop
      at hnew ⊢
    have hslop8 : (s.arena.allocPtr + slop) % 8 = 0 ∧ slop < 8 := by
      rw [← hslop]
      split_ifs <;> omega
    have hmod : (c.bytes + slop) % 2 ^ 64 = c.bytes + slop := by omega
    rw [hmod] at hnew ⊢
    by_cases hroom : c.bytes + slop ≤ s.arena.allocBytesRemaining
    · have hsum : c.bytes + slop = slop + c.bytes := Nat.add_comm _ _
      have hptr : (s.arena.allocPtr + slop) % 2 ^ 64 = s.arena.allocPtr + slop :=
        Nat.mod_eq_of_lt (by omega)
      rw [if_pos hroom, Exec.bind_ok (Exec.modify_apply _ _),
        Arena.advance_eq (by omega) hroom (by omega), Exec.bind_ok (Exec.pure_apply _ _), hptr,
        if_neg (not_not.mpr hslop8.1), hsum, ← Nat.add_assoc]
      exact ⟨_, _, rfl, .rest slop (hsum ▸ hroom) fun _ => hslop8.1⟩
    · rw [if_neg hroom] at hnew ⊢
      obtain ⟨a, hcall⟩ := s.arena.allocateFallBack_returns c.block c.bytes
      rw [Exec.bind_ok hcall] at hnew ⊢
      have hfresh : ∀ b, (Arena.allocateFallBack c.block c.bytes s.arena).2.blocks =
          s.arena.blocks ++ [b] → FreshBlock s.arena.blocks c.storage b := by
        intro b hb
        refine hnew b ?_
        rw [hcall] at hb
        split_ifs <;> exact hb
      obtain ⟨a', hcall', hgrants, hblock⟩ := Arena.allocateFallBack_grants hfresh
      obtain rfl : a = a' := (Prod.mk.inj (hcall.symm.trans hcall')).2
      rw [if_neg (not_not.mpr hblock)]
      exact ⟨_, _, rfl, hgrants⟩

/-! What one call keeps. -/

theorem sum_blocks (bs : List AddressRange) :
    (bs.map (·.bytes + 8)).sum = (bs.map (·.bytes)).sum + 8 * bs.length := by
  induction bs with
  | nil => rfl
  | cons b bs ih =>
    simp only [List.map_cons, List.sum_cons, List.length_cons, ih]
    omega

/-- The count of the memory does not wrap: the blocks and the vector have room for all of it. -/
theorem memoryUsage_withBlock {storage : ℕ} (hs : s.Inv)
    (hfresh : FreshBlock s.arena.blocks storage b) :
    (s.arena.withBlock b).memoryUsage = ((s.arena.blocks ++ [b]).map (·.bytes + 8)).sum := by
  let table : AddressRange := ⟨storage, 8 * (s.arena.blocks.length + 1)⟩
  let space : AddressRange := ⟨1, 2 ^ 64 - 1⟩
  have happart : (table :: b :: s.arena.blocks).Pairwise AddressRange.Apart :=
    List.pairwise_cons.mpr ⟨hfresh.storageApart,
      List.pairwise_cons.mpr ⟨hfresh.apart, hs.blocksApart⟩⟩
  have hinside : ∀ r ∈ table :: b :: s.arena.blocks, r.Inside space := by
    intro r hr
    have hbounds : 0 < r.address ∧ r.address + r.bytes < 2 ^ 64 := by
      rcases List.mem_cons.mp hr with rfl | hr
      · exact ⟨hfresh.storageNonnull, hfresh.storageFits⟩
      · rcases List.mem_cons.mp hr with rfl | hr
        · exact ⟨hfresh.nonnull, hfresh.fits⟩
        · exact hs.blocks r hr
    exact ⟨hbounds.1, show r.address + r.bytes ≤ 1 + (2 ^ 64 - 1) by omega⟩
  have htotal := AddressRange.sum_bytes_le happart hinside
  simp only [List.map_cons, List.sum_cons, table, space] at htotal
  have hold := hs.memoryUsage
  rw [sum_blocks] at hold
  rw [sum_blocks, List.map_append, List.sum_append, List.length_append]
  simp only [Arena.withBlock, List.map_cons, List.map_nil, List.sum_cons, List.sum_nil,
    List.length_singleton]
  omega

theorem pairwise_withBlock {storage : ℕ} (hs : s.Inv)
    (hfresh : FreshBlock s.arena.blocks storage b) :
    (s.arena.blocks ++ [b]).Pairwise AddressRange.Apart := by
  refine List.pairwise_append.mpr ⟨hs.blocksApart, List.pairwise_singleton _ _, fun q hq r hr => ?_⟩
  rw [List.mem_singleton.mp hr]
  exact (hfresh.apart q hq).symm

theorem forall_mem_withBlock {P : AddressRange → Prop} (h : ∀ q ∈ s.arena.blocks, P q) (hb : P b) :
    ∀ q ∈ s.arena.blocks ++ [b], P q := by
  intro q hq
  rcases List.mem_append.mp hq with hq | hq
  · exact h q hq
  · rwa [List.mem_singleton.mp hq]

/-- What was given out before is apart from a fresh block. -/
theorem apart_of_fresh {storage : ℕ} (hs : s.Inv) (hfresh : FreshBlock s.arena.blocks storage b)
    {r : Allocation} (hr : r ∈ s.given) : b.Apart r.range := by
  obtain ⟨q, hq, hinside⟩ := hs.inside r hr
  exact (hfresh.apart q hq).inside (.refl b) hinside

/-- The rest of the current block is apart from a fresh block. -/
theorem free_apart_of_fresh {storage : ℕ} (hs : s.Inv)
    (hfresh : FreshBlock s.arena.blocks storage b) :
    b.Apart ⟨s.arena.allocPtr, s.arena.allocBytesRemaining⟩ := by
  rcases hs.remaining with ⟨hptr, hzero⟩ | ⟨q, hq, -, hle, hend⟩
  · rw [hptr, hzero]
    exact .inr (Nat.zero_le _)
  · exact (hfresh.apart q hq).inside (.refl b) ⟨hle, hend.le⟩

/-- A range that is apart from all that was given out may be given out. -/
theorem pairwise_given (hs : s.Inv) {r : AddressRange} (h : ∀ q ∈ s.given, r.Apart q.range) :
    (r :: s.given.map (·.range)).Pairwise AddressRange.Apart := by
  refine List.pairwise_cons.mpr ⟨fun q hq => ?_, hs.apart⟩
  obtain ⟨g, hg, rfl⟩ := List.mem_map.mp hq
  exact h g hg

theorem inside_withBlock (hs : s.Inv) (b : AddressRange) :
    ∀ r ∈ s.given, ∃ q ∈ s.arena.blocks ++ [b], r.range.Inside q := by
  intro r hr
  obtain ⟨q, hq, hinside⟩ := hs.inside r hr
  exact ⟨q, List.mem_append_left _ hq, hinside⟩

theorem ArenaUse.Inv.grants (hs : s.Inv) (hpos : 0 < c.bytes) {result : ℕ} {a : Arena}
    (h : s.arena.Grants c result a) :
    ArenaUse.Inv ⟨a, ⟨c.aligned, ⟨result, c.bytes⟩⟩ :: s.given⟩ := by
  cases h with
  | rest skip hroom haligned =>
    let free : AddressRange := ⟨s.arena.allocPtr, s.arena.allocBytesRemaining⟩
    let r : AddressRange := ⟨s.arena.allocPtr + skip, c.bytes⟩
    obtain ⟨b, hb, hsize, hle, hend⟩ := hs.remaining.resolve_left fun hnone => by omega
    have hr : r.Inside free := ⟨Nat.le_add_right _ _, by simp only [r, free]; omega⟩
    have hrest : AddressRange.Inside ⟨s.arena.allocPtr + skip + c.bytes,
        s.arena.allocBytesRemaining - (skip + c.bytes)⟩ free :=
      ⟨by simp only [free]; omega, by simp only [free]; omega⟩
    refine ⟨⟨List.forall_mem_cons.mpr ⟨⟨b, hb, hr.trans ⟨hle, hend.le⟩⟩, hs.inside⟩,
      pairwise_given hs fun q hq => (hs.free q hq).symm.inside hr (.refl _),
      List.forall_mem_cons.mpr ⟨haligned, hs.aligned⟩, ?_, hs.memoryUsage⟩, hs.blocks,
      hs.blocksApart, List.forall_mem_cons.mpr ⟨.inl le_rfl, fun q hq =>
        (hs.free q hq).inside (.refl _) hrest⟩⟩
    refine .inr ⟨b, hb, hsize, ?_, ?_⟩
    · change b.address ≤ s.arena.allocPtr + skip + c.bytes
      omega
    · change s.arena.allocPtr + skip + c.bytes + (s.arena.allocBytesRemaining - (skip + c.bytes)) = _
      omega
  | own hfresh =>
    have hfree := free_apart_of_fresh hs hfresh
    have hmem : (⟨c.block, c.bytes⟩ : AddressRange) ∈ s.arena.blocks ++ [⟨c.block, c.bytes⟩] :=
      List.mem_append_right _ (List.mem_singleton_self _)
    refine ⟨⟨List.forall_mem_cons.mpr ⟨⟨_, hmem, .refl _⟩, inside_withBlock hs _⟩,
      pairwise_given hs fun q hq => apart_of_fresh hs hfresh hq,
      List.forall_mem_cons.mpr ⟨fun _ => hfresh.aligned, hs.aligned⟩, ?_,
      memoryUsage_withBlock hs hfresh⟩,
      forall_mem_withBlock hs.blocks ⟨hfresh.nonnull, hfresh.fits⟩, pairwise_withBlock hs hfresh,
      List.forall_mem_cons.mpr ⟨hfree, hs.free⟩⟩
    rcases hs.remaining with hnone | ⟨b, hb, hcurrent⟩
    · exact .inl hnone
    · exact .inr ⟨b, List.mem_append_left _ hb, hcurrent⟩
  | current hroom hfresh =>
    let b : AddressRange := ⟨c.block, Arena.kBlockSize⟩
    have hmem : b ∈ s.arena.blocks ++ [b] := List.mem_append_right _ (List.mem_singleton_self _)
    have hr : AddressRange.Inside ⟨c.block, c.bytes⟩ b :=
      ⟨le_rfl, Nat.add_le_add_left hroom _⟩
    have hrest : AddressRange.Inside ⟨c.block + c.bytes, Arena.kBlockSize - c.bytes⟩ b :=
      ⟨Nat.le_add_right _ _, by simp only [b]; omega⟩
    refine ⟨⟨List.forall_mem_cons.mpr ⟨⟨b, hmem, hr⟩, inside_withBlock hs b⟩,
      pairwise_given hs fun q hq => (apart_of_fresh hs hfresh hq).inside hr (.refl _),
      List.forall_mem_cons.mpr ⟨fun _ => hfresh.aligned, hs.aligned⟩, ?_,
      memoryUsage_withBlock hs hfresh⟩,
      forall_mem_withBlock hs.blocks ⟨hfresh.nonnull, hfresh.fits⟩, pairwise_withBlock hs hfresh,
      List.forall_mem_cons.mpr ⟨.inl le_rfl, fun q hq =>
        ((apart_of_fresh hs hfresh hq).inside hrest (.refl _)).symm⟩⟩
    refine .inr ⟨b, hmem, rfl, Nat.le_add_right _ _, ?_⟩
    change c.block + c.bytes + (Arena.kBlockSize - c.bytes) = c.block + Arena.kBlockSize
    omega

theorem ArenaUse.Inv.new : ArenaUse.Inv .new :=
  ⟨⟨nofun, .nil, nofun, .inl ⟨rfl, rfl⟩, rfl⟩, nofun, .nil, nofun⟩

theorem ArenaUse.Inv.end_lt (hs : s.Inv) :
    s.arena.allocPtr + s.arena.allocBytesRemaining < 2 ^ 64 := by
  rcases hs.remaining with ⟨hptr, hzero⟩ | ⟨b, hb, -, -, hend⟩
  · rw [hptr, hzero]
    decide
  · rw [hend]
    exact (hs.blocks b hb).2

/-- However the calls are mixed, each gets a range of its size. The ranges lie in the blocks and
never overlap, they are aligned where that is asked for, and the counters are true. -/
theorem arena_sound {calls : List ArenaCall}
    (hsizes : ∀ c ∈ calls, 1 ≤ c.bytes ∧ c.bytes ≤ 2 ^ 63)
    (hnew : Run.Along ArenaCall.step ArenaCall.NewIsFresh calls .new) :
    ∃ s, run ArenaCall.step calls .new = some s ∧ s.Sound ∧
      s.given.reverse.map (fun r => (r.aligned, r.range.bytes)) =
        calls.map fun c => (c.aligned, c.bytes) := by
  have hrun : ∃ s, run ArenaCall.step calls .new = some s ∧ s.Inv ∧
      s.given.reverse.map (fun r => (r.aligned, r.range.bytes)) =
        calls.map fun c => (c.aligned, c.bytes) := by
    refine Run.exists_run_along (P := fun (calls : List ArenaCall) s => ArenaUse.Inv s ∧
      s.given.reverse.map (fun r => (r.aligned, r.range.bytes)) =
        calls.map fun c => (c.aligned, c.bytes)) hnew ⟨.new, rfl⟩ ?_
    rintro pre c post s rfl ⟨hs, hgiven⟩ hfresh
    obtain ⟨hpos, hle⟩ := hsizes c (by simp)
    obtain ⟨result, a, hcall, hgrants⟩ := ArenaCall.perform_grants hs.end_lt hpos hle hfresh
    refine ⟨⟨a, ⟨c.aligned, ⟨result, c.bytes⟩⟩ :: s.given⟩, by rw [ArenaCall.step, hcall],
      hs.grants hpos hgrants, ?_⟩
    rw [List.reverse_cons, List.map_append, List.map_append, hgiven]
    rfl
  obtain ⟨s, hrun, hinv, hgiven⟩ := hrun
  exact ⟨s, hrun, hinv.toSound, hgiven⟩

/-- Ten bytes and twenty aligned ones from one block, and a large request. -/
theorem arena_sound_three :
    ∃ s, run ArenaCall.step [⟨false, 10, 4096, 64⟩, ⟨true, 20, 0, 0⟩, ⟨true, 5000, 12288, 64⟩]
        .new = some s ∧ s.Sound ∧
      s.given.reverse.map (fun r => (r.aligned, r.range.bytes)) =
        [(false, 10), (true, 20), (true, 5000)] := by
  refine arena_sound (by decide) (Run.along_cons.mpr ⟨fun b hb => ?_, fun s hs => ?_⟩)
  · obtain rfl : (⟨4096, 4096⟩ : AddressRange) = b := List.singleton_inj.mp hb
    exact ⟨rfl, by decide, by decide, by decide, by decide, by decide, by decide⟩
  obtain rfl : (⟨⟨4106, 4086, [⟨4096, 4096⟩], 4104⟩, [⟨false, ⟨4096, 10⟩⟩]⟩ : ArenaUse) = s :=
    Option.some.inj hs
  refine Run.along_cons.mpr ⟨fun b hb => ?_, fun s hs => ?_⟩
  · have hsame : [(⟨4096, 4096⟩ : AddressRange)] = [⟨4096, 4096⟩, b] := hb
    cases hsame
  obtain rfl : (⟨⟨4132, 4060, [⟨4096, 4096⟩], 4104⟩,
      [⟨true, ⟨4112, 20⟩⟩, ⟨false, ⟨4096, 10⟩⟩]⟩ : ArenaUse) = s := Option.some.inj hs
  refine Run.along_cons.mpr ⟨fun b hb => ?_, fun s hs => Run.along_nil _ s⟩
  have hblock : [⟨4096, 4096⟩, ⟨12288, 5000⟩] = [⟨4096, 4096⟩, b] := hb
  obtain rfl := (List.cons.inj (List.cons.inj hblock).2).1
  exact ⟨rfl, by decide, by decide, by decide, by decide, by decide, by decide⟩

end Arena
end Ibdb.Base
