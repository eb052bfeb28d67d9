import Ibdb.Storage.Frames

/-! Framed appends whose writes may be short. -/
namespace Ibdb.Storage
open Base Log

namespace LogFile

/-- The file once stdio has written everything out. -/
def bytes (f : LogFile) : Bytes := f.content ++ f.buffered

def Truthful (f : LogFile) : Prop := f.writer.currentPos = f.bytes.length

end LogFile

/-- An append with what its writes return, or stdio writing out. -/
inductive AppendOp
  | append (io : DiskCalls) (offset : UInt64) (message : Bytes)
  | flush (k : ℕ)

namespace AppendOp

/-- An append that does not come back ends the run. -/
def step (env : Env) : AppendOp → LogFile → Option LogFile
  | append io offset message, f =>
    match WritableFileHandle.append env io offset.toNat message f.writer with
    | (.ok _, w) => some { f with writer := w }
    | (.error _, _) => none
  | flush k, f => some (f.flush k)

def append? : AppendOp → Option (DiskCalls × Bytes)
  | append io _ message => some (io, message)
  | flush _ => none

def appends (ops : List AppendOp) : List (DiskCalls × Bytes) := ops.filterMap append?

end AppendOp

/-- In the run every append that returns OK has added its whole frame, and after every append the
position is the length of the file. -/
def WholeFrames (env : Env) (ops : List AppendOp) (f : LogFile) : Prop :=
  ∀ pre io offset m post t status w, ops = pre ++ .append io offset m :: post →
    run (AppendOp.step env) pre f = some t →
    WritableFileHandle.append env io offset.toNat m t.writer = (.ok status, w) →
    (status = .ok → LogFile.bytes { t with writer := w } = t.bytes ++ record offset.toNat m) ∧
      LogFile.Truthful { t with writer := w }

/-- Every write is complete and no size is cut to 32 bits. -/
def WritesComplete (ops : List AppendOp) : Prop :=
  ∀ a ∈ AppendOp.appends ops, Complete a.1 a.2 ∧ a.2.length < 2 ^ 32

/-- Where the file ends when the appends have added all their bytes. -/
def endOfFile (ops : List AppendOp) (f : LogFile) : ℕ :=
  f.bytes.length + ((AppendOp.appends ops).map fun a => 12 + a.2.length).sum

section ShortWrites
variable {env : Env} {io : DiskCalls} {offset : UInt64} {m : Bytes} {f g u : LogFile}

/-- The bytes taken are the frame only if all of them were. -/
theorem frame_eq_record_iff :
    frame io offset.toNat m = record offset.toNat m ↔ Complete io m ∧ m.length < 2 ^ 32 := by
  constructor
  · intro heq
    have hle := frame_length_le io offset.toNat m
    have hlen : (frame io offset.toNat m).length = 12 + m.length := by rw [heq, record_length]
    have hmod := Nat.mod_le m.length (2 ^ 32)
    rw [stored_length] at hle
    have hlt : m.length < 2 ^ 32 := by
      have := Nat.mod_lt m.length (show 0 < 2 ^ 32 by decide)
      omega
    exact ⟨complete_of_length offset.toNat (by rw [hlen, stored_of_lt hlt]), hlt⟩
  · rintro ⟨hcomplete, hlt⟩
    rw [frame_complete hcomplete, stored_of_lt hlt]

/-- Whatever its writes take, an append that comes back returns OK. -/
theorem append_step (hf : f.writer.fileHandle.filestream = true)
    (hu : AppendOp.step env (.append io offset m) f = some u) :
    ∃ w, WritableFileHandle.append env io offset.toNat m f.writer = (.ok .ok, w) ∧
      u = { f with writer := w } ∧ u.writer.fileHandle.filestream = true ∧
      u.bytes = f.bytes ++ frame io offset.toNat m ∧
      u.writer.currentPos = (f.writer.currentPos + 12 + m.length) % 2 ^ 32 := by
  rcases Nat.lt_or_ge (m.length % 2 ^ 32) (2 ^ 31) with hlt | hge
  · have happend := WritableFileHandle.append_eq env io offset.toNat hf hlt
    rw [AppendOp.step, happend] at hu
    obtain rfl := Option.some.inj hu
    exact ⟨_, happend, rfl, hf, (List.append_assoc ..).symm, rfl⟩
  · have hundefined := WritableFileHandle.append_undefined env io offset.toNat hf hge
    rw [AppendOp.step] at hu
    split at hu
    next hok =>
      rw [hok] at hundefined
      cases hundefined
    next => cases hu

theorem bytes_flush (k : ℕ) (f : LogFile) : (f.flush k).bytes = f.bytes := by
  simp [LogFile.bytes, LogFile.flush, LogFile.content, LogFile.buffered, UnixWritableFile.drain,
    FileSystem.append]

/-- One append: its frame is whole and the position true after it exactly when its writes were
complete, the position true before it, and the 32 bits of the position enough. -/
theorem append_truthful_iff (hpos : f.writer.currentPos < 2 ^ 32)
    (hbytes : u.bytes = f.bytes ++ frame io offset.toNat m)
    (hcurrent : u.writer.currentPos = (f.writer.currentPos + 12 + m.length) % 2 ^ 32) :
    u.bytes = f.bytes ++ record offset.toNat m ∧ u.Truthful ↔
      (Complete io m ∧ m.length < 2 ^ 32) ∧ f.Truthful ∧
        f.bytes.length + (12 + m.length) < 2 ^ 32 := by
  have hcomplete : frame io offset.toNat m = record offset.toNat m ↔
      Complete io m ∧ m.length < 2 ^ 32 := frame_eq_record_iff
  rw [← hcomplete, hbytes, List.append_cancel_left_eq]
  refine and_congr_right fun hframe => ?_
  rw [LogFile.Truthful, LogFile.Truthful, hcurrent, hbytes, List.length_append, hframe,
    record_length]
  omega

theorem wholeFrames_cons_flush (k : ℕ) (ops : List AppendOp) :
    WholeFrames env (.flush k :: ops) f ↔ WholeFrames env ops (f.flush k) := by
  constructor
  · intro h pre io offset m post t status w heq ht
    exact h (.flush k :: pre) io offset m post t status w (by rw [heq]; rfl) ht
  · intro h pre io offset m post t status w heq ht
    cases pre with
    | nil => cases heq
    | cons op pre =>
      obtain ⟨rfl, hrest⟩ := List.cons.inj heq
      exact h pre io offset m post t status w hrest ht

theorem wholeFrames_cons_append (hf : f.writer.fileHandle.filestream = true)
    (hu : AppendOp.step env (.append io offset m) f = some u) (ops : List AppendOp) :
    WholeFrames env (.append io offset m :: ops) f ↔
      (u.bytes = f.bytes ++ record offset.toNat m ∧ u.Truthful) ∧ WholeFrames env ops u := by
  obtain ⟨w, happend, rfl, -⟩ := append_step hf hu
  constructor
  · intro h
    obtain ⟨hbytes, htrue⟩ := h [] io offset m ops f .ok w rfl rfl happend
    refine ⟨⟨hbytes rfl, htrue⟩, fun pre io' offset' m' post t status w' heq ht => ?_⟩
    refine h (.append io offset m :: pre) io' offset' m' post t status w' (by rw [heq]; rfl) ?_
    rw [run, hu, Option.bind_some, ht]
  · rintro ⟨⟨hbytes, htrue⟩, hlater⟩ pre io' offset' m' post t status w' heq ht hw'
    cases pre with
    | nil =>
      obtain ⟨hop, -⟩ := List.cons.inj heq
      cases hop
      cases ht
      rw [happend] at hw'
      cases hw'
      exact ⟨fun _ => hbytes, htrue⟩
    | cons op pre =>
      obtain ⟨rfl, hrest⟩ := List.cons.inj heq
      rw [run, hu, Option.bind_some] at ht
      exact hlater pre io' offset' m' post t status w' hrest ht hw'

theorem endOfFile_append (h : u.bytes = f.bytes ++ record offset.toNat m) (ops : List AppendOp) :
    endOfFile ops u = endOfFile (.append io offset m :: ops) f := by
  have hcons : AppendOp.appends (.append io offset m :: ops) = (io, m) :: AppendOp.appends ops := rfl
  rw [endOfFile, endOfFile, h, hcons, List.length_append, record_length, List.map_cons,
    List.sum_cons, Nat.add_assoc]

theorem endOfFile_cons_ge (ops : List AppendOp) :
    f.bytes.length + (12 + m.length) ≤ endOfFile (.append io offset m :: ops) f := by
  have hcons : AppendOp.appends (.append io offset m :: ops) = (io, m) :: AppendOp.appends ops := rfl
  rw [endOfFile, hcons, List.map_cons, List.sum_cons]
  exact Nat.add_le_add_left (Nat.le_add_right _ _) _

/-- In a run of appends that all come back the frames are whole and the positions true exactly when
no write was short and no message as long as `2 ^ 32`, with a position that is true from the start
and never over its 32 bits. -/
theorem wholeFrames_iff (hf : f.writer.fileHandle.filestream = true)
    (hpos : f.writer.currentPos < 2 ^ 32) {ops : List AppendOp}
    (hrun : run (AppendOp.step env) ops f = some g) :
    WholeFrames env ops f ↔
      WritesComplete ops ∧ (AppendOp.appends ops ≠ [] → f.Truthful ∧ endOfFile ops f < 2 ^ 32) := by
  induction ops generalizing f with
  | nil => exact ⟨fun _ => ⟨nofun, fun hne => absurd rfl hne⟩, fun _ pre => by simp⟩
  | cons op ops ih =>
    cases op with
    | flush k =>
      have hlive : (f.flush k).writer.fileHandle.filestream = true := hf
      have hkept := ih hlive hpos hrun
      rw [wholeFrames_cons_flush, hkept, endOfFile, LogFile.Truthful, bytes_flush]
      rfl
    | append io offset m =>
      rw [run] at hrun
      obtain ⟨u, hu, hrun⟩ := Option.bind_eq_some_iff.mp hrun
      obtain ⟨w, happend, -, hlive, hbytes, hcurrent⟩ := append_step hf hu
      have hlt : u.writer.currentPos < 2 ^ 32 := by
        rw [hcurrent]
        exact Nat.mod_lt _ (by decide)
      have hcomplete : WritesComplete (.append io offset m :: ops) ↔
          (Complete io m ∧ m.length < 2 ^ 32) ∧ WritesComplete ops := List.forall_mem_cons
      have hone := append_truthful_iff hpos hbytes hcurrent
      rw [wholeFrames_cons_append hf hu, ih hlive hlt hrun, hcomplete]
      constructor
      · rintro ⟨hwhole, hcompleteRest, hrest⟩
        obtain ⟨hcomplete, htrue, hfits⟩ := hone.mp hwhole
        refine ⟨⟨hcomplete, hcompleteRest⟩, fun _ => ⟨htrue, ?_⟩⟩
        rw [← endOfFile_append hwhole.1]
        by_cases hnone : AppendOp.appends ops = []
        · rw [endOfFile, hwhole.1, hnone, List.length_append, record_length]
          exact hfits
        · exact (hrest hnone).2
      · rintro ⟨⟨hcomplete, hcompleteRest⟩, hstart⟩
        obtain ⟨htrue, hfits⟩ := hstart (List.cons_ne_nil _ _)
        have hwhole := hone.mpr ⟨hcomplete, htrue, (endOfFile_cons_ge ops).trans_lt hfits⟩
        refine ⟨hwhole, hcompleteRest, fun _ => ⟨hwhole.2, ?_⟩⟩
        rwa [endOfFile_append hwhole.1]

def newLogFile : LogFile :=
  let path := resolve [] (ascii "log")
  ⟨FileSystem.append (fun _ => none) path [], ⟨ascii "log", 0, ⟨ascii "log", path, [], true⟩⟩⟩

theorem wholeFrames_iff_two :
    ∃ g, run (AppendOp.step Env.default) [.append .ok 0 (ascii "m"), .append .ok 1 []] newLogFile =
        some g ∧
      WholeFrames Env.default [.append .ok 0 (ascii "m"), .append .ok 1 []] newLogFile := by
  refine ⟨_, rfl, (wholeFrames_iff rfl (by decide) rfl).mpr ⟨?_, fun _ => ⟨rfl, by decide⟩⟩⟩
  intro a ha
  rcases List.mem_cons.mp ha with rfl | ha
  · exact ⟨.ok _, by decide⟩
  · obtain rfl := List.mem_singleton.mp ha
    exact ⟨.ok _, by decide⟩

/-- When nothing of the message is written, the append returns OK and the position moves past the
end of the file. -/
theorem short_write_unnoticed :
    ∃ w, WritableFileHandle.append Env.default { DiskCalls.ok with payload := some 0 } 0 (ascii "m")
        newLogFile.writer = (.ok .ok, w) ∧
      LogFile.bytes { newLogFile with writer := w } = LittleEndian.encode 8 0 ++
        LittleEndian.encode 4 1 ∧
      w.currentPos = 13 ∧
      ¬ WholeFrames Env.default [.append { DiskCalls.ok with payload := some 0 } 0 (ascii "m")]
        newLogFile := by
  have happend := @WritableFileHandle.append_eq Env.default
    { DiskCalls.ok with payload := some 0 } 0 (ascii "m") newLogFile.writer rfl (by decide)
  refine ⟨_, happend, by decide, rfl, fun h => ?_⟩
  obtain ⟨hwhole, -⟩ := h [] { DiskCalls.ok with payload := some 0 } 0 (ascii "m") []
    newLogFile .ok _ rfl rfl happend
  exact absurd (congrArg List.length (hwhole rfl)) (by decide)

end ShortWrites
end Ibdb.Storage
