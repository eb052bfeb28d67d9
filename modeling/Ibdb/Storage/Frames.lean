import Ibdb.Lib.Run
import Ibdb.Storage.Append

/-! One log file: framed appends under any offsets on one side, positioned reads on the other. -/
namespace Ibdb.Storage
open Base Log

structure LogFile where
  fs : FileSystem
  writer : WritableFileHandle

namespace LogFile

def content (f : LogFile) : Bytes := (f.fs f.writer.fileHandle.path).getD []

def buffered (f : LogFile) : Bytes := f.writer.fileHandle.buffer

def flush (k : ℕ) (f : LogFile) : LogFile :=
  let (fs, fileHandle) := UnixWritableFile.drain k (f.fs, f.writer.fileHandle)
  ⟨fs, { f.writer with fileHandle := fileHandle }⟩

end LogFile

inductive FrameOp
  | append (offset : UInt64) (message : Bytes)
  | flush (k : ℕ)

namespace FrameOp

/-- An append whose writes are complete; one that does not return OK ends the run. -/
def step (env : Env) : FrameOp → LogFile → Option LogFile
  | append offset message, f =>
    match WritableFileHandle.append env .ok offset.toNat message f.writer with
    | (.ok .ok, w) => some { f with writer := w }
    | _ => none
  | flush k, f => some (f.flush k)

def frame? : FrameOp → Option (UInt64 × Bytes)
  | append offset message => some (offset, message)
  | flush _ => none

def frames (ops : List FrameOp) : List (UInt64 × Bytes) := ops.filterMap frame?

/-- What `GetCurrentPos()` returns before each append of the run. -/
def currentPositions (env : Env) : List FrameOp → LogFile → List ℕ
  | [], _ => []
  | op :: ops, f =>
    op.frame?.toList.map (fun _ => f.writer.currentPos) ++
      ((step env op f).map (currentPositions env ops)).getD []

end FrameOp

/-- The positions met from `pos` on, each 12 and the size of its message after the one before;
the walk ends where no size can be read. -/
def walk (env : Env) (file : Bytes) : ℕ → ℕ → List ℕ
  | 0, _ => []
  | fuel + 1, pos =>
    match RandomAccessFileHandle.getMessageSize env file pos with
    | .error _ => []
    | .ok size => pos :: walk env file fuel (pos + 12 + size)

def frameChunks (ps : List (UInt64 × Bytes)) : List Bytes := ps.map fun p => record p.1.toNat p.2

def frameBytes (ps : List (UInt64 × Bytes)) : Bytes := (frameChunks ps).flatten

def frameStart (ps : List (UInt64 × Bytes)) (k : ℕ) : ℕ := Chunks.start (frameChunks ps) k

section Frames
variable {ps qs : List (UInt64 × Bytes)} {k : ℕ}

theorem frameBytes_length (ps : List (UInt64 × Bytes)) :
    (frameBytes ps).length = (ps.map fun p => 12 + p.2.length).sum := by
  simp [frameBytes, frameChunks, List.length_flatten, Function.comp_def]

theorem frameStart_succ (h : k < ps.length) :
    frameStart ps (k + 1) = frameStart ps k + 12 + ps[k].2.length := by
  rw [frameStart, Chunks.start_succ (by simpa [frameChunks] using h)]
  simp [frameChunks, frameStart, Nat.add_assoc]

theorem frameStart_length (ps : List (UInt64 × Bytes)) :
    frameStart ps ps.length = (frameBytes ps).length :=
  Chunks.start_of_length_le (by simp [frameChunks])

theorem frameStart_append (h : k ≤ ps.length) : frameStart (ps ++ qs) k = frameStart ps k := by
  rw [frameStart, frameChunks, List.map_append, Chunks.start_append (by simpa using h)]
  rfl

theorem drop_frameStart (h : k < ps.length) :
    ∃ rest, (frameBytes ps).drop (frameStart ps k) = record ps[k].1.toNat ps[k].2 ++ rest := by
  have hk : k < (frameChunks ps).length := by simpa [frameChunks] using h
  have hd := Chunks.drop_start_add hk (Nat.zero_le _)
  exact ⟨((frameChunks ps).drop (k + 1)).flatten,
    by simpa [frameBytes, frameChunks, frameStart] using hd⟩

/-- The bytes at the start of a frame, as the reads of a record take them. -/
theorem drop_frameStart_take (h : k < ps.length) :
    ∃ rest g, 12 + ps[k].2.length ≤ g ∧ (frameBytes ps).drop (frameStart ps k) =
      (record ps[k].1.toNat ps[k].2 ++ rest).take g := by
  obtain ⟨rest, hrest⟩ := drop_frameStart h
  refine ⟨rest, (record ps[k].1.toNat ps[k].2 ++ rest).length, ?_, ?_⟩
  · rw [List.length_append, record_length]
    omega
  · rw [List.take_length, hrest]

end Frames

/-- The file and what stdio holds back of it are the frames, and the position is their length. -/
structure FrameInv (file : Path) (ps : List (UInt64 × Bytes)) (f : LogFile) : Prop where
  path : f.writer.fileHandle.path = file
  filestream : f.writer.fileHandle.filestream = true
  contents : f.content ++ f.buffered = frameBytes ps
  currentPos : f.writer.currentPos = (frameBytes ps).length

/-- What the file gives back at the position `pos` of a frame. -/
structure ReadsBack (env : Env) (file : Bytes) (pos : ℕ) (offset : UInt64) (m : Bytes) : Prop where
  offset : RandomAccessFileHandle.getMessageOffset env file pos = .ok offset.toNat
  size : RandomAccessFileHandle.getMessageSize env file pos = .ok m.length
  message : RandomAccessFileHandle.getMessage env file pos = .ok (.ok m)

section RoundTrip
variable {env : Env} {file : Path} {ps : List (UInt64 × Bytes)} {f : LogFile}

theorem FrameInv.new {filename : Bytes} {fs₀ : FileSystem}
    (hempty : (fs₀ (resolve env.workingDirectory filename)).getD [] = [])
    (h : WritableFileHandle.new env filename fs₀ = (.ok f.writer, f.fs)) :
    FrameInv (resolve env.workingDirectory filename) [] f := by
  obtain ⟨fs, w⟩ := f
  cases h
  refine ⟨rfl, rfl, ?_, rfl⟩
  simp [LogFile.content, LogFile.buffered, hempty, frameBytes, frameChunks]

theorem FrameInv.flush (h : FrameInv file ps f) (k : ℕ) : FrameInv file ps (f.flush k) := by
  refine ⟨h.path, h.filestream, ?_, h.currentPos⟩
  rw [← h.contents]
  simp [LogFile.flush, LogFile.content, LogFile.buffered, UnixWritableFile.drain,
    FileSystem.append]

/-- An append adds its frame, whichever way the integers are encoded. -/
theorem FrameInv.append (h : FrameInv file ps f) (offset : UInt64) {m : Bytes}
    (hm : m.length < 2 ^ 31) (htotal : (frameBytes (ps ++ [(offset, m)])).length < 2 ^ 32) :
    ∃ g, (∀ env, FrameOp.step env (.append offset m) f = some g) ∧
      FrameInv file (ps ++ [(offset, m)]) g := by
  have hstored : stored m = m := stored_of_lt (by omega)
  have hframe : frame .ok offset.toNat m = record offset.toNat m := by
    rw [frame_complete (Complete.ok m), hstored]
  have hbytes : frameBytes (ps ++ [(offset, m)]) = frameBytes ps ++ record offset.toNat m := by
    simp [frameBytes, frameChunks]
  have happend := fun env => WritableFileHandle.append_eq env .ok offset.toNat h.filestream
    (show m.length % 2 ^ 32 < 2 ^ 31 by omega)
  simp only [hframe] at happend
  refine ⟨⟨f.fs, { f.writer.write (record offset.toNat m) with
    currentPos := (f.writer.currentPos + 12 + m.length) % 2 ^ 32 }⟩, fun env => ?_, h.path,
    h.filestream, ?_, ?_⟩
  · rw [FrameOp.step, happend env]
  · change f.content ++ (f.buffered ++ record offset.toNat m) = _
    rw [← List.append_assoc, h.contents, hbytes]
  · change (f.writer.currentPos + 12 + m.length) % 2 ^ 32 = _
    rw [hbytes, List.length_append, record_length] at htotal ⊢
    rw [h.currentPos, Nat.mod_eq_of_lt (by omega), Nat.add_assoc]

theorem readsBack_frame (reader : Env) {k : ℕ} (hk : k < ps.length)
    (hm : ps[k].2.length < 2 ^ 31 - 1) :
    ReadsBack reader (frameBytes ps) (frameStart ps k) ps[k].1 ps[k].2 := by
  obtain ⟨rest, g, hg, hdrop⟩ := drop_frameStart_take hk
  refine ⟨?_, ?_, ?_⟩
  · rw [getMessageOffset_record reader hdrop ps[k].1.toNat_lt, if_pos (by omega)]
  · rw [getMessageSize_record reader hdrop (by omega), if_pos (by omega)]
  · rw [getMessage_record reader hdrop (by omega), if_neg (by omega), if_neg (by omega), if_pos hg]

/-- From frame `k` on the walk visits the rest of the frames and stops at the end of the file. -/
theorem walk_frames (reader : Env) (hm : ∀ p ∈ ps, p.2.length < 2 ^ 31 - 1) {fuel k : ℕ}
    (hk : k ≤ ps.length) (hfuel : ps.length < fuel + k) :
    walk reader (frameBytes ps) fuel (frameStart ps k) =
      (List.range' k (ps.length - k)).map (frameStart ps) := by
  induction fuel generalizing k with
  | zero => omega
  | succ fuel ih =>
    rw [walk]
    rcases Nat.lt_or_eq_of_le hk with hlt | rfl
    · have hsize := (readsBack_frame reader hlt (hm _ (List.getElem_mem hlt))).size
      have hcount : ps.length - k = ps.length - (k + 1) + 1 := by omega
      simp only [hsize]
      rw [hcount, List.range'_succ, List.map_cons, ← frameStart_succ hlt, ih hlt (by omega)]
    · have hend : RandomAccessFileHandle.getMessageSize reader (frameBytes ps) (frameStart ps ps.length) =
          .error (.ioError (ascii "read_size is not equal message_length")) := by
        rw [frameStart_length, RandomAccessFileHandle.getMessageSize, pread,
          List.drop_eq_nil_of_le (by omega)]
        rfl
      simp [hend]

/-- Every message can be read into an `int` length and a terminated buffer, and the position
counter does not wrap. -/
def FrameBounds (ps : List (UInt64 × Bytes)) : Prop :=
  (∀ p ∈ ps, p.2.length < 2 ^ 31 - 1) ∧ (ps.map fun p => 12 + p.2.length).sum < 2 ^ 32

theorem FrameBounds.of_append {qs : List (UInt64 × Bytes)} (h : FrameBounds (ps ++ qs)) :
    FrameBounds ps := by
  obtain ⟨hm, htotal⟩ := h
  rw [List.map_append, List.sum_append] at htotal
  exact ⟨fun p hp => hm p (List.mem_append_left qs hp), by omega⟩

theorem FrameInv.step (h : FrameInv file ps f) {op : FrameOp}
    (hb : FrameBounds (ps ++ op.frame?.toList)) :
    ∃ g, (∀ env, FrameOp.step env op f = some g) ∧ FrameInv file (ps ++ op.frame?.toList) g := by
  cases op with
  | flush k =>
    exact ⟨f.flush k, fun _ => rfl, by simpa [FrameOp.frame?] using h.flush k⟩
  | append offset m =>
    obtain ⟨hm, htotal⟩ := hb
    rw [← frameBytes_length] at htotal
    have hlen := hm (offset, m) (by simp [FrameOp.frame?])
    exact h.append offset (by simp only at hlen; omega) htotal

theorem FrameInv.exists_run (h : FrameInv file ps f) (ops : List FrameOp)
    (hb : FrameBounds (ps ++ FrameOp.frames ops)) :
    ∃ g, (∀ env, run (FrameOp.step env) ops f = some g) ∧
      FrameInv file (ps ++ FrameOp.frames ops) g ∧
      ∀ env, FrameOp.currentPositions env ops f =
        (List.range' ps.length (FrameOp.frames ops).length).map
          (frameStart (ps ++ FrameOp.frames ops)) := by
  induction ops generalizing ps f with
  | nil => exact ⟨f, fun _ => rfl, by simpa [FrameOp.frames] using h, fun _ => rfl⟩
  | cons op ops ih =>
    have hsplit : FrameOp.frames (op :: ops) = op.frame?.toList ++ FrameOp.frames ops := by
      cases op <;> rfl
    rw [hsplit, ← List.append_assoc] at hb ⊢
    obtain ⟨g, hg, hnext⟩ := h.step hb.of_append
    obtain ⟨u, hu, hinv, hpos⟩ := ih hnext hb
    refine ⟨u, fun env => ?_, hinv, fun env => ?_⟩
    · rw [run, hg env, Option.bind_some, hu env]
    · rw [FrameOp.currentPositions, hg env, Option.map_some, Option.getD_some, hpos env]
      cases op with
      | flush k => simp [FrameOp.frame?]
      | append offset m =>
        have hlt : ps.length < (ps ++ [(offset, m)]).length := by simp
        have hstart : frameStart (ps ++ [(offset, m)] ++ FrameOp.frames ops) ps.length =
            f.writer.currentPos := by
          rw [frameStart_append hlt.le, frameStart_append le_rfl, frameStart_length, h.currentPos]
        simp only [FrameOp.frame?, Option.toList_some, List.map_cons, List.map_nil,
          List.singleton_append, List.length_cons, List.range'_succ] at hstart ⊢
        rw [← hstart]
        simp

end RoundTrip

/-- Every frame of the run that led from `f` to `s` reads back from the file where the writer said
it was, the positions are the file's, and a walk over the file visits them. -/
structure FramesReadBack (env reader : Env) (f s : LogFile) (ops : List FrameOp) : Prop where
  frame : ∀ pre offset m post t, ops = pre ++ .append offset m :: post →
    run (FrameOp.step env) pre f = some t →
    ReadsBack reader s.content t.writer.currentPos offset m ∧
      ∃ u, FrameOp.step env (.append offset m) t = some u ∧
        u.writer.currentPos = t.writer.currentPos + 12 + m.length
  final : s.writer.currentPos = s.content.length
  walk : ∀ fuel, (FrameOp.frames ops).length < fuel →
    walk reader s.content fuel 0 = FrameOp.currentPositions env ops f

section RoundTrip
variable {env reader : Env} {filename : Bytes} {f s : LogFile} {ops : List FrameOp}

theorem FrameInv.readBack (h : FrameInv file [] f) (hb : FrameBounds (FrameOp.frames ops))
    (hrun : run (FrameOp.step env) ops f = some s) (hflushed : s.buffered = []) :
    FramesReadBack env reader f s ops := by
  obtain ⟨s', hs', hinv, hpositions⟩ := h.exists_run ops hb
  obtain rfl : s = s' := Option.some.inj (hrun.symm.trans (hs' env))
  rw [List.nil_append] at hinv
  have hcontent : s.content = frameBytes (FrameOp.frames ops) := by
    rw [← hinv.contents, hflushed, List.append_nil]
  refine ⟨?_, ?_, ?_⟩
  · intro pre offset m post t heq ht
    have hframes : FrameOp.frames ops =
        FrameOp.frames pre ++ ((offset, m) :: FrameOp.frames post) := by
      rw [heq]
      simp [FrameOp.frames, FrameOp.frame?]
    have hpre : FrameBounds (FrameOp.frames pre ++ (FrameOp.append offset m).frame?.toList) := by
      rw [hframes, List.append_cons] at hb
      exact hb.of_append
    obtain ⟨t', ht', hat, -⟩ := h.exists_run pre hpre.of_append
    obtain rfl : t = t' := Option.some.inj (ht.symm.trans (ht' env))
    rw [List.nil_append] at hat
    have hpos : t.writer.currentPos = frameStart (FrameOp.frames ops) (FrameOp.frames pre).length := by
      rw [hframes, frameStart_append le_rfl, frameStart_length, hat.currentPos]
    constructor
    · have hk : (FrameOp.frames pre).length < (FrameOp.frames ops).length := by simp [hframes]
      have hread := readsBack_frame reader hk (hb.1 _ (List.getElem_mem hk))
      have hget : (FrameOp.frames ops)[(FrameOp.frames pre).length] = (offset, m) := by
        simp [hframes]
      rwa [hget, ← hpos, ← hcontent] at hread
    · obtain ⟨u, hu, hnext⟩ := hat.step hpre
      refine ⟨u, hu env, ?_⟩
      rw [hnext.currentPos, hat.currentPos, frameBytes_length, frameBytes_length]
      simp [FrameOp.frame?, Nat.add_assoc]
  · rw [hinv.currentPos, hcontent]
  · intro fuel hfuel
    have hwalk := walk_frames reader hb.1 (Nat.zero_le _) (show _ < fuel + 0 from hfuel)
    rw [hcontent, hpositions env]
    simpa [frameStart] using hwalk

/-- Any frames within the bounds, appended to an empty file and written out, read back as they
were put. The writer leaves the same bytes for both byte orders, and the reader may have either. -/
theorem append_readBack (env reader : Env) (filename : Bytes) {fs₀ : FileSystem}
    (hempty : (fs₀ (resolve env.workingDirectory filename)).getD [] = [])
    (hnew : WritableFileHandle.new env filename fs₀ = (.ok f.writer, f.fs))
    (hb : FrameBounds (FrameOp.frames ops)) :
    ∃ s, run (FrameOp.step env) ops f = some s ∧
      (∀ littleEndian,
        run (FrameOp.step { env with kLittleEndian := littleEndian }) ops f = some s) ∧
      (s.buffered = [] → FramesReadBack env reader f s ops) := by
  have h := FrameInv.new hempty hnew
  obtain ⟨s, hs, -, -⟩ := h.exists_run ops hb
  exact ⟨s, hs env, fun le => hs _, h.readBack hb (hs env)⟩

/-- Two frames with offsets in no order, the second message empty; all is written out in the end. -/
theorem append_readBack_two :
    let path := resolve Env.default.workingDirectory (ascii "log")
    let f : LogFile := ⟨FileSystem.append (fun _ => none) path [],
      ⟨ascii "log", 0, ⟨ascii "log", path, [], true⟩⟩⟩
    let ops : List FrameOp := [.append 7 (ascii "m"), .flush 3, .append 2 [], .flush 22]
    ∃ s, run (FrameOp.step Env.default) ops f = some s ∧
      (∀ littleEndian, run (FrameOp.step { Env.default with kLittleEndian := littleEndian }) ops f =
        some s) ∧
      s.buffered = [] ∧ FramesReadBack Env.default Env.default f s ops := by
  intro path f ops
  obtain ⟨s, hs, hboth, hread⟩ := @append_readBack f ops Env.default Env.default (ascii "log")
    (fun _ => none) rfl rfl ⟨by decide, by decide⟩
  have hflushed : (run (FrameOp.step Env.default) ops f).map LogFile.buffered = some [] := by
    decide +kernel
  rw [hs] at hflushed
  have hempty : s.buffered = [] := Option.some.inj hflushed
  exact ⟨s, hs, hboth, hempty, hread hempty⟩

end RoundTrip
end Ibdb.Storage
