import Ibdb.Log.Accept

/-! A log is read back as it was written, and one that was cut off as far as it goes. -/
namespace Ibdb.Log
open Base Fragmented Reader

def IbdbWriter.onEmptyFile (kLittleEndian : Bool) (t : ℕ) (directory : Path) (fs : FileSystem)
    (filename : Bytes) : FileSystem × IbdbWriter :=
  (Function.update fs (resolve directory filename) (some []),
    IbdbWriter.new kLittleEndian t ⟨filename, resolve directory filename, [], true⟩)

theorem fresh_onEmptyFile (kLittleEndian : Bool) (t : ℕ) (directory : Path) (fs : FileSystem)
    (filename : Bytes) :
    Fresh kLittleEndian (IbdbWriter.onEmptyFile kLittleEndian t directory fs filename) where
  file := Function.update_self _ _ _
  buffer := rfl
  filestream := rfl
  new := ⟨t, rfl⟩

def within (cut : ℕ) (f : Fragment) : Bool := decide (Fragment.stop f ≤ cut)

theorem Laid.pairwise {len : ℕ} {fs : List Fragment} (h : Laid len fs) :
    fs.Pairwise fun f g => Fragment.stop f ≤ g.tag := by
  induction fs generalizing len with
  | nil => exact .nil
  | cons f fs ih =>
    exact List.pairwise_cons.mpr ⟨fun g hg => h.2.2.le_tag hg, ih h.2.2⟩

section NewReader
variable (c : Bytes) (filename : Bytes) (reporter : Option (List Report)) (checksum : Bool)
  (backingStore : ℕ)

def Reader.onFile (initialOffset : UInt64) : Reader :=
  Reader.new ⟨filename, c, 0, []⟩ reporter checksum backingStore initialOffset

theorem reads_onFile (initialOffset : UInt64) :
    Reads c 0 (Reader.onFile c filename reporter checksum backingStore initialOffset) := by
  right
  exact ⟨rfl, rfl, rfl, rfl, rfl, rfl, rfl⟩

end NewReader

/-- So many answers of `ReadRecord`: the records, and false after them. -/
def recordsThenFalse (n : ℕ) (records : List Bytes) : List (Option Bytes) :=
  (records.map some ++ List.replicate n none).take n

theorem answers_records (n : ℕ) (ms : List Record) :
    (answers n (ms.map Message.labelled)).map (Option.map Prod.fst) =
      recordsThenFalse n (ms.map Message.content) := by
  unfold answers recordsThenFalse
  rw [List.map_take, List.map_append, List.map_replicate, List.map_map, List.map_map, List.map_map]
  rfl

theorem complete_eq_self {kept : Fragment → Bool} {ms : List Record}
    (h : ∀ f ∈ ms.flatMap Message.pieces, kept f = true) : complete kept ms = ms := by
  apply List.filter_eq_self.mpr
  intro m hm
  apply List.all_eq_true.mpr
  intro f hf
  exact h f (List.mem_flatMap.mpr ⟨m, hm, hf⟩)

theorem readRecords_take (kLittleEndian : Bool) (rs : List Bytes) (cut : ℕ) (filename : Bytes)
    (reporter : Option (List Report)) (checksum : Bool) (backingStore n : ℕ) :
    ∃ out r, (Reader.onFile ((layout rs).take cut) filename reporter checksum backingStore
        0).readRecords kLittleEndian n = .ok (out, r) ∧
      out.map (Option.map Prod.fst) = recordsThenFalse n
        ((complete (within cut) (recordsFrom 0 rs)).map Message.content) ∧
      r.reporter = reporter := by
  have hlaid := laid_emitted 0 rs
  have hscan := @scan_take [] _ cut (emitted 0 rs) hlaid rfl (Nat.zero_le cut) checksum
  have htrace : Trace (within cut) false (emitted 0 rs)
      (((emitted 0 rs).takeWhile (within cut)).map .piece) := by
    apply Trace.takeWhile
    apply hlaid.pairwise.imp
    intro f g hfg hg
    apply decide_eq_true
    have hstop := of_decide_eq_true hg
    unfold Fragment.stop at hstop hfg ⊢
    omega
  have hout := assemble_eq htrace
  have hfinding : Finding ((layout rs).take cut) checksum 0 0
      (((emitted 0 rs).takeWhile (within cut)).map .piece)
      (Reader.onFile ((layout rs).take cut) filename reporter checksum backingStore 0) :=
    ⟨reads_onFile _ _ _ _ _ _, hscan, rfl, rfl⟩
  have horder := inOrder_of_prefix (List.takeWhile_prefix (within cut) (l := emitted 0 rs))
  obtain ⟨r, hr, hcalm⟩ := @readRecords_spec kLittleEndian _ _ _ True reporter _ _ _ hfinding
    UInt64.not_lt_zero (fun x _ => UInt64.not_lt_zero) (fun _ => ⟨rfl, rfl, horder⟩) n
  refine ⟨_, r, hr, ?_, hcalm trivial⟩
  rw [hout, answers_records]

section RoundTrip
variable (le le' : Bool) (t : ℕ) (directory : Path) (fs : FileSystem) (logName : Bytes)
  (rs : List (ℕ × Bytes))

/-- Every record is read back, in order and then nothing, and nothing is reported. -/
theorem log_roundTrip :
    ∃ s content,
      IbdbWriter.addRecords le rs (IbdbWriter.onEmptyFile le t directory fs logName) =
        (.ok (rs.map fun _ => .ok), s) ∧
      s.1 (resolve directory logName) = some content ∧
      ∀ filename reporter checksum backingStore n, ∃ out r,
        (Reader.onFile content filename reporter checksum backingStore 0).readRecords le' n =
          .ok (out, r) ∧
        out.map (Option.map Prod.fst) = recordsThenFalse n (rs.map Prod.snd) ∧
        r.reporter = reporter := by
  obtain ⟨s, hadd, hfile⟩ := (fresh_onEmptyFile le t directory fs logName).addRecords rs
  refine ⟨s, _, hadd, hfile, fun filename reporter checksum backingStore n => ?_⟩
  obtain ⟨out, r, hread, hout, hreporter⟩ := readRecords_take le' (rs.map Prod.snd)
    (layout (rs.map Prod.snd)).length filename reporter checksum backingStore n
  have hall : complete (within (layout (rs.map Prod.snd)).length)
      (recordsFrom 0 (rs.map Prod.snd)) = recordsFrom 0 (rs.map Prod.snd) := by
    have hlaid := laid_emitted 0 (rs.map Prod.snd)
    have hlength := hlaid.length
    rw [Nat.zero_add] at hlength
    apply complete_eq_self
    intro f hf
    apply decide_eq_true
    rw [layout, hlength]
    exact hlaid.stop_le hf
  rw [hall, recordsFrom_content] at hout
  rw [List.take_length] at hread
  exact ⟨out, r, hread, hout, hreporter⟩

/-- From a log that is cut off anywhere the records are read whose fragments are all in what is
left, and nothing is reported. -/
theorem truncatedLog_read :
    ∃ s content,
      IbdbWriter.addRecords le rs (IbdbWriter.onEmptyFile le t directory fs logName) =
        (.ok (rs.map fun _ => .ok), s) ∧
      s.1 (resolve directory logName) = some content ∧
      ∀ cut filename reporter backingStore n, ∃ out r,
        (Reader.onFile (content.take cut) filename reporter true backingStore 0).readRecords le' n =
          .ok (out, r) ∧
        out.map (Option.map Prod.fst) = recordsThenFalse n
          ((complete (within cut) (recordsFrom 0 (rs.map Prod.snd))).map Message.content) ∧
        r.reporter = reporter := by
  obtain ⟨s, hadd, hfile⟩ := (fresh_onEmptyFile le t directory fs logName).addRecords rs
  refine ⟨s, _, hadd, hfile, fun cut filename reporter backingStore n => ?_⟩
  exact readRecords_take le' (rs.map Prod.snd) cut filename reporter true backingStore n

end RoundTrip

/-! A second writer goes on where a first one stopped. -/

def IbdbWriter.onFile (kLittleEndian : Bool) (t : ℕ) (directory : Path) (fs : FileSystem)
    (filename : Bytes) (destLength : ℕ) : FileSystem × IbdbWriter :=
  (fs.append (resolve directory filename) [],
    IbdbWriter.newAt kLittleEndian t ⟨filename, resolve directory filename, [], true⟩ destLength)

/-- `block_offset_` is 0 at the end of a block, where that of the first writer is 4096. -/
theorem writes_onFile (kLittleEndian : Bool) (t : ℕ) {directory : Path} {fs : FileSystem}
    {filename content : Bytes}
    (hfile : fs (resolve directory filename) = some content) :
    Writes content (IbdbWriter.onFile kLittleEndian t directory fs filename content.length) where
  filestream := rfl
  buffer := rfl
  file := by simp [IbdbWriter.onFile, IbdbWriter.newAt, FileSystem.append, hfile]
  blockOffset_le := (Nat.mod_lt content.length (by decide)).le
  blockOffset_mod := Nat.mod_mod content.length kBlockSize
  typeCrc := IbdbWriter.initTypeCrc_getD kLittleEndian t

theorem addRecords_append {kLittleEndian : Bool} {rs rs' : List (ℕ × Bytes)}
    {s t u : FileSystem × IbdbWriter} {out out' : List Status}
    (h : IbdbWriter.addRecords kLittleEndian rs s = (.ok out, t))
    (h' : IbdbWriter.addRecords kLittleEndian rs' t = (.ok out', u)) :
    IbdbWriter.addRecords kLittleEndian (rs ++ rs') s = (.ok (out ++ out'), u) := by
  induction rs generalizing s out with
  | nil =>
    cases h
    exact h'
  | cons r rs ih =>
    obtain ⟨ptr, slice⟩ := r
    rw [IbdbWriter.addRecords] at h
    obtain ⟨status, v, hv, h⟩ := Exec.bind_eq_ok.mp h
    obtain ⟨rest, w, hw, h⟩ := Exec.bind_eq_ok.mp h
    cases h
    rw [List.cons_append, IbdbWriter.addRecords, Exec.bind_ok hv, Exec.bind_ok (ih hw)]
    rfl

/-- Records that two writers add one after the other are in the file as if one had added all. -/
theorem reopened_writer (le : Bool) (t t' : ℕ) (directory : Path) (fs : FileSystem)
    (logName : Bytes) (rs rs' : List (ℕ × Bytes)) :
    ∃ s content u v,
      IbdbWriter.addRecords le rs (IbdbWriter.onEmptyFile le t directory fs logName) =
        (.ok (rs.map fun _ => .ok), s) ∧
      s.1 (resolve directory logName) = some content ∧
      IbdbWriter.addRecords le rs' (IbdbWriter.onFile le t' directory s.1 logName content.length) =
        (.ok (rs'.map fun _ => .ok), u) ∧
      IbdbWriter.addRecords le (rs ++ rs') (IbdbWriter.onEmptyFile le t directory fs logName) =
        (.ok ((rs ++ rs').map fun _ => .ok), v) ∧
      u.1 (resolve directory logName) = v.1 (resolve directory logName) := by
  have hfresh := (fresh_onEmptyFile le t directory fs logName).writes
  obtain ⟨s, hs, hpath, hadd⟩ := hfresh.addRecords le rs
  have hpath' : s.2.dest.path = resolve directory logName := hpath
  have hfile := hs.file
  rw [hpath'] at hfile
  obtain ⟨u, hu, hupath, hadd'⟩ := (writes_onFile le t' hfile).addRecords le rs'
  obtain ⟨v, hv, hvpath, hrest⟩ := hs.addRecords le rs'
  refine ⟨s, _, u, v, hadd, hfile, hadd', ?_, ?_⟩
  · rw [List.map_append]
    exact addRecords_append hadd hrest
  · have hufile := hu.file
    have hvfile := hv.file
    rw [hupath] at hufile
    rw [hvpath, hpath'] at hvfile
    exact hufile.trans hvfile.symm

end Ibdb.Log
