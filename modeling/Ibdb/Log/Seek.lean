import Ibdb.Log.Damage

/-! A reader with an initial offset returns the records that start from there on. -/
namespace Ibdb.Log
open Base Fragmented Reader

section BlockStart
variable (initial : UInt64)

theorem blockStartLocation_toNat :
    (blockStartLocation initial).toNat =
      if 4090 < initial.toNat % 4096 then
        (initial.toNat - initial.toNat % 4096 + 4096) % 2 ^ 64
      else initial.toNat - initial.toNat % 4096 := by
  have hblock : (UInt64.ofNat kBlockSize).toNat = 4096 := rfl
  have htrailer : (UInt64.ofNat (kBlockSize - 6)).toNat = 4090 := rfl
  have hle : initial % UInt64.ofNat kBlockSize ≤ initial := by
    rw [UInt64.le_iff_toNat_le, UInt64.toNat_mod]
    exact Nat.mod_le _ _
  unfold blockStartLocation
  dsimp only
  simp only [UInt64.lt_iff_toNat_lt, UInt64.toNat_mod, hblock, htrailer]
  split_ifs
  · rw [UInt64.toNat_add, UInt64.toNat_sub_of_le _ _ hle, UInt64.toNat_mod, hblock]
  · rw [UInt64.toNat_sub_of_le _ _ hle, UInt64.toNat_mod, hblock]

theorem blockStartLocation_mod : (blockStartLocation initial).toNat % 4096 = 0 := by
  rw [blockStartLocation_toNat]
  split_ifs <;> omega

/-- No header in front of the block lies behind the offset, which a trailer may hold. -/
theorem lt_of_lt_blockStartLocation {pos : ℕ} (hmod : pos % 4096 ≤ 4089)
    (h : pos < (blockStartLocation initial).toNat) : pos < initial.toNat := by
  rw [blockStartLocation_toNat] at h
  have hlt := initial.toNat_lt
  split_ifs at h <;> omega

end BlockStart

theorem Laid.split_block {len b : ℕ} {fs : List Fragment} (h : Laid len fs) (hb : b % 4096 = 0)
    (hle : len ≤ b) :
    ∃ front rest, fs = front ++ rest ∧ (∀ g ∈ front, g.tag < b) ∧ Laid b rest ∧
      stopFrom len fs ≤ stopFrom b rest := by
  induction fs generalizing len with
  | nil => exact ⟨[], [], rfl, nofun, trivial, hle⟩
  | cons f fs ih =>
    have hfits := h.fits List.mem_cons_self
    obtain ⟨htag, hroom, hrest⟩ := h
    have hpos := headerPos_eq len
    have hend := hfits.stop_le
    rw [blockEnd_eq] at hend
    by_cases hlt : f.tag < b
    · obtain ⟨front, rest, rfl, hfront, hlaid, hstop⟩ := ih hrest (by omega)
      refine ⟨f :: front, rest, rfl, ?_, hlaid, hstop⟩
      intro g hg
      rcases List.mem_cons.mp hg with rfl | hg
      · exact hlt
      · exact hfront g hg
    · have hat : f.tag = b := by
        split_ifs at hpos <;> omega
      have hb' : headerPos b = b := by rw [headerPos_eq, if_neg (by omega)]
      exact ⟨[], f :: fs, rfl, nofun, ⟨hat.trans hb'.symm, hroom, hrest⟩, le_rfl⟩

def startsFrom (initial : UInt64) (f : Fragment) : Bool := decide (initial.toNat ≤ f.tag)

section Read
variable {c : Bytes} {checksum : Bool} {initial : UInt64} {kLittleEndian : Bool} {r : Reader}

theorem ofNat_lt_iff {pos : ℕ} (h : pos < 2 ^ 63) :
    UInt64.ofNat pos < initial ↔ pos < initial.toNat := by
  rw [UInt64.lt_iff_toNat_lt, UInt64.toNat_ofNat_of_lt' (h.trans (by decide))]

/-- What the reader comes across in an intact log: the fragments from the initial offset on, and a
gap for each one in front of it. -/
def eventsFrom (initial : UInt64) (fs : List Fragment) : List (Event UInt8 ℕ) :=
  fs.map fun f => if startsFrom initial f then .piece f else .gap

theorem eventsFrom_cons (f : Fragment) (fs : List Fragment) :
    eventsFrom initial (f :: fs) =
      (if startsFrom initial f then .piece f else .gap) :: eventsFrom initial fs :=
  rfl

theorem trace_eventsFrom (fs : List Fragment) :
    Trace (startsFrom initial) false fs (eventsFrom initial fs) := by
  induction fs with
  | nil => exact .done nofun
  | cons f fs ih =>
    rw [eventsFrom_cons]
    by_cases hstarts : startsFrom initial f = true
    · rw [if_pos hstarts]
      exact .keep hstarts ih
    · rw [if_neg hstarts]
      exact .lose (Bool.eq_false_of_not_eq_true hstarts) (.gap ih)

/-- The fragments that start in front of the offset are passed over. -/
theorem scan_eventsFrom {p : ℕ} {fs : List Fragment} (h : Laid p fs)
    (haccepted : ∀ f ∈ fs,
      outcome c checksum f.tag = .record (recordTypeOf f.kind).toNat f.payload)
    (hlength : c.length ≤ stopFrom p fs) (hsize : ∀ f ∈ fs, f.tag < 2 ^ 63) :
    Scan c checksum initial p (eventsFrom initial fs) := by
  induction fs generalizing p with
  | nil => exact .eof (outcome_of_le hlength checksum)
  | cons f fs ih =>
    obtain ⟨htag, -, hrest⟩ := h
    have hf := haccepted f List.mem_cons_self
    have hearly := @ofNat_lt_iff initial _ (hsize f List.mem_cons_self)
    have hscan := ih hrest (fun g hg => haccepted g (List.mem_cons_of_mem f hg)) hlength
      fun g hg => hsize g (List.mem_cons_of_mem f hg)
    rw [eventsFrom_cons]
    unfold startsFrom
    by_cases hlt : f.tag < initial.toNat
    · rw [if_neg (by simpa using hlt)]
      apply Scan.early (htag ▸ hf)
      · rw [← htag]
        exact hearly.mpr hlt
      · rw [← htag]
        exact hscan
    · rw [if_pos (by simpa using hlt)]
      exact .piece (htag ▸ hf) htag (mt hearly.mp hlt) hscan

/-- The records that are put together start from the offset on. -/
theorem late_of_eventsFrom {fs : List Fragment} (hsize : ∀ f ∈ fs, f.tag < 2 ^ 63) :
    ∀ x ∈ assemble none (eventsFrom initial fs), ¬ UInt64.ofNat x.2 < initial := by
  intro x hx hlt
  rcases tag_of_mem_assemble hx with ⟨m, hm, -⟩ | ⟨f, hf, htag⟩
  · cases hm
  · obtain ⟨g, hg, hevent⟩ := List.mem_map.mp hf
    by_cases hstarts : startsFrom initial g = true
    · rw [if_pos hstarts] at hevent
      rw [htag, ← Event.piece.inj hevent] at hlt
      have hle := of_decide_eq_true hstarts
      exact absurd ((ofNat_lt_iff (hsize g hg)).mp hlt) (Nat.not_lt.mpr hle)
    · rw [if_neg hstarts] at hevent
      cases hevent

theorem Laid.all_startsFrom {len : ℕ} {m : Record} (h : Laid len m.pieces) :
    m.pieces.all (startsFrom initial) = decide (initial.toNat ≤ m.tag) := by
  obtain ⟨content, pieces, cut⟩ := m
  cases pieces with
  | nil => exact absurd rfl cut.ne_nil
  | cons f fs =>
    obtain ⟨-, -, hrest⟩ := h
    rw [Bool.eq_iff_iff, List.all_eq_true, decide_eq_true_eq]
    constructor
    · intro hall
      exact of_decide_eq_true (hall f List.mem_cons_self)
    · intro hle g hg
      apply decide_eq_true
      rcases List.mem_cons.mp hg with rfl | hg
      · exact hle
      · have hstop := Fragment.tag_lt_stop f
        have htag := hrest.le_tag hg
        exact hle.trans (hstop.le.trans htag)

theorem laid_of_mem {len : ℕ} {rs : List Bytes} {m : Record} (hm : m ∈ recordsFrom len rs) :
    ∃ p, Laid p m.pieces := by
  induction rs generalizing len with
  | nil => cases hm
  | cons r rs ih =>
    rcases List.mem_cons.mp hm with rfl | hm
    · exact ⟨len, laid_fragments true len r⟩
    · exact ih hm

theorem complete_startsFrom (len : ℕ) (rs : List Bytes) :
    complete (startsFrom initial) (recordsFrom len rs) =
      (recordsFrom len rs).filter fun m => decide (initial.toNat ≤ m.tag) := by
  apply List.filter_congr
  intro m hm
  obtain ⟨p, hlaid⟩ := laid_of_mem hm
  exact hlaid.all_startsFrom

/-- `lseek` takes a distance of 2^63 or more for a negative one. -/
theorem skip_start {f : UnixSequentialFile} (hpos : f.pos = 0) (n : UInt64) :
    f.skip n = if n.toNat < 2 ^ 63 then (.ok, { f with pos := n.toNat })
      else (.ioError f.filename, f) := by
  have hlt := n.toNat_lt
  unfold UnixSequentialFile.skip
  rw [hpos]
  generalize n.toNat = k at hlt ⊢
  have hmod : ((0 : ℕ) : ℤ) + (k : ℤ).bmod (2 ^ 64) =
      if k < 2 ^ 63 then (k : ℤ) else k - 2 ^ 64 := by
    rw [Int.bmod_def]
    split_ifs <;> omega
  generalize ((0 : ℕ) : ℤ) + (k : ℤ).bmod (2 ^ 64) = pos at hmod ⊢
  simp only
  by_cases hk : k < 2 ^ 63
  · rw [if_pos hk] at hmod ⊢
    subst hmod
    have hin : 0 ≤ (k : ℤ) ∧ (k : ℤ) < 2 ^ 63 := by omega
    rw [if_pos hin, Int.toNat_natCast]
  · rw [if_neg hk] at hmod ⊢
    have hout : ¬ (0 ≤ pos ∧ pos < 2 ^ 63) := by omega
    rw [if_neg hout]

theorem skipToInitialBlock_ok (hcontent : r.file.content = c) (hcalls : r.file.calls = [])
    (hpos : r.file.pos = 0) (hbuffer : r.buffer = []) (heof : r.eof = false)
    (hlt : (blockStartLocation r.initialOffset).toNat < 2 ^ 63) :
    ∃ s, r.skipToInitialBlock = (true, s) ∧
      AtBlock c (blockStartLocation r.initialOffset).toNat s ∧
      s.checksum = r.checksum ∧ s.initialOffset = r.initialOffset := by
  have hmod := blockStartLocation_mod r.initialOffset
  unfold skipToInitialBlock
  generalize blockStartLocation r.initialOffset = location at hlt hmod ⊢
  have hlocation : UInt64.ofNat location.toNat = location := UInt64.ofNat_toNat
  dsimp only
  split
  next =>
    rw [skip_start hpos, if_pos hlt]
    exact ⟨_, rfl, ⟨hcontent, hcalls, hmod, hbuffer, heof, rfl, hlocation.symm⟩, rfl, rfl⟩
  next hzero =>
    have hnil : location = 0 := by
      rw [UInt64.lt_iff_toNat_lt, Nat.not_lt] at hzero
      exact UInt64.toNat_inj.mp (Nat.le_zero.mp hzero)
    rw [hnil]
    refine ⟨_, rfl, ⟨hcontent, hcalls, rfl, hbuffer, heof, hpos, ?_⟩, rfl, rfl⟩
    rw [hpos]
    rfl

structure Refused (r : Reader) : Prop where
  pos : r.file.pos = 0
  location : 2 ^ 63 ≤ (blockStartLocation r.initialOffset).toNat
  early : r.lastRecordOffset < r.initialOffset

theorem Refused.skipToInitialBlock (h : Refused r) :
    ∃ s, r.skipToInitialBlock = (false, s) ∧ Refused s := by
  have hlocation := h.location
  unfold Reader.skipToInitialBlock
  dsimp only
  generalize hl : blockStartLocation r.initialOffset = location at hlocation ⊢
  have hpos : 0 < location := by
    rw [UInt64.lt_iff_toNat_lt]
    exact lt_of_lt_of_le (by decide) hlocation
  rw [if_pos hpos, skip_start h.pos, if_neg (Nat.not_lt.mpr hlocation)]
  have hplace := samePlace_reportDrop { r with endOfBufferOffset := location } location
    (.file (.ioError r.file.filename))
  have hsame := sameRecord_reportDrop { r with endOfBufferOffset := location } location
    (.file (.ioError r.file.filename))
  refine ⟨_, rfl, ?_, ?_, ?_⟩
  · rw [hplace.file]
    exact h.pos
  · rw [hplace.initialOffset, hl]
    exact hlocation
  · rw [hplace.initialOffset, hsame.lastRecordOffset]
    exact h.early

theorem Refused.readRecord (h : Refused r) (kLittleEndian : Bool) :
    ∃ s, r.readRecord kLittleEndian = .ok (none, s) ∧ Refused s := by
  obtain ⟨s, hskip, hs⟩ := h.skipToInitialBlock
  unfold Reader.readRecord
  dsimp only
  rw [if_pos h.early, hskip]
  exact ⟨s, rfl, hs⟩

theorem Refused.readRecords (h : Refused r) (n : ℕ) :
    ∃ s, r.readRecords kLittleEndian n = .ok (List.replicate n none, s) := by
  induction n generalizing r with
  | zero => exact ⟨r, rfl⟩
  | succ n ih =>
    obtain ⟨s, hs, hrefused⟩ := h.readRecord kLittleEndian
    obtain ⟨t, ht⟩ := ih hrefused
    refine ⟨t, ?_⟩
    rw [Reader.readRecords, hs, Except.ok_bind]
    simp only [ht, Except.ok_bind]
    rfl

theorem readRecord_onFile (filename : Bytes) (reporter : Option (List Report)) (checksum : Bool)
    (backingStore : ℕ) (hlt : (blockStartLocation initial).toNat < 2 ^ 63) :
    ∃ s, (Reader.onFile c filename reporter checksum backingStore initial).readRecord
        kLittleEndian = s.recordLoop kLittleEndian
          (s.buffer.length + (s.file.content.length - s.file.pos) + 1) ⟨[], false, 0, []⟩ ∧
      Reads c (blockStartLocation initial).toNat s ∧ s.checksum = checksum ∧
      s.initialOffset = initial ∧ s.reporter = reporter ∧ s.resyncing = decide (0 < initial) := by
  by_cases hzero : initial = 0
  · subst hzero
    refine ⟨Reader.onFile c filename reporter checksum backingStore 0, ?_,
      reads_onFile c filename reporter checksum backingStore 0, rfl, rfl, rfl, rfl⟩
    unfold Reader.readRecord
    dsimp only
    exact if_neg UInt64.not_lt_zero
  · have hearly : (Reader.onFile c filename reporter checksum backingStore
        initial).lastRecordOffset < (Reader.onFile c filename reporter checksum backingStore
          initial).initialOffset := UInt64.pos_iff_ne_zero.mpr hzero
    obtain ⟨s, hskip, hblock, hchecksum, hinitial⟩ := @skipToInitialBlock_ok c
      (Reader.onFile c filename reporter checksum backingStore initial) rfl rfl rfl rfl rfl hlt
    obtain ⟨-, -, hsame, hreporter⟩ := @skipToInitialBlock_spec
      (Reader.onFile c filename reporter checksum backingStore initial) rfl hearly
    rw [hskip] at hsame hreporter
    refine ⟨s, ?_, Or.inr hblock, hchecksum, hinitial, hreporter, hsame.resyncing⟩
    unfold Reader.readRecord
    dsimp only
    rw [if_pos hearly, hskip]

theorem readRecords_onFile {evs : List (Event UInt8 ℕ)} (filename : Bytes)
    (reporter : Option (List Report)) (backingStore : ℕ)
    (hlt : (blockStartLocation initial).toNat < 2 ^ 63)
    (hscan : Scan c checksum initial (blockStartLocation initial).toNat evs)
    (hlate : ∀ x ∈ assemble none evs, ¬ UInt64.ofNat x.2 < initial) (n : ℕ) :
    ∃ s, (Reader.onFile c filename reporter checksum backingStore initial).readRecords
      kLittleEndian n = .ok (answers n (assemble none evs), s) := by
  cases n with
  | zero => exact ⟨_, rfl⟩
  | succ n =>
    obtain ⟨s, hread, hreads, hchecksum, hinitial, -, -⟩ := @readRecord_onFile c initial
      kLittleEndian filename reporter checksum backingStore hlt
    have hfinding : Finding c checksum initial (blockStartLocation initial).toNat evs s :=
      ⟨hreads, hscan, hchecksum, hinitial⟩
    obtain ⟨record, t, hloop, hreturns⟩ := @recordLoop_start kLittleEndian _ _ _ False reporter
      _ _ _ hfinding False.elim
    obtain ⟨u, hu, -⟩ := readRecords_of_returns kLittleEndian hreturns (hread.trans hloop) hlate
      fun hs hlast hlate hsilent => readRecords_spec kLittleEndian hs hlast hlate hsilent n
    exact ⟨u, hu⟩

end Read

section Layout
variable {rs : List Bytes} {f : Fragment} {initial : UInt64}

theorem bytes_prefix_layout (hf : f ∈ emitted 0 rs) :
    Fragment.bytes f <+: (layout rs).drop f.tag :=
  @Laid.prefix_drop [] _ (laid_emitted 0 rs) f hf

theorem outcome_layout (hf : f ∈ emitted 0 rs) (checksum : Bool) :
    outcome (layout rs) checksum f.tag = .record (recordTypeOf f.kind).toNat f.payload :=
  outcome_of_written ((laid_emitted 0 rs).fits hf) (bytes_prefix_layout hf) checksum

theorem tag_lt_of_size (hsize : (layout rs).length < 2 ^ 63) (hf : f ∈ emitted 0 rs) :
    f.tag < 2 ^ 63 := by
  have hstop := (laid_emitted 0 rs).stop_le hf
  have hlt := Fragment.tag_lt_stop f
  rw [← length_layout] at hstop
  omega

theorem startsFrom_of_lt (hf : f ∈ emitted 0 rs)
    (hlt : f.tag < (blockStartLocation initial).toNat) : startsFrom initial f = false := by
  have hmod := ((laid_emitted 0 rs).fits hf).mod
  have hearly := lt_of_lt_blockStartLocation initial hmod hlt
  exact decide_eq_false (Nat.not_le.mpr hearly)

theorem refused_onFile (content filename : Bytes) (reporter : Option (List Report))
    (checksum : Bool) (backingStore : ℕ)
    (hge : 2 ^ 63 ≤ (blockStartLocation initial).toNat) :
    Refused (Reader.onFile content filename reporter checksum backingStore initial) := by
  have hpos : (0 : UInt64) < initial := by
    apply UInt64.pos_iff_ne_zero.mpr
    rintro rfl
    exact absurd hge (by decide)
  constructor
  · rfl
  · exact hge
  · exact hpos

end Layout

/-- A reader returns the records whose first header lies at its initial offset or behind, each
with the position of that header. A file has less than 2^63 bytes, as `off_t` is signed. -/
theorem seek_read {rs : List Bytes} {content : Bytes} (hlog : IsLog rs content)
    (hsize : content.length < 2 ^ 63) (kLittleEndian : Bool) (filename : Bytes)
    (reporter : Option (List Report)) (checksum : Bool) (backingStore : ℕ) (initial : UInt64) :
    (∀ m ∈ recordsFrom 0 rs, ∀ f ∈ m.pieces.head?, Fragment.header f <+: content.drop m.tag) ∧
    ∀ n, ∃ r, (Reader.onFile content filename reporter checksum backingStore initial).readRecords
      kLittleEndian n = .ok (answers n
        (((recordsFrom 0 rs).filter fun m => decide (initial.toNat ≤ m.tag)).map
          Message.labelled), r) := by
  rw [isLog_iff.mp hlog] at hsize ⊢
  have hhead : ∀ m ∈ recordsFrom 0 rs, ∃ f ∈ emitted 0 rs, f.tag = m.tag ∧
      m.pieces.head? = some f := by
    intro m hm
    have hne := m.cut.ne_nil
    exact ⟨m.pieces.head hne, List.mem_flatMap.mpr ⟨m, hm, List.head_mem hne⟩, rfl,
      List.head?_eq_some_head hne⟩
  constructor
  · intro m hm f hf
    obtain ⟨g, hg, hgtag, hfirst⟩ := hhead m hm
    rw [hfirst] at hf
    rw [← Option.some.inj hf, ← hgtag]
    exact (List.prefix_append _ _).trans (bytes_prefix_layout hg)
  intro n
  rcases Nat.lt_or_ge (blockStartLocation initial).toNat (2 ^ 63) with hlt | hge
  · obtain ⟨front, rest, hsplit, hfront, hrest, hstop⟩ :=
      (laid_emitted 0 rs).split_block (blockStartLocation_mod initial) (Nat.zero_le _)
    have hin : ∀ f ∈ rest, f ∈ emitted 0 rs := by
      intro f hf
      rw [hsplit]
      exact List.mem_append_right front hf
    have htag : ∀ f ∈ rest, f.tag < 2 ^ 63 := fun f hf => tag_lt_of_size hsize (hin f hf)
    have hscan := @scan_eventsFrom (layout rs) checksum initial _ rest hrest
      (fun f hf => outcome_layout (hin f hf) checksum) ((length_layout rs).le.trans hstop) htag
    have hlost : ∀ f ∈ front, startsFrom initial f = false := by
      intro f hf
      have hall : f ∈ emitted 0 rs := by
        rw [hsplit]
        exact List.mem_append_left rest hf
      exact startsFrom_of_lt hall (hfront f hf)
    have hall := Trace.lose_all hlost (.gap (trace_eventsFrom rest))
    rw [← hsplit] at hall
    have hout := assemble_eq hall
    have hgap : assemble none (.gap :: eventsFrom initial rest) =
        assemble none (eventsFrom initial rest) := rfl
    rw [complete_startsFrom, hgap] at hout
    rw [← hout]
    exact readRecords_onFile filename reporter backingStore hlt hscan (late_of_eventsFrom htag) n
  · have hnone : ((recordsFrom 0 rs).filter fun m => decide (initial.toNat ≤ m.tag)) = [] := by
      apply List.filter_eq_nil_iff.mpr
      intro m hm hle
      obtain ⟨f, hf, hftag, -⟩ := hhead m hm
      have hearly := startsFrom_of_lt hf ((tag_lt_of_size hsize hf).trans_le hge)
      have hlt := of_decide_eq_false hearly
      rw [hftag] at hlt
      exact hlt (of_decide_eq_true hle)
    rw [hnone, List.map_nil, answers_nil]
    exact (refused_onFile (layout rs) filename reporter checksum backingStore hge).readRecords n

/-- From offset 1 on the second of two records is read. -/
theorem seek_read_second :
    (∀ m ∈ recordsFrom 0 [[1], [2]], ∀ f ∈ m.pieces.head?,
      Fragment.header f <+: (layout [[1], [2]]).drop m.tag) ∧
    ∀ n, ∃ r, (Reader.onFile (layout [[1], [2]]) [] none true 0 1).readRecords true n =
      .ok (answers n (((recordsFrom 0 [[1], [2]]).filter fun m =>
        decide ((1 : UInt64).toNat ≤ m.tag)).map Message.labelled), r) := by
  apply seek_read (isLog_iff.mpr rfl)
  rw [length_layout_pair]
  decide

end Ibdb.Log
