import Ibdb.Log.ReaderScan

/-! What the reader returns: the records put together from the fragments it finds. -/
namespace Ibdb.Log
open Base Fragmented

/-- The fragments found from a position on. Each bad one, and each in front of the initial
offset, is a gap. -/
inductive Scan (c : Bytes) (checksum : Bool) (initial : UInt64) : ℕ → List (Event UInt8 ℕ) → Prop
  | eof {p : ℕ} (found : outcome c checksum (headerPos p) = .eof) : Scan c checksum initial p []
  | bad {p : ℕ} {evs : List (Event UInt8 ℕ)} (found : outcome c checksum (headerPos p) = .bad)
      (rest : Scan c checksum initial (headerPos p + (blockRest c (headerPos p)).length) evs) :
      Scan c checksum initial p (.gap :: evs)
  | early {p type : ℕ} {payload : Bytes} {evs : List (Event UInt8 ℕ)}
      (found : outcome c checksum (headerPos p) = .record type payload)
      (early : UInt64.ofNat (headerPos p) < initial)
      (rest : Scan c checksum initial (headerPos p + kHeaderSize + payload.length) evs) :
      Scan c checksum initial p (.gap :: evs)
  | piece {p : ℕ} {f : Fragment} {evs : List (Event UInt8 ℕ)}
      (found : outcome c checksum (headerPos p) =
        .record (recordTypeOf f.kind).toNat f.payload)
      (tag : f.tag = headerPos p) (late : ¬ UInt64.ofNat f.tag < initial)
      (rest : Scan c checksum initial (Fragment.stop f) evs) :
      Scan c checksum initial p (.piece f :: evs)

namespace Reader

/-- What the variables say of the record that is pending. -/
def Pending (v : Locals) : Option (Bytes × ℕ) → Prop
  | none => v.inFragmentedRecord = false
  | some (acc, t) => v.inFragmentedRecord = true ∧ v.scratch = acc ∧
      v.prospectiveRecordOffset = UInt64.ofNat t

theorem Pending.setFragment {v : Locals} {pending : Option (Bytes × ℕ)} (h : Pending v pending)
    (fragment : Bytes) : Pending { v with fragment := fragment } pending := by
  cases pending <;> exact h

/-- A round of the loop leaves the reader where it is. -/
structure SamePlace (r s : Reader) : Prop where
  file : s.file = r.file
  buffer : s.buffer = r.buffer
  eof : s.eof = r.eof
  endOfBufferOffset : s.endOfBufferOffset = r.endOfBufferOffset
  checksum : s.checksum = r.checksum
  initialOffset : s.initialOffset = r.initialOffset

section Round
variable {c : Bytes} {p : ℕ} {v : Locals} {r s : Reader}

theorem SamePlace.reads (h : SamePlace r s) (hr : Reads c p r) : Reads c p s :=
  hr.congr h.file h.buffer h.eof h.endOfBufferOffset

theorem samePlace_reportDrop (r : Reader) (bytes : UInt64) (reason : DropReason) :
    SamePlace r (r.reportDrop bytes reason) := by
  unfold reportDrop
  split
  · exact ⟨rfl, rfl, rfl, rfl, rfl, rfl⟩
  · split <;> exact ⟨rfl, rfl, rfl, rfl, rfl, rfl⟩

@[simp] theorem reportCorruption_resyncing (r : Reader) (bytes : ℕ) (reason : Bytes) :
    (r.reportCorruption bytes reason).resyncing = r.resyncing :=
  (sameRecord_reportDrop r (UInt64.ofNat bytes) (.corruption reason)).resyncing

theorem SamePlace.reportCorruption (h : SamePlace r s) (bytes : ℕ) (reason : Bytes) :
    SamePlace r (s.reportCorruption bytes reason) := by
  obtain ⟨h1, h2, h3, h4, h5, h6⟩ :=
    samePlace_reportDrop s (UInt64.ofNat bytes) (.corruption reason)
  exact ⟨h1.trans h.file, h2.trans h.buffer, h3.trans h.eof, h4.trans h.endOfBufferOffset,
    h5.trans h.checksum, h6.trans h.initialOffset⟩

theorem SamePlace.setLastRecordOffset (h : SamePlace r s) (offset : UInt64) :
    SamePlace r { s with lastRecordOffset := offset } :=
  ⟨h.file, h.buffer, h.eof, h.endOfBufferOffset, h.checksum, h.initialOffset⟩

theorem round_samePlace (recordType : ℕ) (v : Locals) (r : Reader) :
    SamePlace r (r.round recordType v).2 := by
  have hself : SamePlace r r := ⟨rfl, rfl, rfl, rfl, rfl, rfl⟩
  have hsync : SamePlace r { r with resyncing := false } := ⟨rfl, rfl, rfl, rfl, rfl, rfl⟩
  unfold round
  dsimp only
  split_ifs
  all_goals first
    | exact hself
    | exact hsync
    | exact hsync.reportCorruption _ _
    | exact (hsync.reportCorruption _ _).setLastRecordOffset _
    | exact hsync.setLastRecordOffset _

/-- A round does to the variables what the event does to the pending record. -/
def Follows : (Bytes × ℕ) ⊕ Option (Bytes × ℕ) → (Option Bytes ⊕ Locals) × Reader → Prop
  | .inl (content, t), (answer, s) =>
    answer = .inl (some content) ∧ s.lastRecordOffset = UInt64.ofNat t
  | .inr pending, (answer, s) =>
    ∃ v, answer = .inr v ∧ Pending v pending ∧ (s.resyncing = true → pending = none)

theorem round_eof (v : Locals) (r : Reader) :
    (r.round kEof v).1 = .inl none ∧ SamePlace r (r.round kEof v).2 ∧
      (r.round kEof v).2.reporter = r.reporter := by
  refine ⟨?_, round_samePlace kEof v r, ?_⟩ <;>
  · unfold round
    simp [kEof, kMaxRecordType, RecordType.toNat]

theorem round_gap {pending : Option (Bytes × ℕ)} (hv : Pending v pending) :
    Follows (accept pending .gap) (r.round kBadRecord v) := by
  unfold round
  simp only [kBadRecord, kEof, kMaxRecordType, RecordType.toNat]
  cases pending with
  | none =>
    simp [Follows, accept, Pending, show v.inFragmentedRecord = false from hv]
  | some pair =>
    simp [Follows, accept, Pending, hv.1]

/-- While it is resyncing the reader drops the rest of a record, which without its first fragment
is dropped anyway. -/
theorem round_piece {pending : Option (Bytes × ℕ)} (hv : Pending v pending)
    (hresyncing : r.resyncing = true → pending = none) (f : Fragment)
    (hfragment : v.fragment = f.payload)
    (hoffset : r.endOfBufferOffset - UInt64.ofNat r.buffer.length - UInt64.ofNat kHeaderSize -
      UInt64.ofNat f.payload.length = UInt64.ofNat f.tag) :
    Follows (accept pending (.piece f)) (r.round (recordTypeOf f.kind).toNat v) := by
  have hsynced : pending ≠ none → r.resyncing = false := by
    intro hsome
    apply Bool.eq_false_of_not_eq_true
    exact fun hr => hsome (hresyncing hr)
  unfold round
  rw [hfragment, hoffset]
  cases hkind : f.kind with
  | full => simp [Follows, accept, hkind, recordTypeOf, RecordType.toNat]
  | first =>
    simp only [accept, hkind, recordTypeOf, RecordType.toNat]
    simp [Follows, Pending]
    split_ifs <;> simp
  | middle =>
    cases pending with
    | none =>
      have hout : v.inFragmentedRecord = false := hv
      by_cases hr : r.resyncing = true
      · simp [Follows, accept, hkind, recordTypeOf, RecordType.toNat, hr, Pending, hout]
      · simp [Follows, accept, hkind, recordTypeOf, RecordType.toNat, hr, Pending, hout]
    | some pair =>
      obtain ⟨hin, hscratch, hprospective⟩ := hv
      have hr := hsynced (Option.some_ne_none pair)
      simp [Follows, accept, hkind, recordTypeOf, RecordType.toNat, hr, Pending, hin, hscratch,
        hprospective]
  | last =>
    cases pending with
    | none =>
      have hout : v.inFragmentedRecord = false := hv
      by_cases hr : r.resyncing = true
      · simp [Follows, accept, hkind, recordTypeOf, RecordType.toNat, hr, Pending, hout]
      · simp [Follows, accept, hkind, recordTypeOf, RecordType.toNat, hr, Pending, hout]
    | some pair =>
      obtain ⟨hin, hscratch, hprospective⟩ := hv
      have hr := hsynced (Option.some_ne_none pair)
      simp [Follows, accept, hkind, recordTypeOf, RecordType.toNat, hr, hin, hscratch,
        hprospective]

/-- Nothing is reported while the fragments are in order. -/
theorem round_inOrder {pending : Option (Bytes × ℕ)} {evs : List (Event UInt8 ℕ)}
    (hv : Pending v pending) (hresyncing : r.resyncing = false) {f : Fragment}
    (h : InOrder pending.isSome (.piece f :: evs)) :
    (r.round (recordTypeOf f.kind).toNat v).2.reporter = r.reporter ∧
      (r.round (recordTypeOf f.kind).toNat v).2.resyncing = false := by
  unfold InOrder at h
  unfold round
  cases hkind : f.kind <;> rw [hkind] at h <;> cases pending <;>
    simp_all [Pending, recordTypeOf, RecordType.toNat]

end Round

/-- The reader is at a position from which it finds the events. -/
structure Finding (c : Bytes) (checksum : Bool) (initial : UInt64) (p : ℕ)
    (evs : List (Event UInt8 ℕ)) (r : Reader) : Prop where
  reads : Reads c p r
  scan : Scan c checksum initial p evs
  sameChecksum : r.checksum = checksum
  sameInitial : r.initialOffset = initial

/-- Nothing has been reported, and the events to come give no reason to. -/
structure Silent (reporter : Option (List Report)) (pending : Bool)
    (evs : List (Event UInt8 ℕ)) (r : Reader) : Prop where
  reporter : r.reporter = reporter
  resyncing : r.resyncing = false
  inOrder : InOrder pending evs

/-- A call returns the first of the records to come, or nothing at the end. When the events are
in order, as `calm` says, it reports nothing. -/
inductive Returns (c : Bytes) (checksum : Bool) (initial : UInt64)
    (calm : Prop) (reporter : Option (List Report)) :
    List (Bytes × ℕ) → Option Bytes → Reader → Prop
  | record {content : Bytes} {t p : ℕ} {evs : List (Event UInt8 ℕ)} {s : Reader}
      (offset : s.lastRecordOffset = UInt64.ofNat t)
      (finding : Finding c checksum initial p evs s)
      (silent : calm → Silent reporter false evs s) :
      Returns c checksum initial calm reporter ((content, t) :: assemble none evs) (some content) s
  | none {s : Reader} (ended : Ended s) (sameInitial : s.initialOffset = initial)
      (silent : calm → s.reporter = reporter) :
      Returns c checksum initial calm reporter [] none s

section Loop
variable {c : Bytes} {checksum : Bool} {initial : UInt64} {kLittleEndian : Bool} {calm : Prop}
  {reporter : Option (List Report)}

/-- With nothing more to find the loop ends, and reports nothing. -/
theorem Reads.recordLoop_eof {p : ℕ} {r : Reader} (h : Reads c p r)
    (found : outcome c r.checksum (headerPos p) = .eof) (kLittleEndian : Bool) (v : Locals)
    (fuel : ℕ) :
    ∃ s, r.recordLoop kLittleEndian (fuel + 1) v = .ok (none, s) ∧ Ended s ∧
      s.initialOffset = r.initialOffset ∧ s.reporter = r.reporter := by
  have hfinds := h.readPhysicalRecord kLittleEndian v.fragment
  rw [found] at hfinds
  rw [recordLoop]
  generalize r.readPhysicalRecord kLittleEndian v.fragment = found at hfinds ⊢
  obtain ⟨result, s⟩ := found
  obtain ⟨rfl, hended, hsame, hreporter⟩ := hfinds
  have hround := round_eof v s
  simp only
  generalize s.round kEof v = round at hround ⊢
  obtain ⟨answer, u⟩ := round
  obtain ⟨rfl, hplace, hreporter'⟩ := hround
  exact ⟨u, rfl, ⟨hplace.buffer.trans hended.buffer, hplace.eof.trans hended.eof⟩,
    hplace.initialOffset.trans hsame.initialOffset, hreporter'.trans hreporter⟩

/-- A round for an event: its physical read, and the switch that follows the event. -/
structure Round (c : Bytes) (checksum : Bool) (initial : UInt64) (calm : Prop)
    (reporter : Option (List Report)) (pending : Option (Bytes × ℕ)) (e : Event UInt8 ℕ)
    (evs : List (Event UInt8 ℕ)) (result : (Option Bytes ⊕ Locals) × Reader) : Prop where
  follows : Follows (accept pending e) result
  finding : ∃ q, Finding c checksum initial q evs result.2
  silent : calm → InOrder pending.isSome (e :: evs) ∧ result.2.reporter = reporter ∧
    result.2.resyncing = false

private theorem Finding.round {p : ℕ} {v : Locals} {r : Reader} {pending : Option (Bytes × ℕ)}
    {e : Event UInt8 ℕ} {evs : List (Event UInt8 ℕ)}
    (h : Finding c checksum initial p (e :: evs) r) (hv : Pending v pending)
    (hresyncing : r.resyncing = true → pending = none)
    (hsilent : calm → Silent reporter pending.isSome (e :: evs) r) :
    ∃ type fragment s,
      r.readPhysicalRecord kLittleEndian v.fragment = ((type, fragment), s) ∧
      Round c checksum initial calm reporter pending e evs
        (s.round type { v with fragment := fragment }) := by
  have hfinds := h.reads.readPhysicalRecord kLittleEndian v.fragment
  rw [h.sameChecksum] at hfinds
  generalize r.readPhysicalRecord kLittleEndian v.fragment = found at hfinds ⊢
  obtain ⟨⟨type, fragment⟩, s⟩ := found
  refine ⟨type, fragment, s, rfl, ?_⟩
  have hplace := round_samePlace type { v with fragment := fragment } s
  have hfinding : ∀ {q}, Reads c q s → SameRecord r s → Scan c checksum initial q evs →
      Finding c checksum initial q evs (s.round type { v with fragment := fragment }).2 := by
    intro q hreads hsame hscan
    exact ⟨hplace.reads hreads, hscan,
      hplace.checksum.trans (hsame.checksum.trans h.sameChecksum),
      hplace.initialOffset.trans (hsame.initialOffset.trans h.sameInitial)⟩
  have hscan := h.scan
  cases hscan with
  | bad found rest =>
    rw [found] at hfinds
    obtain ⟨hresult, hreads, hsame⟩ := hfinds
    cases hresult
    exact ⟨round_gap hv, ⟨_, hfinding hreads hsame rest⟩, fun hcalm => (hsilent hcalm).inOrder.elim⟩
  | early found early rest =>
    rw [found] at hfinds
    obtain ⟨hresult, hreads, hsame, -⟩ := hfinds
    rw [h.sameInitial, if_pos early] at hresult
    cases hresult
    exact ⟨round_gap (hv.setFragment []), ⟨_, hfinding hreads hsame rest⟩,
      fun hcalm => (hsilent hcalm).inOrder.elim⟩
  | @piece _ f _ found tag late rest =>
    rw [found] at hfinds
    obtain ⟨hresult, hreads, hsame, hreporter⟩ := hfinds
    rw [h.sameInitial, if_neg (tag ▸ late)] at hresult
    cases hresult
    rw [← tag] at hreads
    refine ⟨?_, ⟨_, hfinding hreads hsame rest⟩, fun hcalm => ?_⟩
    · apply round_piece (hv.setFragment f.payload) _ f rfl (hreads.offset_eq rfl)
      intro hr
      exact hresyncing (hsame.resyncing.symm.trans hr)
    · obtain ⟨hrep, hsync, horder⟩ := hsilent hcalm
      obtain ⟨hrep', hsync'⟩ := round_inOrder (hv.setFragment f.payload)
        (hsame.resyncing.trans hsync) horder
      exact ⟨horder, hrep'.trans (hreporter.trans hrep), hsync'⟩

/-- A call finds the next record among the events, with fuel for a round each. -/
theorem recordLoop_spec {p fuel : ℕ} {evs : List (Event UInt8 ℕ)} {v : Locals} {r : Reader}
    {pending : Option (Bytes × ℕ)} (h : Finding c checksum initial p evs r)
    (hv : Pending v pending) (hresyncing : r.resyncing = true → pending = none)
    (hsilent : calm → Silent reporter pending.isSome evs r) (hfuel : evs.length < fuel) :
    ∃ record s, r.recordLoop kLittleEndian fuel v = .ok (record, s) ∧
      Returns c checksum initial calm reporter (assemble pending evs) record s := by
  obtain ⟨fuel, rfl⟩ : ∃ n, fuel = n + 1 := Nat.exists_eq_succ_of_ne_zero (by omega)
  induction evs generalizing p v r pending fuel with
  | nil =>
    have hscan := h.scan
    cases hscan with
    | eof found =>
      rw [← h.sameChecksum] at found
      obtain ⟨s, hloop, hended, hinitial, hreporter⟩ :=
        h.reads.recordLoop_eof found kLittleEndian v fuel
      exact ⟨none, s, hloop, .none hended (hinitial.trans h.sameInitial)
        fun hcalm => hreporter.trans (hsilent hcalm).reporter⟩
  | cons e evs ih =>
    obtain ⟨type, fragment, s, hread, hround⟩ := h.round hv hresyncing hsilent
    rw [recordLoop, hread, assemble]
    simp only
    generalize s.round type { v with fragment := fragment } = round at hround ⊢
    obtain ⟨answer, u⟩ := round
    obtain ⟨hfollows, ⟨q, hu⟩, hquiet⟩ := hround
    have htail : calm →
        Silent reporter ((accept pending e).elim (fun _ => false) Option.isSome) evs u := by
      intro hcalm
      obtain ⟨horder, hreporter, hsync⟩ := hquiet hcalm
      have hrest := horder.tail
      cases haccept : accept pending e <;> rw [haccept] at hrest <;>
        exact ⟨hreporter, hsync, hrest⟩
    cases haccept : accept pending e with
    | inl m =>
      obtain ⟨content, t⟩ := m
      rw [haccept] at hfollows htail
      obtain ⟨rfl, hoffset⟩ := hfollows
      exact ⟨_, _, rfl, .record hoffset hu htail⟩
    | inr pending' =>
      rw [haccept] at hfollows htail
      obtain ⟨w, rfl, hw, hresyncing'⟩ := hfollows
      cases fuel with
      | zero => simp at hfuel
      | succ fuel =>
        exact ih hu hw hresyncing' htail fuel (Nat.lt_of_succ_lt_succ hfuel)

end Loop

section Calls
variable (kLittleEndian : Bool) {c : Bytes} {checksum : Bool} {initial : UInt64} {calm : Prop}
  {reporter : Option (List Report)} {p : ℕ} {evs : List (Event UInt8 ℕ)} {r : Reader}

/-- Each fragment that is found takes its header from the file at least. -/
theorem scan_length_le (h : Scan c checksum initial p evs) : evs.length ≤ c.length - p := by
  induction h with
  | eof _ => exact Nat.zero_le _
  | @bad p evs found _ ih =>
    have hlength := blockRest_length c (headerPos p)
    have hheader := header_le_of_bad found
    have hle := le_headerPos p
    unfold kHeaderSize at hheader
    rw [List.length_cons]
    omega
  | @early p type payload evs found _ _ ih =>
    have hlength := blockRest_length c (headerPos p)
    have hheader := header_le_of_record found
    have hle := le_headerPos p
    unfold kHeaderSize at hheader ih
    rw [List.length_cons]
    omega
  | @piece p f evs found tag _ _ ih =>
    have hlength := blockRest_length c (headerPos p)
    have hheader := header_le_of_record found
    have hle := le_headerPos p
    unfold Fragment.stop at ih
    unfold kHeaderSize at hheader ih
    rw [List.length_cons]
    omega

theorem Reads.remaining (h : Reads c p r) :
    c.length - p ≤ r.buffer.length + (r.file.content.length - r.file.pos) := by
  rcases h with h | h
  · have hpos := h.pos
    rw [h.content]
    omega
  · rw [h.content, h.pos]
    omega

theorem recordLoop_start (h : Finding c checksum initial p evs r)
    (hsilent : calm → Silent reporter false evs r) :
    ∃ record s, r.recordLoop kLittleEndian
        (r.buffer.length + (r.file.content.length - r.file.pos) + 1) ⟨[], false, 0, []⟩ =
          .ok (record, s) ∧
      Returns c checksum initial calm reporter (assemble none evs) record s := by
  have hlength := scan_length_le h.scan
  have hremaining := h.reads.remaining
  have hv : Pending ⟨[], false, 0, []⟩ none := rfl
  apply recordLoop_spec h hv (fun _ => rfl) hsilent
  omega

theorem Ended.recordLoop (h : Ended r) (fuel : ℕ) (v : Locals) :
    ∃ s, r.recordLoop kLittleEndian (fuel + 1) v = .ok (none, s) ∧ Ended s ∧
      s.initialOffset = r.initialOffset ∧ s.reporter = r.reporter := by
  have hround := round_eof v r.clearBuffer
  rw [Reader.recordLoop, h.readPhysicalRecord]
  simp only
  generalize r.clearBuffer.round kEof v = round at hround ⊢
  obtain ⟨answer, s⟩ := round
  obtain ⟨rfl, hplace, hreporter⟩ := hround
  exact ⟨s, rfl, ⟨hplace.buffer, hplace.eof.trans h.eof⟩, hplace.initialOffset, hreporter⟩

/-- With nothing in the buffer a skip that fails is not reported: the position of the drop comes out
as 0. -/
theorem afterSkip_spec {location : UInt64} (hlocation : r.endOfBufferOffset = location)
    (hbuffer : r.buffer = []) (hpos : r.initialOffset ≠ 0) (skip : Status × UnixSequentialFile) :
    let s := (r.afterSkip location skip).2
    s.buffer = [] ∧ s.eof = r.eof ∧ SameRecord r s ∧ s.reporter = r.reporter := by
  obtain ⟨status, file⟩ := skip
  have hzero : ¬ r.initialOffset ≤ location - UInt64.ofNat 0 - location := by
    have hsub : location - UInt64.ofNat 0 - location = 0 := by
      have hnil : UInt64.ofNat 0 = 0 := rfl
      rw [hnil, UInt64.sub_zero, UInt64.sub_self]
    rw [hsub, UInt64.not_le]
    exact UInt64.pos_iff_ne_zero.mpr hpos
  unfold afterSkip reportDrop
  simp only [hlocation, hbuffer, List.length_nil, if_neg hzero]
  cases hreporter : r.reporter <;> cases status <;> simp <;> exact ⟨rfl, rfl, rfl, rfl⟩

theorem skipToInitialBlock_spec (hbuffer : r.buffer = [])
    (hearly : r.lastRecordOffset < r.initialOffset) :
    let s := r.skipToInitialBlock.2
    s.buffer = [] ∧ s.eof = r.eof ∧ SameRecord r s ∧ s.reporter = r.reporter := by
  have hpos : r.initialOffset ≠ 0 := by
    intro hzero
    rw [hzero] at hearly
    exact absurd hearly UInt64.not_lt_zero
  unfold skipToInitialBlock
  generalize blockStartLocation r.initialOffset = location
  dsimp only
  generalize r.file.skip location = skip
  split
  · obtain ⟨hnil, heof, ⟨h1, h2, h3, h4⟩, hreporter⟩ := @afterSkip_spec
      { r with endOfBufferOffset := location } location rfl hbuffer hpos skip
    exact ⟨hnil, heof, ⟨h1, h2, h3, h4⟩, hreporter⟩
  · exact ⟨hbuffer, rfl, ⟨rfl, rfl, rfl, rfl⟩, rfl⟩

/-- Once it returned nothing the reader returns nothing and reports nothing. -/
theorem Ended.readRecord (h : Ended r) :
    ∃ s, r.readRecord kLittleEndian = .ok (none, s) ∧ Ended s ∧ s.reporter = r.reporter := by
  unfold Reader.readRecord
  dsimp only
  split
  next hearly =>
    have hspec := skipToInitialBlock_spec h.buffer hearly
    generalize r.skipToInitialBlock = skipped at hspec ⊢
    obtain ⟨_ | _, s⟩ := skipped
    · exact ⟨s, rfl, ⟨hspec.1, hspec.2.1.trans h.eof⟩, hspec.2.2.2⟩
    · have hended : Ended s := ⟨hspec.1, hspec.2.1.trans h.eof⟩
      obtain ⟨t, hloop, ht, -, hreporter⟩ := hended.recordLoop kLittleEndian _ _
      exact ⟨t, hloop, ht, hreporter.trans hspec.2.2.2⟩
  next =>
    obtain ⟨t, hloop, ht, -, hreporter⟩ := h.recordLoop kLittleEndian _ _
    exact ⟨t, hloop, ht, hreporter⟩

theorem Ended.readRecords (h : Ended r) (n : ℕ) :
    ∃ s, r.readRecords kLittleEndian n = .ok (List.replicate n none, s) ∧
      s.reporter = r.reporter := by
  induction n generalizing r with
  | zero => exact ⟨r, rfl, rfl⟩
  | succ n ih =>
    obtain ⟨s, hs, hended, hreporter⟩ := h.readRecord kLittleEndian
    obtain ⟨t, ht, hreporter'⟩ := ih hended
    refine ⟨t, ?_, hreporter'.trans hreporter⟩
    rw [Reader.readRecords, hs, Except.ok_bind]
    simp only [ht, Except.ok_bind]
    rfl

/-- What so many calls return when these are the records to come. -/
def answers (n : ℕ) (out : List (Bytes × ℕ)) : List (Option (Bytes × UInt64)) :=
  (out.map (fun x : Bytes × ℕ => some (x.1, UInt64.ofNat x.2)) ++ List.replicate n none).take n

theorem answers_nil (n : ℕ) : answers n [] = List.replicate n none := by
  simp [answers]

theorem answers_cons (n : ℕ) (content : Bytes) (t : ℕ) (out : List (Bytes × ℕ)) :
    answers (n + 1) ((content, t) :: out) = some (content, UInt64.ofNat t) :: answers n out := by
  unfold answers
  rw [List.map_cons, List.cons_append, List.take_succ_cons, List.take_append, List.take_append,
    List.take_replicate, List.take_replicate, Nat.min_eq_left (by omega), Nat.min_eq_left (by omega)]

/-- The calls from one on that returned a record, or nothing, when the later ones do as `later`
says. -/
theorem readRecords_of_returns {out : List (Bytes × ℕ)} {record : Option Bytes} {s : Reader}
    (h : Returns c checksum initial calm reporter out record s)
    (hread : r.readRecord kLittleEndian = .ok (record, s))
    (hlate : ∀ x ∈ out, ¬ UInt64.ofNat x.2 < initial) {n : ℕ}
    (later : ∀ {p : ℕ} {evs : List (Event UInt8 ℕ)}, Finding c checksum initial p evs s →
      ¬ s.lastRecordOffset < initial → (∀ x ∈ assemble none evs, ¬ UInt64.ofNat x.2 < initial) →
      (calm → Silent reporter false evs s) →
      ∃ u, s.readRecords kLittleEndian n = .ok (answers n (assemble none evs), u) ∧
        (calm → u.reporter = reporter)) :
    ∃ u, r.readRecords kLittleEndian (n + 1) = .ok (answers (n + 1) out, u) ∧
      (calm → u.reporter = reporter) := by
  rw [Reader.readRecords, hread, Except.ok_bind]
  dsimp only
  cases h with
  | @record content t q evs _ hoffset hs hquiet =>
    have hlast : ¬ s.lastRecordOffset < initial := by
      rw [hoffset]
      exact hlate _ List.mem_cons_self
    obtain ⟨u, hu, hcalm⟩ := later hs hlast
      (fun x hx => hlate x (List.mem_cons_of_mem _ hx)) hquiet
    refine ⟨u, ?_, hcalm⟩
    rw [hu, Except.ok_bind, answers_cons, hoffset]
    rfl
  | none hended hinitial hquiet =>
    obtain ⟨u, hu, hreporter⟩ := hended.readRecords kLittleEndian n
    refine ⟨u, ?_, fun hc => hreporter.trans (hquiet hc)⟩
    rw [hu, Except.ok_bind, answers_nil]
    rfl

/-- The calls return the records that the events make, and then nothing. -/
theorem readRecords_spec (h : Finding c checksum initial p evs r)
    (hlast : ¬ r.lastRecordOffset < initial)
    (hlate : ∀ x ∈ assemble none evs, ¬ UInt64.ofNat x.2 < initial)
    (hsilent : calm → Silent reporter false evs r) (n : ℕ) :
    ∃ s, r.readRecords kLittleEndian n = .ok (answers n (assemble none evs), s) ∧
      (calm → s.reporter = reporter) := by
  induction n generalizing p evs r with
  | zero => exact ⟨r, rfl, fun hcalm => (hsilent hcalm).reporter⟩
  | succ n ih =>
    obtain ⟨record, s, hloop, hreturns⟩ := recordLoop_start kLittleEndian h hsilent
    have hread : r.readRecord kLittleEndian = .ok (record, s) := by
      unfold Reader.readRecord
      dsimp only
      rw [h.sameInitial, if_neg hlast, hloop]
    exact readRecords_of_returns kLittleEndian hreturns hread hlate fun hs => ih hs

end Calls

end Reader
end Ibdb.Log
