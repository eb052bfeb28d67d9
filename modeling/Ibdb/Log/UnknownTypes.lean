import Ibdb.Log.Reports

/-! Records whose type byte is none of those that the writer gives. -/
namespace Ibdb.Log
open Base Reader
namespace Reader

def knownTypes : List ℕ :=
  [RecordType.kFullType.toNat, RecordType.kFirstType.toNat, RecordType.kMiddleType.toNat,
    RecordType.kLastType.toNat]

/-- A round comes to a record whose length and checksum are right, that starts from the initial
offset on, and whose type is unknown. -/
structure Visit.Meets (c : Bytes) (checksum : Bool) (x : Visit) (t : Reader) (type : ℕ)
    (payload : Bytes) : Prop where
  parsed : x.reader.parsed = some t
  found : outcome c checksum t.position = .record type payload
  late : x.reader.initialOffset.toNat ≤ t.position
  unknown : type ∉ knownTypes

def Locals.pending (v : Locals) : ℕ := if v.inFragmentedRecord then v.scratch.length else 0

def Visit.after (kLittleEndian : Bool) (x : Visit) : (Option Bytes ⊕ Locals) × Reader :=
  let ((recordType, fragment), r) := x.reader.readPhysicalRecord kLittleEndian x.locals.fragment
  r.round recordType { x.locals with fragment := fragment }

/-- The report of a record of unknown type, of the record with what was pending. -/
def unknownType (type : ℕ) (payload : Bytes) (v : Locals) : Report :=
  ⟨UInt64.ofNat (payload.length + v.pending),
    .corruption (ascii "unknown record type " ++ ascii (toString type))⟩

/-- The round makes this one report, and goes on behind the record. -/
def Visit.Reports (kLittleEndian : Bool) (x : Visit) (t : Reader) (type : ℕ) (payload : Bytes) :
    Prop :=
  ∃ v s, x.after kLittleEndian = (.inr v, s) ∧ v.pending = 0 ∧
    s.position = t.position + kHeaderSize + payload.length ∧
    s.reporter = x.reader.reporter.map (· ++ [unknownType type payload x.locals])

/-- Each record of unknown type that the round meets is reported. -/
def Visit.Handles (kLittleEndian : Bool) (c : Bytes) (checksum : Bool) (x : Visit) : Prop :=
  ∀ t type payload, x.Meets c checksum t type payload → x.Reports kLittleEndian t type payload

/-- No record of unknown type that the round meets has a type that stands for something else. -/
def Visit.Distinct (c : Bytes) (checksum : Bool) (x : Visit) : Prop :=
  ∀ t type payload, x.Meets c checksum t type payload → type ≠ kEof ∧ type ≠ kBadRecord

/-- The reader is at a position of the file, or at the end. The pending record started from the
initial offset on. -/
inductive Reading (c : Bytes) (v : Locals) (r : Reader) : Prop
  | reads {p : ℕ} (reads : Reads c p r)
      (pending : v.inFragmentedRecord = true → ∃ t, r.initialOffset.toNat ≤ t ∧
        t + kHeaderSize + v.scratch.length ≤ p ∧ v.prospectiveRecordOffset = UInt64.ofNat t)
  | ended (ended : Ended r)

/-- What a round leaves: the variables for the next one, or the record with its position. -/
def Next (c : Bytes) : (Option Bytes ⊕ Locals) × Reader → Prop
  | (.inr v, s) => Reading c v s
  | (.inl none, s) => Ended s
  | (.inl (some _), s) => (∃ p, Reads c p s) ∧ ¬ s.lastRecordOffset < s.initialOffset

section Round
variable {c : Bytes} {type : ℕ} {v : Locals} {r s : Reader}

theorem round_cases (type : ℕ) (v : Locals) (r : Reader) :
    match r.round type v with
    | (.inr w, _) => w.inFragmentedRecord = true →
      (w.scratch = v.fragment ∧ w.prospectiveRecordOffset = r.endOfBufferOffset -
        UInt64.ofNat r.buffer.length - UInt64.ofNat kHeaderSize - UInt64.ofNat v.fragment.length) ∨
      (v.inFragmentedRecord = true ∧ w.prospectiveRecordOffset = v.prospectiveRecordOffset ∧
        w.scratch.length ≤ v.scratch.length + v.fragment.length)
    | (.inl none, _) => type = kEof
    | (.inl (some _), s) =>
      s.lastRecordOffset = r.endOfBufferOffset - UInt64.ofNat r.buffer.length -
        UInt64.ofNat kHeaderSize - UInt64.ofNat v.fragment.length ∨
      (v.inFragmentedRecord = true ∧ s.lastRecordOffset = v.prospectiveRecordOffset) := by
  unfold round
  dsimp only
  split_ifs <;> simp_all

/-- The branch of `kBadRecord`. -/
theorem round_bad (v : Locals) (r : Reader) :
    r.round kBadRecord v =
      if v.inFragmentedRecord then
        (.inr { v with inFragmentedRecord := false, scratch := [] },
          { r with resyncing := false }.reportCorruption v.scratch.length
            (ascii "error in middle of record"))
      else (.inr v, { r with resyncing := false }) := by
  unfold round
  simp [kBadRecord, kEof, kMaxRecordType, RecordType.toNat]

theorem next_of_eof (h : Ended r) (v : Locals) : Next c (r.round kEof v) := by
  have hround := round_eof v r
  generalize r.round kEof v = round at hround ⊢
  obtain ⟨answer, s⟩ := round
  obtain ⟨rfl, hplace, -⟩ := hround
  exact ⟨hplace.buffer.trans h.buffer, hplace.eof.trans h.eof⟩

theorem next_of_bad {p : ℕ} (h : Reads c p r) (v : Locals) : Next c (r.round kBadRecord v) := by
  have hplace := round_samePlace kBadRecord v r
  rw [round_bad] at hplace ⊢
  split_ifs at hplace ⊢ with hin
  · exact .reads (hplace.reads h) fun hno => Bool.noConfusion hno
  · exact .reads (hplace.reads h) fun hyes => absurd hyes hin

theorem next_of_record {q : ℕ} (h : Reads c (q + kHeaderSize + v.fragment.length) r)
    (hlate : r.initialOffset.toNat ≤ q) (hq : q < 2 ^ 63)
    (hpending : v.inFragmentedRecord = true → ∃ t, r.initialOffset.toNat ≤ t ∧
      t + kHeaderSize + v.scratch.length ≤ q ∧ v.prospectiveRecordOffset = UInt64.ofNat t)
    (htype : type ≠ kEof) : Next c (r.round type v) := by
  have hoffset := h.offset_eq rfl
  have hcases := round_cases type v r
  have hplace := round_samePlace type v r
  have hnot : ∀ t : ℕ, r.initialOffset.toNat ≤ t → t ≤ q →
      ¬ UInt64.ofNat t < r.initialOffset := by
    intro t hle htq
    rw [ofNat_lt_iff (htq.trans_lt hq)]
    exact Nat.not_lt.mpr hle
  generalize r.round type v = round at hcases hplace ⊢
  obtain ⟨(_ | record) | w, s⟩ := round
  · exact absurd hcases htype
  · refine ⟨⟨_, hplace.reads h⟩, ?_⟩
    rw [hplace.initialOffset]
    rcases hcases with hfull | ⟨hin, hlast⟩
    · rw [hfull, hoffset]
      exact hnot q hlate le_rfl
    · obtain ⟨t, ht, hroom, hprospective⟩ := hpending hin
      rw [hlast, hprospective]
      exact hnot t ht (by omega)
  · refine .reads (hplace.reads h) fun hin => ?_
    rw [hplace.initialOffset]
    rcases hcases hin with ⟨hscratch, hprospective⟩ | ⟨hwas, hprospective, hscratch⟩
    · exact ⟨q, hlate, by rw [hscratch], hprospective.trans hoffset⟩
    · obtain ⟨t, ht, hroom, hwere⟩ := hpending hwas
      exact ⟨t, ht, by omega, hprospective.trans hwere⟩

end Round

section Visits
variable {kLittleEndian : Bool} {c : Bytes} {checksum : Bool} {x : Visit}

/-- Where the reader comes to a header, if there is one. -/
theorem Reads.parsed_cases {p : ℕ} {r : Reader} (h : Reads c p r) :
    (∃ t, r.parsed = some t ∧ Buffered c (headerPos p) t) ∨
      r.parsed = none ∧ (blockRest c (headerPos p)).length < kHeaderSize := by
  have hblock : ∀ {q}, AtBlock c q r.clearBuffer → r.buffer.length < kHeaderSize →
      (∃ t, r.parsed = some t ∧ Buffered c q t) ∨
        r.parsed = none ∧ (blockRest c q).length < kHeaderSize := by
    intro q hq hshort
    obtain ⟨s, hfill, hs, -, -⟩ := hq.fillBuffer
    have hfill' : r.fillBuffer = (true, s) := hfill
    have heof : r.eof = false := hq.eof
    unfold Reader.parsed
    rw [if_pos hshort, heof, hfill']
    simp only [Bool.false_eq_true, if_false]
    split_ifs with hnone
    · exact .inr ⟨rfl, hs.buffer ▸ hnone⟩
    · exact .inl ⟨s, rfl, hs⟩
  rcases h with h | h
  · by_cases hshort : r.buffer.length < kHeaderSize
    · by_cases heof : r.eof = true
      · right
        refine ⟨by rw [Reader.parsed, if_pos hshort, if_pos heof], ?_⟩
        have hend : c.length < blockEnd p := of_decide_eq_true (h.eof.symm.trans heof)
        unfold headerPos
        split
        · rw [blockRest_of_le hend.le]
          decide
        · rwa [← h.buffer]
      · exact hblock (h.atBlock hshort (Bool.eq_false_of_not_eq_true heof)) hshort
    · left
      refine ⟨r, by rw [Reader.parsed, if_neg hshort], ?_⟩
      have hlength := h.buffer ▸ blockRest_length c p
      have hpos : headerPos p = p := by
        apply if_neg
        omega
      rwa [hpos]
  · have hnil : r.buffer.length < kHeaderSize := by
      rw [h.buffer]
      decide
    rw [h.headerPos_eq]
    exact hblock ⟨h.content, h.calls, h.start, rfl, h.eof, h.pos, h.offset⟩ hnil

theorem Reads.parsed_position {p : ℕ} {r t : Reader} (h : Reads c p r) (ht : r.parsed = some t) :
    t.position = headerPos p := by
  rcases h.parsed_cases with ⟨t', ht', hbuffered⟩ | ⟨hnone, -⟩
  · cases ht.symm.trans ht'
    exact Reads.position (.inl hbuffered)
  · cases ht.symm.trans hnone

theorem Ended.parsed {r : Reader} (h : Ended r) : r.parsed = none := by
  unfold Reader.parsed
  rw [h.buffer, h.eof]
  rfl

theorem record_lt {q type : ℕ} {payload : Bytes} (h : outcome c checksum q = .record type payload) :
    q + kHeaderSize + payload.length ≤ c.length := by
  have hheader := header_le_of_record h
  have hlength := blockRest_length c q
  unfold kHeaderSize at hheader ⊢
  omega

theorem Visit.next (kLittleEndian : Bool) (h : Reading c x.locals x.reader)
    (hchecksum : x.reader.checksum = checksum) (hsize : c.length < 2 ^ 63)
    (hdistinct : x.Distinct c checksum) :
    Next c (x.after kLittleEndian) := by
  obtain ⟨block, v, r⟩ := x
  unfold Visit.after
  cases h with
  | ended h =>
    have hended : Ended r.clearBuffer := ⟨rfl, h.eof⟩
    simp only [h.readPhysicalRecord kLittleEndian v.fragment]
    exact next_of_eof hended v
  | @reads p h hpending =>
    have hfinds := h.readPhysicalRecord kLittleEndian v.fragment
    have hparsed := h.parsed_cases
    simp only at hchecksum hpending hfinds ⊢
    rw [hchecksum] at hfinds
    generalize r.readPhysicalRecord kLittleEndian v.fragment = found at hfinds ⊢
    obtain ⟨⟨type, fragment⟩, s⟩ := found
    cases hout : outcome c checksum (headerPos p) with
    | eof =>
      rw [hout] at hfinds
      obtain ⟨heq, hended, -, -⟩ := hfinds
      cases heq
      exact next_of_eof hended v
    | bad =>
      rw [hout] at hfinds
      obtain ⟨heq, hreads, -⟩ := hfinds
      cases heq
      exact next_of_bad hreads _
    | record type' payload =>
      rw [hout] at hfinds
      obtain ⟨heq, hreads, hsame, -⟩ := hfinds
      have hin := record_lt hout
      split_ifs at heq with hearly
      · cases heq
        exact next_of_bad hreads _
      · cases heq
        have hq : headerPos p < 2 ^ 63 := by omega
        have hlate : r.initialOffset.toNat ≤ headerPos p := by
          rw [ofNat_lt_iff hq] at hearly
          exact Nat.not_lt.mp hearly
        have htype : type ≠ kEof := by
          rintro rfl
          rcases hparsed with ⟨t, ht, -⟩ | ⟨-, hshort⟩
          · have hposition := h.parsed_position ht
            exact (hdistinct t kEof fragment ⟨ht, by rw [hposition]; exact hout,
              by rw [hposition]; exact hlate, by decide⟩).1 rfl
          · rw [outcome_of_short checksum hshort] at hout
            cases hout
        refine next_of_record hreads ?_ hq ?_ htype
        · rw [hsame.initialOffset]
          exact hlate
        · intro hpend
          obtain ⟨t, ht, hroom, hprospective⟩ := hpending hpend
          rw [hsame.initialOffset]
          exact ⟨t, ht, hroom.trans (le_headerPos p), hprospective⟩

theorem Visit.after_grows (kLittleEndian : Bool) (x : Visit) :
    Grows x.reader (x.after kLittleEndian).2 :=
  readPhysicalRecord_grows.trans (round_grows _ _ _)

theorem Visit.after_checksum (kLittleEndian : Bool) (h : Reading c x.locals x.reader) :
    (x.after kLittleEndian).2.checksum = x.reader.checksum := by
  have hread : (x.reader.readPhysicalRecord kLittleEndian x.locals.fragment).2.checksum =
      x.reader.checksum := by
    cases h with
    | ended h =>
      rw [h.readPhysicalRecord]
      rfl
    | @reads p h _ =>
      have hfinds := h.readPhysicalRecord kLittleEndian x.locals.fragment
      generalize x.reader.readPhysicalRecord kLittleEndian x.locals.fragment = found at hfinds ⊢
      cases hout : outcome c x.reader.checksum (headerPos p) <;> rw [hout] at hfinds
      · exact hfinds.2.2.1.checksum
      · exact hfinds.2.2.checksum
      · exact hfinds.2.2.1.checksum
  exact (round_samePlace _ _ _).checksum.trans hread

/-- The `default` branch. -/
theorem round_unknown {type : ℕ} (hunknown : type ∉ knownTypes) (heof : type ≠ kEof)
    (hbad : type ≠ kBadRecord) (v : Locals) (r : Reader) :
    r.round type v = (.inr { v with inFragmentedRecord := false, scratch := [] },
      { r with resyncing := false }.reportCorruption (v.fragment.length + v.pending)
        (ascii "unknown record type " ++ ascii (toString type))) := by
  simp only [knownTypes, List.mem_cons, List.not_mem_nil, or_false, not_or] at hunknown
  obtain ⟨hfull, hfirst, hmiddle, hlast⟩ := hunknown
  unfold round
  simp [hfull, hfirst, hmiddle, hlast, heof, hbad, Locals.pending]

/-- The branch of `kBadRecord` does not report a record as one of unknown type. -/
theorem round_bad_reporter {r : Reader} {reports : List Report} (hr : r.reporter = some reports)
    (v w : Locals) (type : ℕ) (payload : Bytes) :
    (r.round kBadRecord v).2.reporter ≠ some (reports ++ [unknownType type payload w]) := by
  have hnone : some reports ≠ some (reports ++ [unknownType type payload w]) := by
    intro heq
    simpa using congrArg List.length (Option.some.inj heq)
  have hsync : ({ r with resyncing := false } : Reader).reporter = some reports := hr
  rw [round_bad]
  generalize ({ r with resyncing := false } : Reader) = s at hsync ⊢
  split_ifs
  · have hreport := reportDrop_cases s (UInt64.ofNat v.scratch.length)
      (.corruption (ascii "error in middle of record"))
    rw [hsync] at hreport
    intro heq
    rcases hreport with h | h
    · exact hnone (h.symm.trans heq)
    · have hlast := List.append_cancel_left (Option.some.inj (h.symm.trans heq))
      have htext := DropReason.corruption.inj (congrArg Report.reason (List.singleton_inj.mp hlast))
      -- The two texts start with different letters.
      cases congrArg List.head? htext
  · intro heq
    exact hnone (hsync.symm.trans heq)

theorem Visit.handles_iff (h : Reading c x.locals x.reader)
    (hchecksum : x.reader.checksum = checksum) (hsize : c.length < 2 ^ 63)
    {reports : List Report} (hreporter : x.reader.reporter = some reports) :
    x.Handles kLittleEndian c checksum ↔ x.Distinct c checksum := by
  obtain ⟨block, v, r⟩ := x
  unfold Visit.Handles Visit.Distinct
  refine forall_congr' fun t => forall_congr' fun type => forall_congr' fun payload =>
    forall_congr' fun hmeets => ?_
  obtain ⟨hparsed, hout, hlate, hunknown⟩ := hmeets
  unfold Visit.Reports Visit.after
  cases h with
  | ended h => cases h.parsed.symm.trans hparsed
  | @reads p h hpending =>
    have hfinds := h.readPhysicalRecord kLittleEndian v.fragment
    simp only at hchecksum hpending hreporter hparsed hlate hfinds ⊢
    rw [h.parsed_position hparsed] at hout hlate ⊢
    have hin := record_lt hout
    have hq : headerPos p < 2 ^ 63 := by omega
    have hnot : ¬ UInt64.ofNat (headerPos p) < r.initialOffset := by
      rw [ofNat_lt_iff hq]
      exact Nat.not_lt.mpr hlate
    rw [hchecksum, hout] at hfinds
    generalize r.readPhysicalRecord kLittleEndian v.fragment = found at hfinds ⊢
    obtain ⟨⟨type', fragment⟩, s⟩ := found
    obtain ⟨heq, hreads, hsame, hrep⟩ := hfinds
    rw [if_neg hnot] at heq
    cases heq
    constructor
    · rintro ⟨w, u, hround, -, -, hreported⟩
      simp only at hround
      constructor
      · rintro rfl
        have heof := (round_eof { v with fragment := payload } s).1
        rw [hround] at heof
        cases heof
      · rintro rfl
        have hother := round_bad_reporter (hrep.trans hreporter) { v with fragment := payload } v
          kBadRecord payload
        rw [hround] at hother
        rw [hreporter] at hreported
        exact hother hreported
    · rintro ⟨heof, hbad⟩
      have hplace := round_samePlace type { v with fragment := payload } s
      have hunsynced : Reads c (headerPos p + kHeaderSize + payload.length)
          { s with resyncing := false } := hreads.congr rfl rfl rfl rfl
      refine ⟨_, _, round_unknown hunknown heof hbad _ _, rfl, ?_, ?_⟩
      · rw [round_unknown hunknown heof hbad] at hplace
        exact Reads.position (hplace.reads hreads)
      · have hreport := @Reads.reportDrop _ _ _ hunsynced (payload.length + v.pending)
          (hin.trans_lt (hsize.trans (by decide))) ?_
          (.corruption (ascii "unknown record type " ++ ascii (toString type)))
        · have hsync : ({ s with resyncing := false } : Reader).reporter = r.reporter := hrep
          rw [← hsync]
          exact hreport
        · have hinitial : ({ s with resyncing := false } : Reader).initialOffset =
              r.initialOffset := hsame.initialOffset
          rw [hinitial]
          unfold Locals.pending kHeaderSize
          split_ifs with hpend
          · obtain ⟨t, ht, hroom, -⟩ := hpending hpend
            have hle := le_headerPos p
            unfold kHeaderSize at hroom
            omega
          · omega

structure Visit.OnFile (c : Bytes) (checksum : Bool) (x : Visit) : Prop where
  reading : Reading c x.locals x.reader
  sameChecksum : x.reader.checksum = checksum
  reporter : x.reader.reporter.isSome = true

theorem Visit.OnFile.handles_iff (h : x.OnFile c checksum) (kLittleEndian : Bool)
    (hsize : c.length < 2 ^ 63) :
    x.Handles kLittleEndian c checksum ↔ x.Distinct c checksum := by
  obtain ⟨reports, hreports⟩ := Option.isSome_iff_exists.mp h.reporter
  exact Visit.handles_iff h.reading h.sameChecksum hsize hreports

/-- The file has just been opened, and can go to the block of the initial offset. -/
structure Opened (c : Bytes) (r : Reader) : Prop where
  content : r.file.content = c
  calls : r.file.calls = []
  pos : r.file.pos = 0
  buffer : r.buffer = []
  eof : r.eof = false
  location : (blockStartLocation r.initialOffset).toNat < 2 ^ 63

/-- Where the reader is in front of a call. -/
structure Rests (c : Bytes) (checksum : Bool) (r : Reader) : Prop where
  place : Ended r ∨ Refused r ∨ Opened c r ∧ r.lastRecordOffset < r.initialOffset ∨
    (∃ p, Reads c p r) ∧ ¬ r.lastRecordOffset < r.initialOffset
  sameChecksum : r.checksum = checksum
  reporter : r.reporter.isSome = true

/-- Over the rounds of a call: all are handled exactly when all types are distinct, and then the
call leaves the reader at rest. -/
theorem loopVisits_handled (kLittleEndian : Bool) (hsize : c.length < 2 ^ 63) (fuel : ℕ)
    (h : x.OnFile c checksum) :
    ((∀ y ∈ (loopVisits kLittleEndian fuel x).1, y.Handles kLittleEndian c checksum) ↔
      ∀ y ∈ (loopVisits kLittleEndian fuel x).1, y.Distinct c checksum) ∧
    ((∀ y ∈ (loopVisits kLittleEndian fuel x).1, y.Distinct c checksum) → ∀ record s,
      x.reader.recordLoop kLittleEndian fuel x.locals = .ok (record, s) → Rests c checksum s) := by
  induction fuel generalizing x with
  | zero => exact ⟨by simp [loopVisits], fun _ record s hloop => by cases hloop⟩
  | succ fuel ih =>
    have hiff := h.handles_iff kLittleEndian hsize
    have hgrows := x.after_grows kLittleEndian
    have hchecksum := (Visit.after_checksum kLittleEndian h.reading).trans h.sameChecksum
    have hnext := Visit.next kLittleEndian h.reading h.sameChecksum hsize
    rw [loopVisits, recordLoop]
    unfold Visit.after at hgrows hchecksum hnext
    generalize x.reader.readPhysicalRecord kLittleEndian x.locals.fragment = found
      at hgrows hchecksum hnext ⊢
    obtain ⟨⟨type, fragment⟩, s⟩ := found
    simp only at hgrows hchecksum hnext ⊢
    generalize s.round type { x.locals with fragment := fragment } = round
      at hgrows hchecksum hnext ⊢
    obtain ⟨answer, t⟩ := round
    have hreporter := hgrows.isSome h.reporter
    cases answer with
    | inl record =>
      simp only [List.mem_singleton, forall_eq]
      refine ⟨hiff, fun hdistinct record' s' hloop => ?_⟩
      cases hloop
      have hrests := hnext hdistinct
      cases record with
      | none => exact ⟨.inl hrests, hchecksum, hreporter⟩
      | some record => exact ⟨.inr (.inr (.inr hrests)), hchecksum, hreporter⟩
    | inr w =>
      simp only [List.forall_mem_cons]
      by_cases hdistinct : x.Distinct c checksum
      · obtain ⟨hrest, hends⟩ := ih (x := ⟨x.reader.blockAfter x.block, w, t⟩)
          ⟨hnext hdistinct, hchecksum, hreporter⟩
        exact ⟨and_congr hiff hrest, fun hall => hends hall.2⟩
      · exact ⟨⟨fun hall => absurd (hiff.mp hall.1) hdistinct, fun hall => absurd hall.1 hdistinct⟩,
          fun hall => absurd hall.1 hdistinct⟩

/-- Over the rounds of a call that starts at rest. -/
theorem callVisits_handled (kLittleEndian : Bool) (hsize : c.length < 2 ^ 63) {r : Reader}
    (h : Rests c checksum r) (block : AddressRange) :
    ((∀ y ∈ (r.callVisits kLittleEndian block).1, y.Handles kLittleEndian c checksum) ↔
      ∀ y ∈ (r.callVisits kLittleEndian block).1, y.Distinct c checksum) ∧
    ((∀ y ∈ (r.callVisits kLittleEndian block).1, y.Distinct c checksum) → ∀ record s,
      r.readRecord kLittleEndian = .ok (record, s) → Rests c checksum s) := by
  have hloop : ∀ {s : Reader}, Reading c ⟨[], false, 0, []⟩ s → s.checksum = checksum →
      s.reporter.isSome = true → _ := fun {s} hreading hchecksum hreporter =>
    loopVisits_handled kLittleEndian
      (x := ⟨block, ⟨[], false, 0, []⟩, s⟩) hsize
      (s.buffer.length + (s.file.content.length - s.file.pos) + 1) ⟨hreading, hchecksum, hreporter⟩
  have hnone : ∀ {p : ℕ} {s : Reader}, Reads c p s → Reading c ⟨[], false, 0, []⟩ s :=
    fun hs => .reads hs fun hin => Bool.noConfusion hin
  have hsame := r.skipToInitialBlock_same
  have hgrows := r.skipToInitialBlock_grows
  unfold Reader.readRecord callVisits
  dsimp only
  rcases h.place with hended | hrefused | ⟨hopened, hearly⟩ | ⟨⟨p, hreads⟩, hlast⟩
  · split_ifs with hearly
    · have hspec := skipToInitialBlock_spec hended.buffer hearly
      have hskipped : Ended r.skipToInitialBlock.2 := ⟨hspec.1, hspec.2.1.trans hended.eof⟩
      generalize r.skipToInitialBlock = skipped at hsame hgrows hskipped ⊢
      have hchecksum := hsame.checksum.trans h.sameChecksum
      have hreporter := hgrows.isSome h.reporter
      obtain ⟨_ | _, s⟩ := skipped
      · refine ⟨by simp, fun _ record s' hread => ?_⟩
        cases hread
        exact ⟨.inl hskipped, hchecksum, hreporter⟩
      · exact hloop (.ended hskipped) hchecksum hreporter
    · exact hloop (.ended hended) h.sameChecksum h.reporter
  · obtain ⟨s, hskip, hs⟩ := hrefused.skipToInitialBlock
    rw [if_pos hrefused.early, if_pos hrefused.early]
    rw [hskip] at hsame hgrows ⊢
    refine ⟨by simp, fun _ record s' hread => ?_⟩
    cases hread
    exact ⟨.inr (.inl hs), hsame.checksum.trans h.sameChecksum, hgrows.isSome h.reporter⟩
  · obtain ⟨s, hskip, hs, -, -⟩ := skipToInitialBlock_ok hopened.content hopened.calls hopened.pos
      hopened.buffer hopened.eof hopened.location
    rw [if_pos hearly, if_pos hearly]
    rw [hskip] at hsame hgrows ⊢
    exact hloop (hnone (.inr hs)) (hsame.checksum.trans h.sameChecksum) (hgrows.isSome h.reporter)
  · rw [if_neg hlast, if_neg hlast]
    exact hloop (hnone hreads) h.sameChecksum h.reporter

theorem visits_handled (hsize : c.length < 2 ^ 63) (n : ℕ) {r : Reader} (h : Rests c checksum r)
    (block : AddressRange) :
    (∀ y ∈ visits kLittleEndian n block r, y.Handles kLittleEndian c checksum) ↔
      ∀ y ∈ visits kLittleEndian n block r, y.Distinct c checksum := by
  induction n generalizing r block with
  | zero => simp [visits]
  | succ n ih =>
    obtain ⟨hiff, hends⟩ := callVisits_handled kLittleEndian hsize h block
    rw [visits]
    generalize r.callVisits kLittleEndian block = call at hiff hends ⊢
    obtain ⟨xs, last⟩ := call
    simp only at hiff hends ⊢
    cases hread : r.readRecord kLittleEndian with
    | error e => exact hiff
    | ok result =>
      obtain ⟨record, s⟩ := result
      simp only [List.forall_mem_append]
      by_cases hdistinct : ∀ y ∈ xs, y.Distinct c checksum
      · exact and_congr hiff (ih (hends hdistinct record s hread) last)
      · exact ⟨fun hall => absurd (hiff.mp hall.1) hdistinct,
          fun hall => absurd hall.1 hdistinct⟩

theorem rests_onFile (c filename : Bytes) (reports : List Report) (checksum : Bool)
    (backingStore : ℕ) (initial : UInt64) :
    Rests c checksum (Reader.onFile c filename (some reports) checksum backingStore initial) := by
  refine ⟨?_, rfl, rfl⟩
  by_cases hzero : initial = 0
  · subst hzero
    exact .inr (.inr (.inr ⟨⟨0, reads_onFile _ _ _ _ _ _⟩, UInt64.not_lt_zero⟩))
  · have hearly : 0 < initial := UInt64.pos_iff_ne_zero.mpr hzero
    rcases Nat.lt_or_ge (blockStartLocation initial).toNat (2 ^ 63) with hlt | hge
    · exact .inr (.inr (.inl ⟨⟨rfl, rfl, rfl, rfl, rfl, hlt⟩, hearly⟩))
    · exact .inr (.inl ⟨rfl, hge, hearly⟩)

end Visits
end Reader

/-- In a run of calls every record of unknown type is reported and passed over, exactly when none
of them has one of the two types that stand for the end of the file and for a bad record. -/
theorem unknownTypes_iff {content : Bytes} (hsize : content.length < 2 ^ 63) (filename : Bytes)
    (reports : List Report) (checksum : Bool) (backingStore : ℕ) (initial : UInt64)
    (kLittleEndian : Bool) (n : ℕ) :
    (∀ x ∈ visits kLittleEndian n ⟨0, 0⟩
        (Reader.onFile content filename (some reports) checksum backingStore initial),
      x.Handles kLittleEndian content checksum) ↔
    ∀ x ∈ visits kLittleEndian n ⟨0, 0⟩
        (Reader.onFile content filename (some reports) checksum backingStore initial),
      x.Distinct content checksum :=
  visits_handled hsize n (rests_onFile content filename reports checksum backingStore initial) _

/-- A record of type 5, with the checksums off: its round, and one at the end in each call. -/
theorem unknownTypes_iff_five :
    (visits true 2 ⟨0, 0⟩ (Reader.onFile [0, 0, 0, 0, 0, 0, 5] [] (some []) false 0 0)).length =
      3 ∧
    ∀ x ∈ visits true 2 ⟨0, 0⟩ (Reader.onFile [0, 0, 0, 0, 0, 0, 5] [] (some []) false 0 0),
      x.Handles true [0, 0, 0, 0, 0, 0, 5] false := by
  refine ⟨by decide, ?_⟩
  refine (unknownTypes_iff (by decide) [] [] false 0 0 true 2).mpr fun x _ t type payload h => ?_
  have hin := record_lt h.found
  have hstart : t.position = 0 := by
    unfold kHeaderSize at hin
    simp only [List.length_cons, List.length_nil] at hin
    omega
  have hfound := h.found
  rw [hstart] at hfound
  cases hfound
  decide

/-- A record of type 6 is taken for the end of the file. -/
theorem endType_unreported :
    ¬ ∀ x ∈ visits true 1 ⟨0, 0⟩
        (Reader.onFile [0, 0, 0, 0, 0, 0, 6, 0, 0, 0, 0, 0, 0, 1] [] (some []) false 0 0),
      x.Handles true [0, 0, 0, 0, 0, 0, 6, 0, 0, 0, 0, 0, 0, 1] false := by
  intro hall
  have hfound : outcome [0, 0, 0, 0, 0, 0, 6, 0, 0, 0, 0, 0, 0, 1] false 0 = .record 6 [] := rfl
  obtain ⟨v, s, hafter, -⟩ := hall ⟨⟨0, 0⟩, ⟨[], false, 0, []⟩, _⟩
    (List.mem_append_left _ (List.mem_singleton_self _)) _ 6 [] ⟨rfl, hfound, by decide, by decide⟩
  cases hafter

end Ibdb.Log
