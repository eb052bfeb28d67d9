import Ibdb.Log.UnknownTypes

/-! What a reader that starts in the middle of an intact log reports. -/
namespace Ibdb.Log
open Base Fragmented Reader

namespace Reader

/-- The reader is at a position of a log, in front of these fragments. -/
structure OnLog (c : Bytes) (checksum : Bool) (initial : UInt64) (p : ℕ) (fs : List Fragment)
    (r : Reader) : Prop where
  reads : Reads c p r
  laid : Laid p fs
  accepted : ∀ f ∈ fs, outcome c checksum f.tag = .record (recordTypeOf f.kind).toNat f.payload
  length : c.length ≤ stopFrom p fs
  size : ∀ f ∈ fs, f.tag < 2 ^ 63
  sameChecksum : r.checksum = checksum
  sameInitial : r.initialOffset = initial

section Log
variable {c : Bytes} {checksum : Bool} {initial : UInt64} {kLittleEndian : Bool} {p : ℕ}
  {f : Fragment} {fs : List Fragment} {r s : Reader} {v : Locals}

theorem OnLog.finding (h : OnLog c checksum initial p fs r) :
    Finding c checksum initial p (eventsFrom initial fs) r :=
  ⟨h.reads, scan_eventsFrom h.laid h.accepted h.length h.size, h.sameChecksum, h.sameInitial⟩

theorem OnLog.samePlace (h : OnLog c checksum initial p fs r) (hs : SamePlace r s) :
    OnLog c checksum initial p fs s :=
  ⟨hs.reads h.reads, h.laid, h.accepted, h.length, h.size, hs.checksum.trans h.sameChecksum,
    hs.initialOffset.trans h.sameInitial⟩

theorem OnLog.readPhysicalRecord (h : OnLog c checksum initial p (f :: fs) r)
    (kLittleEndian : Bool) (fragment : Bytes) :
    ∃ s, r.readPhysicalRecord kLittleEndian fragment =
        ((if startsFrom initial f then ((recordTypeOf f.kind).toNat, f.payload)
          else (kBadRecord, [])), s) ∧
      OnLog c checksum initial (Fragment.stop f) fs s ∧ SameRecord r s ∧
      s.reporter = r.reporter := by
  obtain ⟨hreads, ⟨htag, -, hrest⟩, haccepted, hlength, hsize, hchecksum, hinitial⟩ := h
  have hf := haccepted f List.mem_cons_self
  have hlt := @ofNat_lt_iff initial _ (hsize f List.mem_cons_self)
  have hfinds := hreads.readPhysicalRecord kLittleEndian fragment
  rw [hchecksum, ← htag, hf] at hfinds
  generalize r.readPhysicalRecord kLittleEndian fragment = found at hfinds ⊢
  obtain ⟨result, s⟩ := found
  obtain ⟨hresult, hs, hsame, hreporter⟩ := hfinds
  have hcond : (if UInt64.ofNat f.tag < r.initialOffset then (kBadRecord, ([] : Bytes))
      else ((recordTypeOf f.kind).toNat, f.payload)) =
      if startsFrom initial f then ((recordTypeOf f.kind).toNat, f.payload)
        else (kBadRecord, []) := by
    rw [hinitial]
    unfold startsFrom
    by_cases hearly : f.tag < initial.toNat
    · rw [if_pos (hlt.mpr hearly), if_neg (by simpa using hearly)]
    · rw [if_neg (mt hlt.mp hearly), if_pos (by simpa using hearly)]
  rw [hcond] at hresult
  rw [hresult]
  exact ⟨s, rfl, ⟨hs, hrest, fun g hg => haccepted g (List.mem_cons_of_mem f hg), hlength,
    fun g hg => hsize g (List.mem_cons_of_mem f hg), hsame.checksum.trans hchecksum,
    hsame.initialOffset.trans hinitial⟩, hsame, hreporter⟩

/-- A round for a fragment while nothing is pending, unless it reports the fragment. -/
theorem round_unpending (hv : v.inFragmentedRecord = false) (k : Kind)
    (hquiet : r.resyncing = false → k = .full ∨ k = .first) :
    (r.round (recordTypeOf k).toNat v).2.reporter = r.reporter ∧
      (r.round (recordTypeOf k).toNat v).2.resyncing = (r.resyncing && decide (k = .middle)) := by
  unfold round
  cases k <;> cases hr : r.resyncing <;> simp_all [recordTypeOf, RecordType.toNat]

@[simp] theorem eventsFrom_length (initial : UInt64) (fs : List Fragment) :
    (eventsFrom initial fs).length = fs.length := List.length_map _

/-- A round passes over a fragment in front of the initial offset, and ends the resyncing. -/
theorem OnLog.recordLoop_early (h : OnLog c checksum initial p (f :: fs) r)
    (hv : v.inFragmentedRecord = false) (hearly : startsFrom initial f = false)
    (kLittleEndian : Bool) (fuel : ℕ) :
    ∃ s, r.recordLoop kLittleEndian (fuel + 1) v =
        s.recordLoop kLittleEndian fuel { v with fragment := [] } ∧
      OnLog c checksum initial (Fragment.stop f) fs s ∧ s.reporter = r.reporter ∧
      s.resyncing = false := by
  obtain ⟨s, hread, hs, -, hreporter⟩ := h.readPhysicalRecord kLittleEndian v.fragment
  rw [if_neg (by simp [hearly])] at hread
  have hbad : s.round kBadRecord { v with fragment := [] } =
      (.inr { v with fragment := [] }, { s with resyncing := false }) := by
    rw [round_bad, if_neg (by simp [hv])]
  refine ⟨{ s with resyncing := false }, ?_, hs.samePlace ⟨rfl, rfl, rfl, rfl, rfl, rfl⟩, hreporter,
    rfl⟩
  rw [Reader.recordLoop, hread]
  simp only [hbad]

/-- While it is resyncing a round reports nothing, and goes on resyncing past the middle of a
record. -/
theorem OnLog.round_resyncing (h : OnLog c checksum initial p (f :: fs) r) (hv : Pending v none)
    (hstarts : startsFrom initial f = true) (hresyncing : r.resyncing = true)
    (kLittleEndian : Bool) :
    ∃ s, r.readPhysicalRecord kLittleEndian v.fragment =
        (((recordTypeOf f.kind).toNat, f.payload), s) ∧
      let round := s.round (recordTypeOf f.kind).toNat { v with fragment := f.payload }
      Follows (accept none (.piece f)) round ∧
        OnLog c checksum initial (Fragment.stop f) fs round.2 ∧
        round.2.reporter = r.reporter ∧ round.2.resyncing = decide (f.kind = .middle) := by
  obtain ⟨s, hread, hs, hsame, hreporter⟩ := h.readPhysicalRecord kLittleEndian v.fragment
  rw [if_pos hstarts] at hread
  have hsync : s.resyncing = true := hsame.resyncing.trans hresyncing
  have hv' := hv.setFragment f.payload
  have hfollows := round_piece hv' (fun _ => rfl) f rfl (hs.reads.offset_eq rfl)
  have hplace := round_samePlace (recordTypeOf f.kind).toNat { v with fragment := f.payload } s
  have hquiet : s.resyncing = false → f.kind = .full ∨ f.kind = .first := by
    intro hno
    rw [hsync] at hno
    cases hno
  obtain ⟨hreporter', hsync'⟩ := round_unpending hv' f.kind hquiet
  rw [hsync, Bool.true_and] at hsync'
  exact ⟨s, hread, hfollows, hs.samePlace hplace, hreporter'.trans hreporter, hsync'⟩

/-- The first call on a log that gives no reason to report anything. -/
theorem OnLog.recordLoop (h : OnLog c checksum initial p fs r) (kLittleEndian : Bool)
    (hv : Pending v none) (hquiet : Quiet r.resyncing (eventsFrom initial fs)) {fuel : ℕ}
    (hfuel : fs.length < fuel) :
    ∃ record s, r.recordLoop kLittleEndian fuel v = .ok (record, s) ∧
      Returns c checksum initial True r.reporter (assemble none (eventsFrom initial fs)) record
        s := by
  obtain ⟨fuel, rfl⟩ : ∃ n, fuel = n + 1 := Nat.exists_eq_succ_of_ne_zero (by omega)
  induction fs generalizing p r v fuel with
  | nil =>
    have found : outcome c r.checksum (headerPos p) = .eof := outcome_of_le h.length r.checksum
    obtain ⟨s, hloop, hended, hinitial, hreporter⟩ :=
      h.reads.recordLoop_eof found kLittleEndian v fuel
    exact ⟨none, s, hloop, .none hended (hinitial.trans h.sameInitial) fun _ => hreporter⟩
  | cons f fs ih =>
    obtain ⟨fuel, rfl⟩ : ∃ n, fuel = n + 1 :=
      Nat.exists_eq_succ_of_ne_zero (by simp at hfuel; omega)
    have hroom : fs.length < fuel + 1 := Nat.lt_of_succ_lt_succ hfuel
    by_cases hstarts : startsFrom initial f = true
    · cases hresyncing : r.resyncing with
      | false =>
        -- In step from here on.
        rw [hresyncing] at hquiet
        have horder : InOrder false (eventsFrom initial (f :: fs)) := by
          rw [eventsFrom_cons, if_pos hstarts] at hquiet ⊢
          exact hquiet
        exact recordLoop_spec h.finding hv (fun _ => rfl) (fun _ => ⟨rfl, hresyncing, horder⟩)
          (by simpa using hfuel)
      | true =>
        rw [eventsFrom_cons, if_pos hstarts, hresyncing] at hquiet
        have htail := hquiet.tail
        obtain ⟨s, hread, hfollows, hu, hreporter, hsync⟩ :=
          h.round_resyncing hv hstarts hresyncing kLittleEndian
        rw [Reader.recordLoop, hread, eventsFrom_cons, if_pos hstarts, assemble]
        dsimp only at hfollows hu hreporter hsync ⊢
        generalize s.round (recordTypeOf f.kind).toNat { v with fragment := f.payload } = round
          at hfollows hu hreporter hsync ⊢
        obtain ⟨answer, u⟩ := round
        dsimp only at hu hreporter hsync
        rw [← hreporter]
        rcases haccept : accept none (.piece f) with ⟨content, t⟩ | _ | pair
        · rw [haccept] at hfollows htail
          obtain ⟨rfl, hoffset⟩ := hfollows
          rw [decide_eq_false htail.1] at hsync
          exact ⟨_, u, rfl, .record hoffset hu.finding fun _ => ⟨rfl, hsync, htail.2⟩⟩
        · rw [haccept] at hfollows htail
          obtain ⟨w, rfl, hw, -⟩ := hfollows
          rw [← hsync] at htail
          exact ih hu hw htail fuel hroom
        · rw [haccept] at hfollows htail
          obtain ⟨w, rfl, hw, hresync⟩ := hfollows
          rw [decide_eq_false htail.1] at hsync
          have hsilent : Silent u.reporter true (eventsFrom initial fs) u := ⟨rfl, hsync, htail.2⟩
          exact recordLoop_spec hu.finding hw hresync (fun _ => hsilent) (by simpa using hroom)
    · rw [eventsFrom_cons, if_neg hstarts] at hquiet ⊢
      obtain ⟨s, hloop, hs, hreporter, hsync⟩ := h.recordLoop_early hv
        (Bool.eq_false_of_not_eq_true hstarts) kLittleEndian (fuel + 1)
      have hrest : Quiet s.resyncing (eventsFrom initial fs) := by
        rw [hsync]
        exact hquiet
      rw [hloop, ← hreporter]
      exact ih hs (hv.setFragment []) hrest fuel hroom

/-- The rest of a record is reported when the reader waits for no rest. -/
theorem round_rest (hv : v.inFragmentedRecord = false) (hresyncing : r.resyncing = false)
    {k : Kind} (hrest : k = .middle ∨ k = .last) :
    ∃ reason, r.round (recordTypeOf k).toNat v =
      (.inr v, { r with resyncing := false }.reportCorruption v.fragment.length reason) := by
  unfold round
  rcases hrest with rfl | rfl <;> simp [recordTypeOf, RecordType.toNat, hv, hresyncing] <;>
    exact ⟨_, rfl⟩

theorem OnLog.round_reports (h : OnLog c checksum initial p (f :: fs) r) (kLittleEndian : Bool)
    (hv : v.inFragmentedRecord = false) (hstarts : startsFrom initial f = true)
    (hrest : f.kind = .middle ∨ f.kind = .last) (hresyncing : r.resyncing = false) :
    ∃ s, r.readPhysicalRecord kLittleEndian v.fragment =
        (((recordTypeOf f.kind).toNat, f.payload), s) ∧
      ∃ report, (s.round (recordTypeOf f.kind).toNat { v with fragment := f.payload }).2.reporter =
        r.reporter.map (· ++ [report]) := by
  obtain ⟨s, hread, hs, hsame, hreporter⟩ := h.readPhysicalRecord kLittleEndian v.fragment
  rw [if_pos hstarts] at hread
  have hin := h.size f List.mem_cons_self
  have hfits := h.laid.fits List.mem_cons_self
  have hend := hfits.stop_le
  rw [blockEnd_eq] at hend
  obtain ⟨reason, hround⟩ := round_rest (r := s) (v := { v with fragment := f.payload }) hv
    (hsame.resyncing.trans hresyncing) hrest
  have hsync : OnLog c checksum initial (Fragment.stop f) fs { s with resyncing := false } :=
    hs.samePlace ⟨rfl, rfl, rfl, rfl, rfl, rfl⟩
  have hbytes : ({ s with resyncing := false } : Reader).initialOffset.toNat + f.payload.length ≤
      Fragment.stop f := by
    have hle := of_decide_eq_true hstarts
    rw [hsync.sameInitial]
    unfold Fragment.stop
    omega
  have hlt : Fragment.stop f < 2 ^ 64 := by omega
  have hreport := hsync.reads.reportDrop hlt hbytes (.corruption reason)
  refine ⟨s, hread, ⟨UInt64.ofNat f.payload.length, .corruption reason⟩, ?_⟩
  rw [hround]
  refine hreport.trans ?_
  show s.reporter.map _ = _
  rw [hreporter]

/-- A first call that comes past a fragment in front of the initial offset, and then to the rest of
a record, reports that rest. -/
theorem OnLog.recordLoop_reports {early late : List Fragment} {fuel : ℕ} {record : Option Bytes}
    (h : OnLog c checksum initial p (early ++ f :: late) r) (hv : v.inFragmentedRecord = false)
    (hearly : ∀ g ∈ early, startsFrom initial g = false) (hstarts : startsFrom initial f = true)
    (hrest : f.kind = .middle ∨ f.kind = .last) (hpast : early ≠ [] ∨ r.resyncing = false)
    (hloop : r.recordLoop kLittleEndian fuel v = .ok (record, s)) :
    ∃ report more, s.reporter = r.reporter.map (· ++ report :: more) := by
  induction early generalizing p r v fuel with
  | nil =>
    have hresyncing : r.resyncing = false := hpast.resolve_left fun hne => hne rfl
    obtain ⟨t, hread, report, hreport⟩ := h.round_reports kLittleEndian hv hstarts hrest
      hresyncing
    cases fuel with
    | zero => cases hloop
    | succ fuel =>
      rw [Reader.recordLoop, hread] at hloop
      dsimp only at hloop
      generalize t.round (recordTypeOf f.kind).toNat { v with fragment := f.payload } = round
        at hloop hreport
      obtain ⟨record' | w, u⟩ := round
      · cases hloop
        exact ⟨report, [], hreport⟩
      · obtain ⟨more, hmore⟩ := recordLoop_grows hloop
        refine ⟨report, more, ?_⟩
        rw [hmore, hreport]
        cases r.reporter <;> simp
  | cons g early ih =>
    cases fuel with
    | zero => cases hloop
    | succ fuel =>
      obtain ⟨t, hskip, ht, hreporter, hsync⟩ := h.recordLoop_early hv
        (hearly g List.mem_cons_self) kLittleEndian fuel
      rw [hskip] at hloop
      rw [← hreporter]
      have hrest : ∀ x ∈ early, startsFrom initial x = false :=
        fun x hx => hearly x (List.mem_cons_of_mem g hx)
      exact ih (v := { v with fragment := [] }) ht hv hrest (.inr hsync) hloop

/-- The first call finds nothing to report, and so do those after it. -/
theorem OnLog.readRecords_silent (h : OnLog c checksum initial p fs s)
    (hquiet : Quiet s.resyncing (eventsFrom initial fs)) (hreporter : s.reporter = r.reporter)
    (hread : r.readRecord kLittleEndian = s.recordLoop kLittleEndian
      (s.buffer.length + (s.file.content.length - s.file.pos) + 1) ⟨[], false, 0, []⟩) (n : ℕ) :
    ∃ out t, r.readRecords kLittleEndian n = .ok (out, t) ∧ t.reporter = r.reporter := by
  cases n with
  | zero => exact ⟨_, r, rfl, rfl⟩
  | succ n =>
    have hlength := scan_length_le h.finding.scan
    have hremaining := h.reads.remaining
    rw [eventsFrom_length] at hlength
    have hfuel : fs.length < s.buffer.length + (s.file.content.length - s.file.pos) + 1 := by omega
    obtain ⟨record, t, hloop, hreturns⟩ := h.recordLoop kLittleEndian
      (v := ⟨[], false, 0, []⟩) rfl hquiet hfuel
    obtain ⟨u, hu, hcalm⟩ := readRecords_of_returns kLittleEndian hreturns (hread.trans hloop)
      (late_of_eventsFrom h.size) fun hs hlast hlate hsilent =>
        readRecords_spec kLittleEndian hs hlast hlate hsilent n
    exact ⟨_, u, hu, (hcalm trivial).trans hreporter⟩

end Log
end Reader

section Refused
variable {kLittleEndian : Bool} {r : Reader}

theorem Refused.readRecords_silent (h : Refused r) (hbuffer : r.buffer = []) (n : ℕ) :
    ∃ out s, r.readRecords kLittleEndian n = .ok (out, s) ∧ s.reporter = r.reporter := by
  induction n generalizing r with
  | zero => exact ⟨_, r, rfl, rfl⟩
  | succ n ih =>
    obtain ⟨s, hskip, hs⟩ := h.skipToInitialBlock
    obtain ⟨hnil, -, -, hreporter⟩ := skipToInitialBlock_spec hbuffer h.early
    rw [hskip] at hnil hreporter
    have hread : r.readRecord kLittleEndian = .ok (none, s) := by
      unfold Reader.readRecord
      dsimp only
      rw [if_pos h.early, hskip]
    obtain ⟨out, t, ht, hreporter'⟩ := ih hs hnil
    refine ⟨none :: out, t, ?_, hreporter'.trans hreporter⟩
    rw [Reader.readRecords, hread, Except.ok_bind]
    simp only [ht, Except.ok_bind]
    rfl

end Refused

section Split
variable {initial : UInt64} {p : ℕ} {fs early late : List Fragment}

/-- The fragments in front of the initial offset, and those from it on. -/
theorem Laid.split_startsFrom (h : Laid p fs) (initial : UInt64) :
    ∃ early late, fs = early ++ late ∧ (∀ f ∈ early, startsFrom initial f = false) ∧
      ∀ f ∈ late, startsFrom initial f = true := by
  induction fs generalizing p with
  | nil => exact ⟨[], [], rfl, by simp, by simp⟩
  | cons f fs ih =>
    obtain ⟨-, -, hrest⟩ := h
    by_cases hf : startsFrom initial f = true
    · refine ⟨[], f :: fs, rfl, by simp, ?_⟩
      intro g hg
      rcases List.mem_cons.mp hg with rfl | hg
      · exact hf
      · have hle := of_decide_eq_true hf
        have hstop := Fragment.tag_lt_stop f
        have htag := hrest.le_tag hg
        exact decide_eq_true (hle.trans (hstop.le.trans htag))
    · obtain ⟨early, late, rfl, hearly, hlate⟩ := ih hrest
      refine ⟨f :: early, late, rfl, ?_, hlate⟩
      intro g hg
      rcases List.mem_cons.mp hg with rfl | hg
      · exact Bool.eq_false_of_not_eq_true hf
      · exact hearly g hg

theorem find?_startsFrom (hearly : ∀ f ∈ early, startsFrom initial f = false)
    (hlate : ∀ f ∈ late, startsFrom initial f = true) :
    (early ++ late).find? (startsFrom initial) = late.head? := by
  have hnone : early.find? (startsFrom initial) = none :=
    List.find?_eq_none.mpr fun f hf => by simp [hearly f hf]
  rw [List.find?_append, hnone, Option.none_or]
  cases late with
  | nil => rfl
  | cons f late => rw [List.find?_cons_of_pos (hlate f List.mem_cons_self), List.head?_cons]

theorem eventsFrom_append (fs gs : List Fragment) :
    eventsFrom initial (fs ++ gs) = eventsFrom initial fs ++ eventsFrom initial gs :=
  List.map_append

theorem eventsFrom_early (hearly : ∀ f ∈ early, startsFrom initial f = false) :
    eventsFrom initial early = List.replicate early.length .gap := by
  rw [eventsFrom, ← List.map_const']
  apply List.map_congr_left
  intro f hf
  rw [if_neg (by simp [hearly f hf])]

theorem eventsFrom_late (hlate : ∀ f ∈ late, startsFrom initial f = true) :
    eventsFrom initial late = late.map .piece := by
  apply List.map_congr_left
  intro f hf
  rw [if_pos (hlate f hf)]

/-- When the reader comes past no fragment in front of the initial offset, or comes to a record's
start behind them, it has nothing to report. -/
theorem quiet_eventsFrom {front : List Fragment}
    (horder : InOrder false ((front ++ (early ++ late)).map Event.piece))
    (hearly : ∀ f ∈ early, startsFrom initial f = false)
    (hlate : ∀ f ∈ late, startsFrom initial f = true)
    (hcalm : early = [] ∨ ∀ f ∈ late.head?, f.kind = .full ∨ f.kind = .first) {resyncing : Bool}
    (hstart : resyncing = false → front = [] ∧ early = []) :
    Quiet resyncing (eventsFrom initial (early ++ late)) := by
  rw [eventsFrom_append, eventsFrom_early hearly, eventsFrom_late hlate]
  rw [← List.append_assoc, List.map_append] at horder
  obtain ⟨pending, hpending⟩ := horder.of_append_right
  cases early with
  | nil =>
    cases resyncing with
    | false =>
      obtain ⟨rfl, -⟩ := hstart rfl
      exact quiet_of_inOrder horder
    | true => exact quiet_joined hpending
  | cons f early =>
    have hhead := hcalm.resolve_left (List.cons_ne_nil f early)
    have hquiet : Quiet false (late.map Event.piece) := by
      cases late with
      | nil => trivial
      | cons g late => exact quiet_of_inOrder (hpending.of_start (hhead g rfl))
    have hgaps := @quiet_gaps _ _ early.length _ hquiet
    cases resyncing <;> exact hgaps

end Split

/-- The fragments of a log for a reader with an initial offset: those in front of the block it goes
to, those it passes over from there on, and those it takes. -/
structure Divided (rs : List Bytes) (initial : UInt64) (front early late : List Fragment) :
    Prop where
  fragments : emitted 0 rs = front ++ (early ++ late)
  before : ∀ f ∈ front, f.tag < (blockStartLocation initial).toNat
  skipped : ∀ f ∈ early, startsFrom initial f = false
  taken : ∀ f ∈ late, startsFrom initial f = true
  laid : Laid (blockStartLocation initial).toNat (early ++ late)
  length : (layout rs).length ≤ stopFrom (blockStartLocation initial).toNat (early ++ late)

theorem exists_divided (rs : List Bytes) (initial : UInt64) :
    ∃ front early late, Divided rs initial front early late := by
  obtain ⟨front, rest, hsplit, hfront, hlaid, hstop⟩ :=
    (laid_emitted 0 rs).split_block (blockStartLocation_mod initial) (Nat.zero_le _)
  obtain ⟨early, late, rfl, hearly, hlate⟩ := hlaid.split_startsFrom initial
  rw [← length_layout] at hstop
  exact ⟨front, early, late, hsplit, hfront, hearly, hlate, hlaid, hstop⟩

namespace Divided
variable {rs : List Bytes} {initial : UInt64} {front early late : List Fragment} {f : Fragment}

theorem front_early (h : Divided rs initial front early late) :
    ∀ f ∈ front ++ early, startsFrom initial f = false := by
  intro f hf
  rcases List.mem_append.mp hf with hf | hf
  · have hall : f ∈ emitted 0 rs := by
      rw [h.fragments]
      exact List.mem_append_left (early ++ late) hf
    exact startsFrom_of_lt hall (h.before f hf)
  · exact h.skipped f hf

theorem find?_eq (h : Divided rs initial front early late) :
    (emitted 0 rs).find? (startsFrom initial) = late.head? := by
  rw [h.fragments, ← List.append_assoc]
  exact find?_startsFrom h.front_early h.taken

/-- The reader passes over nothing from its block on exactly when nothing starts between the block
and the initial offset. -/
theorem early_eq_nil_iff (h : Divided rs initial front early late) :
    early = [] ↔ ∀ f ∈ emitted 0 rs, f.tag < initial.toNat →
      f.tag < (blockStartLocation initial).toNat := by
  rw [h.fragments]
  constructor
  · rintro rfl f hf hlt
    rcases List.mem_append.mp hf with hf | hf
    · exact h.before f hf
    · exact absurd hlt (Nat.not_lt.mpr (of_decide_eq_true (h.taken f hf)))
  · intro hall
    apply List.eq_nil_iff_forall_not_mem.mpr
    intro f hf
    have hin : f ∈ early ++ late := List.mem_append_left late hf
    have hlt := Nat.not_le.mp (of_decide_eq_false (h.skipped f hf))
    have hle := h.laid.le_tag hin
    exact absurd (hall f (List.mem_append_right front hin) hlt) (Nat.not_lt.mpr hle)

theorem onLog (h : Divided rs initial front early late) (hsize : (layout rs).length < 2 ^ 63)
    {s : Reader} (hreads : Reads (layout rs) (blockStartLocation initial).toNat s)
    (hinitial : s.initialOffset = initial) :
    OnLog (layout rs) s.checksum initial (blockStartLocation initial).toNat (early ++ late) s := by
  have hin : ∀ f ∈ early ++ late, f ∈ emitted 0 rs := by
    intro f hf
    rw [h.fragments]
    exact List.mem_append_right front hf
  exact ⟨hreads, h.laid, fun f hf => outcome_layout (hin f hf) s.checksum, h.length,
    fun f hf => tag_lt_of_size hsize (hin f hf), rfl, hinitial⟩

section Read
variable (kLittleEndian : Bool) (filename : Bytes) (reports : List Report) (checksum : Bool)
  (backingStore : ℕ)

theorem silent (h : Divided rs initial front early late) (hsize : (layout rs).length < 2 ^ 63)
    (hlt : (blockStartLocation initial).toNat < 2 ^ 63)
    (hcalm : early = [] ∨ ∀ f ∈ late.head?, f.kind = .full ∨ f.kind = .first) (n : ℕ) :
    ∃ out r, (Reader.onFile (layout rs) filename (some reports) checksum backingStore
      initial).readRecords kLittleEndian n = .ok (out, r) ∧ r.reporter = some reports := by
  obtain ⟨s, hread, hreads, -, hinitial, hreporter, hresyncing⟩ := @readRecord_onFile (layout rs)
    initial kLittleEndian filename (some reports) checksum backingStore hlt
  have horder : InOrder false ((front ++ (early ++ late)).map Event.piece) := by
    rw [← h.fragments]
    exact inOrder_of_prefix (List.prefix_refl _)
  have hstart : s.resyncing = false → front = [] ∧ early = [] := by
    intro hsync
    rw [hresyncing] at hsync
    have hzero : initial = 0 :=
      Decidable.not_not.mp (mt UInt64.pos_iff_ne_zero.mpr (of_decide_eq_false hsync))
    have hnil : front ++ early = [] := by
      apply List.eq_nil_iff_forall_not_mem.mpr
      intro f hf
      have hfront := Nat.not_le.mp (of_decide_eq_false (h.front_early f hf))
      rw [hzero] at hfront
      exact absurd hfront (Nat.not_lt_zero _)
    exact List.append_eq_nil_iff.mp hnil
  have hquiet := quiet_eventsFrom horder h.skipped h.taken hcalm hstart
  exact (h.onLog hsize hreads hinitial).readRecords_silent hquiet hreporter hread n

/-- Behind a fragment that is passed over, the rest of a record is reported. -/
theorem reported (h : Divided rs initial front early late) (hsize : (layout rs).length < 2 ^ 63)
    (hlt : (blockStartLocation initial).toNat < 2 ^ 63) (hearly : early ≠ [])
    (hfirst : late.head? = some f) (hrest : f.kind = .middle ∨ f.kind = .last) :
    ∃ out r report more, (Reader.onFile (layout rs) filename (some reports) checksum backingStore
      initial).readRecords kLittleEndian 1 = .ok (out, r) ∧
        r.reporter = some (reports ++ report :: more) := by
  obtain ⟨s, hloop, hreads, -, hinitial, hreporter, -⟩ := @readRecord_onFile (layout rs) initial
    kLittleEndian filename (some reports) checksum backingStore hlt
  have hlog := h.onLog hsize hreads hinitial
  obtain ⟨record, r, hcall, -⟩ := @recordLoop_start kLittleEndian _ _ _ False (some reports) _ _ _
    hlog.finding False.elim
  obtain ⟨rest, rfl⟩ := List.head?_eq_some_iff.mp hfirst
  obtain ⟨report, more, hmore⟩ := hlog.recordLoop_reports rfl h.skipped
    (h.taken f List.mem_cons_self) hrest (.inl hearly) hcall
  rw [hreporter] at hmore
  refine ⟨[record.map (·, r.lastRecordOffset)], r, report, more, ?_, hmore⟩
  rw [Reader.readRecords, hloop.trans hcall, Except.ok_bind]
  rfl

end Read
end Divided

/-- Reading an intact log from an initial offset on reports nothing, exactly when no fragment starts
between the block of the offset and the offset, or the first one from the offset on starts a record.
A file has less than 2^63 bytes, as `off_t` is signed. -/
theorem seekSilent_iff {rs : List Bytes} {content : Bytes} (hlog : IsLog rs content)
    (hsize : content.length < 2 ^ 63) (kLittleEndian : Bool) (filename : Bytes)
    (reports : List Report) (checksum : Bool) (backingStore : ℕ) (initial : UInt64) :
    (∀ n, ∃ out r, (Reader.onFile content filename (some reports) checksum backingStore
      initial).readRecords kLittleEndian n = .ok (out, r) ∧ r.reporter = some reports) ↔
    (∀ f ∈ emitted 0 rs, f.tag < initial.toNat → f.tag < (blockStartLocation initial).toNat) ∨
      ∀ f ∈ (emitted 0 rs).find? (startsFrom initial), f.kind = .full ∨ f.kind = .first := by
  rw [isLog_iff.mp hlog] at hsize ⊢
  obtain ⟨front, early, late, h⟩ := exists_divided rs initial
  rw [← h.early_eq_nil_iff, h.find?_eq]
  rcases Nat.lt_or_ge (blockStartLocation initial).toNat (2 ^ 63) with hlt | hge
  · constructor
    · intro hsilent
      by_contra hcalm
      rw [not_or] at hcalm
      obtain ⟨hearly, hfirst⟩ := hcalm
      push Not at hfirst
      obtain ⟨f, hf, hfull, hstart⟩ := hfirst
      have hrest : f.kind = .middle ∨ f.kind = .last := by
        cases hkind : f.kind <;> simp_all
      obtain ⟨out, r, hread, hreporter⟩ := hsilent 1
      obtain ⟨out', r', report, more, hread', hmore⟩ := h.reported kLittleEndian filename reports
        checksum backingStore hsize hlt hearly hf hrest
      cases hread.symm.trans hread'
      rw [hreporter, Option.some_inj] at hmore
      simpa using congrArg List.length hmore
    · exact fun hcalm n => h.silent kLittleEndian filename reports checksum backingStore hsize hlt
        hcalm n
  · have hearly : early = [] := by
      apply h.early_eq_nil_iff.mpr
      intro f hf _
      exact (tag_lt_of_size hsize hf).trans_le hge
    have hrefused := refused_onFile (layout rs) filename (some reports) checksum backingStore hge
    constructor
    · exact fun _ => .inl hearly
    · exact fun _ n => hrefused.readRecords_silent rfl n

/-- From offset 1 on a log of two short records is read without a report: the second one starts
there. -/
theorem seekSilent_iff_second :
    ∃ out r, (Reader.onFile (layout [[1], [2]]) [] (some []) true 0 1).readRecords true 2 =
      .ok (out, r) ∧ r.reporter = some [] := by
  refine (seekSilent_iff (isLog_iff.mpr rfl) ?_ true [] [] true 0 1).mpr (.inr ?_) 2
  · rw [length_layout_pair]
    decide
  · rw [emitted_pair]
    decide

theorem emitted_straddling :
    emitted 0 [List.replicate 5000 0] =
      [⟨.first, List.replicate 4089 0, 0⟩, ⟨.last, List.replicate 911 0, 4096⟩] := by
  have havail : avail (headerPos 0) = 4089 := by decide
  have hrest : avail (headerPos (blockEnd (headerPos 0))) = 4089 := by decide
  rw [emitted_cons, emitted_nil, List.append_nil, fragments_of_lt, fragments_of_le,
    havail, List.take_replicate, List.drop_replicate]
  · rfl
  · rw [havail, hrest, List.drop_replicate, List.length_replicate]
    decide
  · rw [havail, List.length_replicate]
    decide

/-- From offset 1 on the tail of a record that starts in front of it is reported. -/
theorem straddlingRecord_reported :
    IsLog [List.replicate 5000 0] (layout [List.replicate 5000 0]) ∧
    ∃ out r report more,
      (Reader.onFile (layout [List.replicate 5000 0]) [] (some []) true 0 1).readRecords true 1 =
        .ok (out, r) ∧ r.reporter = some (report :: more) := by
  have hemitted := emitted_straddling
  have hlength := length_layout [List.replicate 5000 0]
  rw [hemitted] at hlength
  have hblock : (blockStartLocation 1).toNat = 0 := by decide
  have h : Divided [List.replicate 5000 0] 1 [] [⟨.first, List.replicate 4089 0, 0⟩]
      [⟨.last, List.replicate 911 0, 4096⟩] := by
    refine ⟨hemitted, List.forall_mem_nil _, List.forall_mem_singleton.mpr rfl,
      List.forall_mem_singleton.mpr rfl, ?_, ?_⟩
    · have hlaid := laid_emitted 0 [List.replicate 5000 0]
      rw [hemitted] at hlaid
      rw [hblock]
      exact hlaid
    · rw [hlength, hblock]
      rfl
  refine ⟨isLog_iff.mpr rfl, ?_⟩
  apply h.reported true [] [] true 0 _ _ (List.cons_ne_nil _ _) rfl (.inr rfl)
  · rw [hlength, stopFrom_cons, stopFrom_cons, stopFrom_nil, Fragment.stop, List.length_replicate]
    decide
  · rw [hblock]
    decide

end Ibdb.Log
