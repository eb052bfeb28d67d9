import Ibdb.Log.RoundTrip

/-! A log with changed blocks is read back but for records that have a fragment in one of them. -/
namespace Ibdb.Log
open Base Fragmented Reader

/-- The file of a writer that added the records to an empty file. -/
def IsLog (rs : List Bytes) (content : Bytes) : Prop :=
  ∃ le t directory fs logName calls s,
    IbdbWriter.addRecords le calls (IbdbWriter.onEmptyFile le t directory fs logName) =
      (.ok (calls.map fun _ => .ok), s) ∧
    s.1 (resolve directory logName) = some content ∧ calls.map Prod.snd = rs

theorem isLog_iff {rs : List Bytes} {content : Bytes} : IsLog rs content ↔ content = layout rs := by
  constructor
  · rintro ⟨le, t, directory, fs, logName, calls, s, hadd, hfile, rfl⟩
    obtain ⟨s', hadd', hfile'⟩ := (fresh_onEmptyFile le t directory fs logName).addRecords calls
    rw [hadd] at hadd'
    cases hadd'
    exact Option.some.inj (hfile.symm.trans hfile')
  · rintro rfl
    obtain ⟨s, hadd, hfile⟩ := (fresh_onEmptyFile true 0 [] (fun _ => none) []).addRecords
      (rs.map fun r => (0, r))
    have hcalls : (rs.map fun r => (0, r)).map Prod.snd = rs := by
      rw [List.map_map]
      exact List.map_id rs
    rw [hcalls] at hfile
    exact ⟨true, 0, [], _, [], _, s, hadd, hfile, hcalls⟩

/-- The positions at which the reader looks for a header, with the checksums on. -/
inductive Reached (c : Bytes) : ℕ → Prop
  | start : Reached c 0
  | record {p type : ℕ} {payload : Bytes} (h : Reached c p)
      (found : outcome c true p = .record type payload) :
      Reached c (headerPos (p + kHeaderSize + payload.length))
  | bad {p : ℕ} (h : Reached c p) (found : outcome c true p = .bad) :
      Reached c (headerPos (p + (blockRest c p).length))

/-- The reader finds the fragment where it was written. -/
def Accepted (c : Bytes) (f : Fragment) : Prop :=
  outcome c true f.tag = .record (recordTypeOf f.kind).toNat f.payload

instance (c : Bytes) (f : Fragment) : Decidable (Accepted c f) :=
  inferInstanceAs (Decidable (outcome c true f.tag = _))

def Survives (c : Bytes) (fs : List Fragment) (f : Fragment) : Prop :=
  ∀ g ∈ fs, blockEnd g.tag = blockEnd f.tag → g.tag ≤ f.tag → Accepted c g

instance (c : Bytes) (fs : List Fragment) (f : Fragment) : Decidable (Survives c fs f) :=
  inferInstanceAs (Decidable (∀ g ∈ fs, _ → _ → Accepted c g))

/-- The fragments outside of the changed blocks are there, and in the changed blocks the reader
accepts no others than those written. -/
structure Damaged (c : Bytes) (B : Set ℕ) (all : List Fragment) : Prop where
  length : c.length = stopFrom 0 all
  laid : Laid 0 all
  intact : ∀ f ∈ all, f.tag / kBlockSize ∉ B → Accepted c f
  checked : ∀ p, Reached c p → p / kBlockSize ∈ B → ∀ type payload,
    outcome c true p = .record type payload →
    ∃ f ∈ all, f.tag = p ∧ (recordTypeOf f.kind).toNat = type ∧ f.payload = payload

/-- The fragments in front of the position and those from it on. -/
structure Split (c : Bytes) (all done fs : List Fragment) (p : ℕ) : Prop where
  split : all = done ++ fs
  before : ∀ g ∈ done, g.tag < p
  laid : Laid p fs
  length : stopFrom p fs = c.length

/-- The reader is at the position, and accepted what is in front of it in its block. -/
structure Synced (c : Bytes) (all done fs : List Fragment) (p : ℕ) : Prop
    extends Split c all done fs p where
  reached : Reached c (headerPos p)
  accepted : ∀ g ∈ done, blockEnd g.tag = blockEnd (headerPos p) → Accepted c g

/-- The reader dropped the block that ends at `b`. -/
structure Dropped (c : Bytes) (all done fs : List Fragment) (p b : ℕ) : Prop
    extends Split c all done fs p where
  block : b % 4096 = 0
  within : p = b ∨ blockEnd p = b
  reached : Reached c (headerPos (min b c.length))
  damaged : ∃ g ∈ all, blockEnd g.tag = b ∧ g.tag ≤ p ∧ ¬ Accepted c g

section Steps
variable {c : Bytes} {B : Set ℕ} {all done fs : List Fragment} {f : Fragment} {p b : ℕ}

theorem blockEnd_mono {p q : ℕ} (h : p ≤ q) : blockEnd p ≤ blockEnd q := by
  rw [blockEnd_eq, blockEnd_eq]
  omega

theorem Split.tail (h : Split c all done (f :: fs) p) :
    Split c all (done ++ [f]) fs (Fragment.stop f) := by
  obtain ⟨htag, -, hrest⟩ := h.laid
  have hle := le_headerPos p
  have hstop := Fragment.tag_lt_stop f
  refine ⟨by simp [h.split], ?_, hrest, h.length⟩
  intro g hg
  rcases List.mem_append.mp hg with hg | hg
  · have hlt := h.before g hg
    omega
  · rw [List.mem_singleton.mp hg]
    omega

theorem Split.eq_of_tag (h : Split c all done (f :: fs) p) {g : Fragment} (hg : g ∈ all)
    (htag : g.tag = f.tag) : g = f := by
  obtain ⟨hf, -, hrest⟩ := h.laid
  have hle := le_headerPos p
  rw [h.split] at hg
  rcases List.mem_append.mp hg with hg | hg
  · have hlt := h.before g hg
    omega
  · rcases List.mem_cons.mp hg with rfl | hg
    · rfl
    · have hlt := hrest.le_tag hg
      have hstop := Fragment.tag_lt_stop f
      omega

theorem Synced.piece (h : Synced c all done (f :: fs) p) (hf : Accepted c f) :
    Synced c all (done ++ [f]) fs (Fragment.stop f) where
  toSplit := h.toSplit.tail
  reached := by
    have hreached := h.reached
    rw [← h.laid.1] at hreached
    exact hreached.record hf
  accepted := by
    intro g hg hblock
    rcases List.mem_append.mp hg with hg | hg
    · apply h.accepted g hg
      have hlt := h.before g hg
      have hle := le_headerPos p
      have hstop := Fragment.tag_lt_stop f
      have hnext := le_headerPos (Fragment.stop f)
      have htag := h.laid.1
      apply le_antisymm
      · apply blockEnd_mono
        omega
      · rw [hblock]
        apply blockEnd_mono
        omega
    · rw [List.mem_singleton.mp hg]
      exact hf

theorem Synced.survives (h : Synced c all done (f :: fs) p) (hf : Accepted c f) :
    Survives c all f := by
  intro g hg hblock hle
  obtain ⟨htag, -, hrest⟩ := h.laid
  rw [h.split] at hg
  rcases List.mem_append.mp hg with hg | hg
  · rw [htag] at hblock
    exact h.accepted g hg hblock
  · rcases List.mem_cons.mp hg with rfl | hg
    · exact hf
    · have hlt := hrest.le_tag hg
      have hstop := Fragment.tag_lt_stop f
      omega

/-- A bad fragment takes the rest of its block with it. -/
theorem Synced.bad (h : Synced c all done (f :: fs) p) (hbad : outcome c true f.tag = .bad) :
    Dropped c all (done ++ [f]) fs (Fragment.stop f) (blockEnd f.tag) ∧
      f.tag + (blockRest c f.tag).length = min (blockEnd f.tag) c.length := by
  have hfits := h.laid.fits List.mem_cons_self
  have hstop := hfits.stop_le
  have hlength := blockRest_length c f.tag
  have hle := h.laid.stop_le List.mem_cons_self
  rw [h.length] at hle
  have hend : f.tag + (blockRest c f.tag).length = min (blockEnd f.tag) c.length := by
    have hlt := lt_blockEnd f.tag
    unfold Fragment.stop at hle
    omega
  refine ⟨?_, hend⟩
  exact {
    toSplit := h.toSplit.tail
    block := blockEnd_mod f.tag
    within := by
      rcases hstop.lt_or_eq with hlt | heq
      · right
        exact blockEnd_of_lt (Fragment.tag_lt_stop f).le hlt
      · exact Or.inl heq
    reached := by
      have hreached := h.reached
      rw [← h.laid.1] at hreached
      rw [← hend]
      exact hreached.bad hbad
    damaged := by
      refine ⟨f, ?_, rfl, ?_, ?_⟩
      · rw [h.split]
        exact List.mem_append_right _ List.mem_cons_self
      · exact (Fragment.tag_lt_stop f).le
      · unfold Accepted
        rw [hbad]
        nofun }

/-- The rest of a block that was dropped is lost. -/
theorem Dropped.lose (h : Dropped c all done (f :: fs) p b) (hlt : f.tag < b) :
    ¬ Survives c all f ∧ Dropped c all (done ++ [f]) fs (Fragment.stop f) b := by
  obtain ⟨htag, -, -⟩ := h.laid
  have hle := le_headerPos p
  have hfits := h.laid.fits List.mem_cons_self
  have hstop := hfits.stop_le
  have hblock : blockEnd f.tag = b := by
    rcases h.within with rfl | hwithin
    · omega
    · rw [← hwithin]
      apply blockEnd_of_lt
      · omega
      · rwa [hwithin]
  obtain ⟨g, hg, hgblock, hgle, hgbad⟩ := h.damaged
  constructor
  · intro hsurvives
    apply hgbad
    apply hsurvives g hg
    · rw [hgblock, hblock]
    · omega
  · exact {
      toSplit := h.toSplit.tail
      block := h.block
      within := by
        rw [hblock] at hstop
        rcases hstop.lt_or_eq with hin | heq
        · right
          rw [← hblock]
          apply blockEnd_of_lt (Fragment.tag_lt_stop f).le
          rwa [hblock]
        · exact Or.inl heq
      reached := h.reached
      damaged := by
        have hstop := Fragment.tag_lt_stop f
        exact ⟨g, hg, hgblock, by omega, hgbad⟩ }

/-- With the next block the reader is in order again. -/
theorem Dropped.synced (h : Dropped c all done (f :: fs) p b) (hle : b ≤ f.tag) :
    Synced c all done (f :: fs) b ∧ min b c.length = b := by
  obtain ⟨htag, hroom, hrest⟩ := h.laid
  have hstop := h.laid.stop_le List.mem_cons_self
  rw [h.length] at hstop
  have hmod := h.block
  have hpb : p ≤ b := by
    have hlt := lt_blockEnd p
    rcases h.within with heq | heq <;> omega
  have hend : min b c.length = b := by
    unfold Fragment.stop at hstop
    omega
  have hb : headerPos b = b := by rw [headerPos_eq, if_neg (by omega)]
  have htag' : f.tag = b := by
    rcases h.within with heq | heq
    · rw [htag, heq, hb]
    · have hpos : headerPos p = if blockEnd p - p < kHeaderSize then blockEnd p else p := rfl
      rw [htag, hpos] at hle ⊢
      have hlt := lt_blockEnd p
      split_ifs at hle ⊢ <;> omega
  refine ⟨?_, hend⟩
  exact {
    split := h.split
    before := fun g hg => (h.before g hg).trans_le hpb
    laid := ⟨htag'.trans hb.symm, hroom, hrest⟩
    length := h.length
    reached := by
      have hreached := h.reached
      rwa [hend] at hreached
    accepted := by
      intro g hg hblock
      have hlt := h.before g hg
      rw [hb, blockEnd_eq, blockEnd_eq] at hblock
      omega }

theorem not_survives (hf : f ∈ all) (hbad : ¬ Accepted c f) {g : Fragment}
    (hblock : blockEnd f.tag = blockEnd g.tag) (hle : f.tag ≤ g.tag) : ¬ Survives c all g :=
  fun hsurvives => hbad (hsurvives f hf hblock hle)

/-- At the end of the file nothing of its last block is left. -/
theorem Synced.eof (h : Synced c all done (f :: fs) p) (heof : outcome c true f.tag = .eof) :
    ∀ g ∈ f :: fs, ¬ Survives c all g := by
  have hle := h.laid.stop_le List.mem_cons_self
  rw [h.length] at hle
  have hfits := h.laid.fits List.mem_cons_self
  have hstop := hfits.stop_le
  have hlength := blockRest_length c f.tag
  have hend : c.length < blockEnd f.tag := by
    apply lt_blockEnd_of_eof _ heof
    unfold Fragment.stop at hle hstop
    omega
  have hf : f ∈ all := by
    rw [h.split]
    exact List.mem_append_right _ List.mem_cons_self
  have hbad : ¬ Accepted c f := by
    unfold Accepted
    rw [heof]
    nofun
  intro g hg
  have hfg : f.tag ≤ g.tag := by
    rcases List.mem_cons.mp hg with rfl | hg
    · exact le_rfl
    · exact (Fragment.tag_lt_stop f).le.trans (h.laid.2.2.le_tag hg)
  have hgend := h.laid.stop_le hg
  rw [h.length] at hgend
  have hgstop := Fragment.tag_lt_stop g
  exact not_survives hf hbad (blockEnd_of_lt hfg (by omega)).symm hfg

theorem Damaged.accepted (h : Damaged c B all) (hsync : Synced c all done (f :: fs) p)
    {type : ℕ} {payload : Bytes} (hrecord : outcome c true f.tag = .record type payload) :
    Accepted c f := by
  have hf : f ∈ all := by
    rw [hsync.split]
    exact List.mem_append_right _ List.mem_cons_self
  by_cases hB : f.tag / kBlockSize ∈ B
  · have hreached := hsync.reached
    rw [← hsync.laid.1] at hreached
    obtain ⟨g, hg, htag, rfl, rfl⟩ := h.checked f.tag hreached hB type payload hrecord
    rw [hsync.toSplit.eq_of_tag hg htag] at hrecord
    exact hrecord
  · exact h.intact f hf hB

/-- From each of its positions the reader finds the fragments that survive. -/
theorem scan_damaged (h : Damaged c B all) (done fs : List Fragment) :
    (∀ p, Synced c all done fs p → ∃ evs, Scan c true 0 p evs ∧
      Trace (fun f => decide (Survives c all f)) false fs evs) ∧
    ∀ p b, Dropped c all done fs p b → ∃ evs, Scan c true 0 (min b c.length) evs ∧
      Trace (fun f => decide (Survives c all f)) true fs (.gap :: evs) := by
  induction fs generalizing done with
  | nil =>
    constructor
    · intro p hp
      exact ⟨[], .eof (outcome_of_le hp.length.ge true), .done fun _ hg => by cases hg⟩
    · intro p b hp
      have hlength : p = c.length := hp.length
      have hend : min b c.length = c.length := by
        have hlt := lt_blockEnd p
        rcases hp.within with heq | heq <;> omega
      rw [hend]
      exact ⟨[], .eof (outcome_of_le le_rfl true), .gap (.done fun _ hg => by cases hg)⟩
  | cons f fs ih =>
    have hsynced : ∀ p, Synced c all done (f :: fs) p → ∃ evs, Scan c true 0 p evs ∧
        Trace (fun f => decide (Survives c all f)) false (f :: fs) evs := by
      intro p hp
      have htag := hp.laid.1
      cases hout : outcome c true f.tag with
      | eof =>
        refine ⟨[], .eof (htag ▸ hout), .done fun g hg => ?_⟩
        exact decide_eq_false (hp.eof hout g hg)
      | bad =>
        obtain ⟨hdropped, hend⟩ := hp.bad hout
        obtain ⟨evs, hscan, htrace⟩ := (ih (done ++ [f])).2 _ _ hdropped
        have hbad : ¬ Accepted c f := by
          unfold Accepted
          rw [hout]
          nofun
        have hf : f ∈ all := by
          rw [hp.split]
          exact List.mem_append_right _ List.mem_cons_self
        refine ⟨.gap :: evs, .bad (htag ▸ hout) ?_, .lose ?_ htrace⟩
        · rwa [← htag, hend]
        · exact decide_eq_false (not_survives hf hbad rfl le_rfl)
      | record type payload =>
        have hf := h.accepted hp hout
        obtain ⟨evs, hscan, htrace⟩ := (ih (done ++ [f])).1 _ (hp.piece hf)
        refine ⟨.piece f :: evs, .piece (htag ▸ hf) htag UInt64.not_lt_zero hscan,
          .keep ?_ htrace⟩
        exact decide_eq_true (hp.survives hf)
    refine ⟨hsynced, fun p b hp => ?_⟩
    by_cases hlt : f.tag < b
    · obtain ⟨hlost, hnext⟩ := hp.lose hlt
      obtain ⟨evs, hscan, htrace⟩ := (ih (done ++ [f])).2 _ _ hnext
      exact ⟨evs, hscan, .lose (decide_eq_false hlost) htrace⟩
    · obtain ⟨hnext, hend⟩ := hp.synced (Nat.not_lt.mp hlt)
      obtain ⟨evs, hscan, htrace⟩ := hsynced b hnext
      rw [hend]
      exact ⟨evs, hscan, .gap htrace⟩

end Steps

/-- The bytes of a fragment are where it was laid. -/
theorem Laid.prefix_drop {content : Bytes} {fs : List Fragment} (h : Laid content.length fs)
    {f : Fragment} (hf : f ∈ fs) :
    Fragment.bytes f <+: (content ++ bytesFrom content.length fs).drop f.tag := by
  induction fs generalizing content with
  | nil => cases hf
  | cons g fs ih =>
    obtain ⟨htag, -, hrest⟩ := h
    rcases List.mem_cons.mp hf with rfl | hf
    · rw [drop_bytesFrom htag]
      exact List.prefix_append _ _
    · have hlength := length_bytesFrom_singleton htag
      rw [← hlength] at hrest
      have hprefix := ih hrest hf
      rwa [hlength, List.append_assoc, ← bytesFrom_cons] at hprefix

/-- Within a block that is not changed the bytes are the same. -/
theorem take_drop_eq {content damaged : Bytes} {B : Set ℕ}
    (hsame : ∀ i, i / kBlockSize ∉ B → damaged[i]? = content[i]?) {p n : ℕ}
    (hB : p / kBlockSize ∉ B) (hn : p + n ≤ blockEnd p) :
    (damaged.drop p).take n = (content.drop p).take n := by
  apply List.ext_getElem?
  intro i
  rw [List.getElem?_take, List.getElem?_take, List.getElem?_drop, List.getElem?_drop]
  split
  next hi =>
    apply hsame
    have hblock : (p + i) / kBlockSize = p / kBlockSize := by
      rw [blockEnd_eq] at hn
      unfold kBlockSize
      omega
    rwa [hblock]
  next => rfl

section Read
variable {rs : List Bytes} {content damaged : Bytes} {B : Set ℕ}

theorem damaged_of_log (hlog : IsLog rs content) (hlength : damaged.length = content.length)
    (hsame : ∀ i, i / kBlockSize ∉ B → damaged[i]? = content[i]?)
    (hchecked : ∀ p, Reached damaged p → p / kBlockSize ∈ B → ∀ type payload,
      outcome damaged true p = .record type payload →
      ∃ f ∈ emitted 0 rs, f.tag = p ∧ (recordTypeOf f.kind).toNat = type ∧ f.payload = payload) :
    Damaged damaged B (emitted 0 rs) := by
  have hlaid := laid_emitted 0 rs
  rw [isLog_iff.mp hlog] at hlength hsame
  exact {
    length := by
      rw [hlength, ← hlaid.length, Nat.zero_add]
      rfl
    laid := hlaid
    intact := by
      intro f hf hB
      have hfits := hlaid.fits hf
      have hstop := hfits.stop_le
      apply outcome_of_written hfits
      apply List.prefix_iff_eq_take.mpr
      rw [take_drop_eq hsame hB]
      · exact List.prefix_iff_eq_take.mp (@Laid.prefix_drop [] _ hlaid _ hf)
      · rw [Fragment.bytes_length]
        unfold Fragment.stop at hstop
        omega
    checked := hchecked }

/-- When the reader accepts nothing in a changed block but what was written there, it returns
records that were written, in their order, and all that lie outside of the changed blocks. -/
theorem damagedLog_read (hlog : IsLog rs content) (hlength : damaged.length = content.length)
    (hsame : ∀ i, i / kBlockSize ∉ B → damaged[i]? = content[i]?)
    (hchecked : ∀ p, Reached damaged p → p / kBlockSize ∈ B → ∀ type payload,
      outcome damaged true p = .record type payload →
      ∃ f ∈ emitted 0 rs, f.tag = p ∧ (recordTypeOf f.kind).toNat = type ∧ f.payload = payload)
    (kLittleEndian : Bool) (filename : Bytes) (reporter : Option (List Report))
    (backingStore : ℕ) :
    ∃ returned : List Record, returned.Sublist (recordsFrom 0 rs) ∧
      (∀ m ∈ recordsFrom 0 rs, (∀ f ∈ m.pieces, f.tag / kBlockSize ∉ B) → m ∈ returned) ∧
      ∀ n, ∃ out r,
        (Reader.onFile damaged filename reporter true backingStore 0).readRecords
          kLittleEndian n = .ok (out, r) ∧
        out.map (Option.map Prod.fst) = recordsThenFalse n (returned.map Message.content) := by
  have h := damaged_of_log hlog hlength hsame hchecked
  have hsynced : Synced damaged (emitted 0 rs) [] (emitted 0 rs) 0 := {
    split := rfl
    before := fun g hg => by cases hg
    laid := h.laid
    length := h.length.symm
    reached := .start
    accepted := fun g hg => by cases hg }
  obtain ⟨evs, hscan, htrace⟩ := (scan_damaged h [] (emitted 0 rs)).1 0 hsynced
  refine ⟨complete (fun f => decide (Survives damaged (emitted 0 rs) f)) (recordsFrom 0 rs),
    List.filter_sublist, ?_, fun n => ?_⟩
  · intro m hm hB
    apply List.mem_filter.mpr
    refine ⟨hm, List.all_eq_true.mpr fun f hf => decide_eq_true ?_⟩
    intro g hg hblock _
    apply h.intact g hg
    have hsameBlock : g.tag / kBlockSize = f.tag / kBlockSize := by
      rw [blockEnd_eq, blockEnd_eq] at hblock
      unfold kBlockSize
      omega
    rw [hsameBlock]
    exact hB f hf
  · obtain ⟨r, hr, -⟩ := @readRecords_spec kLittleEndian _ _ _ False reporter _ _ _
      ⟨reads_onFile damaged filename reporter true backingStore 0, hscan, rfl, rfl⟩
      UInt64.not_lt_zero (fun x _ => UInt64.not_lt_zero) False.elim n
    refine ⟨_, r, hr, ?_⟩
    rw [assemble_eq htrace, answers_records]

theorem emitted_pair : emitted 0 [[1], [2]] = [⟨.full, [1], 0⟩, ⟨.full, [2], 8⟩] := by
  have hfirst : fragments true 0 [1] = [⟨.full, [1], 0⟩] := fragments_of_le true (by decide)
  have hsecond : fragments true 8 [2] = [⟨.full, [2], 8⟩] := fragments_of_le true (by decide)
  rw [emitted_cons, hfirst]
  show _ ++ emitted 8 [[2]] = _
  rw [emitted_cons, hsecond]
  rfl

theorem length_layout_pair : (layout [[1], [2]]).length = 16 := by
  rw [length_layout, emitted_pair]
  rfl

/-- A payload that fills the rest of the block behind a fragment of 8 bytes. -/
def filler : Bytes := List.replicate 4081 2

theorem length_filler : filler.length = 4081 := List.length_replicate

/-- Two records that fill a block, and one in the next. -/
def twoBlocks : List Bytes := [[1], filler, [3]]

/-- Their log, with zeros where the second record was. -/
def damagedBlock : Bytes :=
  Fragment.bytes ⟨.full, [1], 0⟩ ++ (List.replicate 4088 0 ++ Fragment.bytes ⟨.full, [3], 4096⟩)

theorem stop_filler : Fragment.stop ⟨.full, filler, 8⟩ = 4096 := by
  rw [Fragment.stop, length_filler]
  rfl

theorem recordsFrom_twoBlocks : recordsFrom 0 twoBlocks =
    [recordAt 0 [1], recordAt 8 filler, recordAt 4096 [3]] := by
  have hfirst : (recordAt 0 [1]).pieces = [⟨.full, [1], 0⟩] := fragments_of_le true (by decide)
  have hsecond : (recordAt 8 filler).pieces = [⟨.full, filler, 8⟩] :=
    fragments_of_le true (by rw [length_filler]; decide)
  have hstop : Fragment.stop ⟨.full, [1], 0⟩ = 8 := rfl
  rw [twoBlocks, recordsFrom, hfirst, stopFrom_cons, stopFrom_nil, hstop, recordsFrom, hsecond,
    stopFrom_cons, stopFrom_nil, stop_filler, recordsFrom, recordsFrom]

theorem emitted_twoBlocks : emitted 0 twoBlocks =
    [⟨.full, [1], 0⟩, ⟨.full, filler, 8⟩, ⟨.full, [3], 4096⟩] := by
  have hfirst : (recordAt 0 [1]).pieces = [⟨.full, [1], 0⟩] := fragments_of_le true (by decide)
  have hsecond : (recordAt 8 filler).pieces = [⟨.full, filler, 8⟩] :=
    fragments_of_le true (by rw [length_filler]; decide)
  have hthird : (recordAt 4096 [3]).pieces = [⟨.full, [3], 4096⟩] :=
    fragments_of_le true (by decide)
  rw [emitted, recordsFrom_twoBlocks, List.flatMap_cons, List.flatMap_cons, List.flatMap_cons,
    List.flatMap_nil, hfirst, hsecond, hthird]
  simp only [List.cons_append, List.nil_append]

theorem bytesFrom_tag (f : Fragment) (fs : List Fragment) :
    bytesFrom f.tag (f :: fs) = Fragment.bytes f ++ bytesFrom (Fragment.stop f) fs := by
  rw [bytesFrom, Nat.sub_self, List.replicate_zero, List.nil_append]

theorem layout_twoBlocks : layout twoBlocks = Fragment.bytes ⟨.full, [1], 0⟩ ++
    (Fragment.bytes ⟨.full, filler, 8⟩ ++ Fragment.bytes ⟨.full, [3], 4096⟩) := by
  have hfirst := bytesFrom_tag ⟨.full, [1], 0⟩
  have hsecond := bytesFrom_tag ⟨.full, filler, 8⟩ [⟨.full, [3], 4096⟩]
  have hthird := bytesFrom_tag ⟨.full, [3], 4096⟩ []
  have hstop : Fragment.stop ⟨.full, [1], 0⟩ = 8 := rfl
  rw [stop_filler, hthird, bytesFrom, List.append_nil] at hsecond
  rw [layout, emitted_twoBlocks, hfirst, hstop, hsecond]

theorem length_damagedBlock : damagedBlock.length = 4104 := by
  rw [damagedBlock, List.length_append, List.length_append, List.length_replicate]
  rfl

theorem outcome_of_zeros {c x : Bytes} {p : ℕ}
    (h : blockRest c p = List.replicate kHeaderSize 0 ++ x) (checksum : Bool) :
    outcome c checksum p = .bad := by
  have hlow : (List.replicate kHeaderSize (0 : UInt8) ++ x).getD 4 0 = 0 := rfl
  have hhigh : (List.replicate kHeaderSize (0 : UInt8) ++ x).getD 5 0 = 0 := rfl
  have hlength : headerLength (List.replicate kHeaderSize 0 ++ x) = 0 := by
    rw [headerLength, hlow, hhigh]
    decide
  have htype : headerType (List.replicate kHeaderSize 0 ++ x) = RecordType.kZeroType.toNat := rfl
  have hroom : ¬ (List.replicate kHeaderSize (0 : UInt8) ++ x).length < kHeaderSize := by
    rw [List.length_append, List.length_replicate]
    omega
  unfold outcome
  dsimp only
  rw [h, hlength, htype, if_neg hroom, Nat.add_zero, if_neg hroom, if_pos ⟨rfl, rfl⟩]

/-- The reader accepts the first record, gives up the rest of its block, and accepts the third. -/
theorem outcome_damagedBlock :
    outcome damagedBlock true 0 = .record 1 [1] ∧ outcome damagedBlock true 8 = .bad ∧
      outcome damagedBlock true 4096 = .record 1 [3] ∧ outcome damagedBlock true 4104 = .eof := by
  have hzeros : blockRest damagedBlock 8 =
      List.replicate kHeaderSize 0 ++ List.replicate 4081 0 := by
    have hdrop : damagedBlock.drop 8 =
        List.replicate 4088 0 ++ Fragment.bytes ⟨.full, [3], 4096⟩ := List.drop_left' rfl
    rw [blockRest, hdrop, List.replicate_append_replicate]
    exact List.take_left' List.length_replicate
  have hthird : damagedBlock.drop 4096 = Fragment.bytes ⟨.full, [3], 4096⟩ := by
    rw [damagedBlock, ← List.append_assoc]
    apply List.drop_left'
    rw [List.length_append, List.length_replicate]
    rfl
  have hfits : ∀ f ∈ emitted 0 twoBlocks, Fits f := fun f hf => (laid_emitted 0 twoBlocks).fits hf
  rw [emitted_twoBlocks] at hfits
  refine ⟨?_, outcome_of_zeros hzeros true, ?_, outcome_of_le length_damagedBlock.le true⟩
  · exact outcome_of_written (hfits ⟨.full, [1], 0⟩ (by simp)) (List.prefix_append _ _) true
  · refine outcome_of_written (hfits ⟨.full, [3], 4096⟩ (by simp)) ?_ true
    rw [hthird]

theorem reached_damagedBlock {p : ℕ} (hp : Reached damagedBlock p) :
    p = 0 ∨ p = 8 ∨ p = 4096 ∨ p = 4104 := by
  obtain ⟨hzero, height, hblock, hend⟩ := outcome_damagedBlock
  induction hp with
  | start => exact Or.inl rfl
  | record _ found ih =>
    rcases ih with rfl | rfl | rfl | rfl
    · cases hzero.symm.trans found
      exact Or.inr (Or.inl (by decide))
    · cases height.symm.trans found
    · cases hblock.symm.trans found
      exact Or.inr (Or.inr (Or.inr (by decide)))
    · cases hend.symm.trans found
  | bad _ found ih =>
    rcases ih with rfl | rfl | rfl | rfl
    · cases hzero.symm.trans found
    · rw [blockRest_length, length_damagedBlock]
      exact Or.inr (Or.inr (Or.inl (by decide)))
    · cases hblock.symm.trans found
    · cases hend.symm.trans found

/-- The damage is in the first block. -/
theorem getElem?_damagedBlock {i : ℕ} (hi : i / kBlockSize ≠ 0) :
    damagedBlock[i]? = (layout twoBlocks)[i]? := by
  have hout : 4096 ≤ i := by
    by_contra hin
    exact hi (Nat.div_eq_of_lt (Nat.lt_of_not_le hin))
  have hblock : ∀ x : Bytes, x.length = 4088 →
      (Fragment.bytes ⟨.full, [1], 0⟩ ++ x).length = 4096 := by
    intro x hx
    rw [List.length_append, hx]
    rfl
  have hzeros := hblock (List.replicate 4088 0) List.length_replicate
  have hwhole := hblock (Fragment.bytes ⟨.full, filler, 8⟩) (by
    rw [Fragment.bytes_length, length_filler]
    rfl)
  rw [damagedBlock, layout_twoBlocks, ← List.append_assoc, ← List.append_assoc,
    List.getElem?_append_right (hzeros.trans_le hout),
    List.getElem?_append_right (hwhole.trans_le hout), hzeros, hwhole]

/-- What the reader still accepts in that block is the record in front of the zeros. -/
theorem emitted_of_outcome_damagedBlock {p type : ℕ} {payload : Bytes}
    (hp : Reached damagedBlock p) (hblock : p / kBlockSize = 0)
    (hrecord : outcome damagedBlock true p = .record type payload) :
    ∃ f ∈ emitted 0 twoBlocks, f.tag = p ∧ (recordTypeOf f.kind).toNat = type ∧
      f.payload = payload := by
  obtain ⟨hzero, height, -, -⟩ := outcome_damagedBlock
  rcases reached_damagedBlock hp with rfl | rfl | rfl | rfl
  · cases hzero.symm.trans hrecord
    rw [emitted_twoBlocks]
    exact ⟨_, List.mem_cons_self, rfl, rfl, rfl⟩
  · cases height.symm.trans hrecord
  · cases hblock
  · cases hblock

/-- Of the log with the damaged first block the record in the second block is read. -/
theorem damagedLog_read_second_block :
    ∃ returned : List Record, returned.Sublist (recordsFrom 0 twoBlocks) ∧
      recordAt 4096 [3] ∈ returned ∧
      ∀ n, ∃ out r,
        (Reader.onFile damagedBlock [] none true 0 0).readRecords true n = .ok (out, r) ∧
        out.map (Option.map Prod.fst) = recordsThenFalse n (returned.map Message.content) := by
  have hlength : (layout twoBlocks).length = 4104 := by
    rw [length_layout, emitted_twoBlocks]
    rfl
  obtain ⟨returned, hsub, hall, hread⟩ := @damagedLog_read twoBlocks (layout twoBlocks) damagedBlock
    {0} (isLog_iff.mpr rfl) (length_damagedBlock.trans hlength.symm)
    (fun _ => getElem?_damagedBlock) (fun _ hp hB _ _ => emitted_of_outcome_damagedBlock hp hB)
    true [] none 0
  refine ⟨returned, hsub, hall _ ?_ ?_, hread⟩
  · rw [recordsFrom_twoBlocks]
    exact List.mem_cons_of_mem _ (List.mem_cons_of_mem _ List.mem_cons_self)
  · have hpieces : (recordAt 4096 [3]).pieces = [⟨.full, [3], 4096⟩] :=
      fragments_of_le true (by decide)
    rw [hpieces]
    intro f hf
    cases List.mem_singleton.mp hf
    decide

end Read
end Ibdb.Log
