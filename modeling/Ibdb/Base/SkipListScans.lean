import Ibdb.Base.SkipListConcurrent

/-! Loops over a whole skip list while one writer inserts. -/
namespace Ibdb.Base
open Std

namespace SkipList
variable {Key Value ι : Type} {cmp : Key → Key → Ordering} {ts ts' : List (Tower Key Value)}

/-- When a list grows, what was before a place and what comes from it on grow apart, and the same
comes next. -/
theorem sublist_append_split {α : Type} {done rest l : List α} (h : (done ++ rest).Sublist l) :
    ∃ done' rest', l = done' ++ rest' ∧ done.Sublist done' ∧ rest.Sublist rest' ∧
      rest'.head? = rest.head? := by
  cases rest with
  | nil => exact ⟨l, [], by simp, by simpa using h, .refl [], rfl⟩
  | cons a rest =>
    obtain ⟨l₁, l₂, rfl, hdone, hrest⟩ := List.append_sublist_iff.mp h
    obtain ⟨r₁, r₂, rfl, hmem, hr₂⟩ := List.cons_sublist_iff.mp hrest
    obtain ⟨b, c, rfl⟩ := List.append_of_mem hmem
    refine ⟨l₁ ++ b, a :: c ++ r₂, by simp, ?_, ?_, rfl⟩
    · exact hdone.trans (List.sublist_append_left l₁ b)
    · exact List.Sublist.cons_cons a (hr₂.trans (List.sublist_append_right c r₂))

/-- The nodes visited were in the list, which is now `qs`, before the node; and of the nodes `ps` of
long ago they have all before it. -/
def Scanned (ps qs visited : List ℕ) (node : NodePtr) : Prop :=
  ∃ done rest passed left, qs = done ++ rest ∧ rest.head? = node ∧ visited.Sublist done ∧
    ps = passed ++ left ∧ passed.Sublist visited ∧ left.Sublist rest

section Scanned
variable {ps qs visited : List ℕ} {node : NodePtr}

theorem Scanned.start (h : ps.Sublist qs) : Scanned ps qs [] qs.head? :=
  ⟨[], qs, [], ps, rfl, rfl, .refl [], rfl, .refl [], h⟩

theorem Scanned.grows {qs' : List ℕ} (h : Scanned ps qs visited node) (hqs : qs.Sublist qs') :
    Scanned ps qs' visited node := by
  obtain ⟨done, rest, passed, left, rfl, rfl, hvisited, rfl, hpassed, hleft⟩ := h
  obtain ⟨done', rest', rfl, hdone, hrest, hhead⟩ := sublist_append_split hqs
  exact ⟨done', rest', passed, left, rfl, hhead, hvisited.trans hdone, rfl, hpassed,
    hleft.trans hrest⟩

theorem Scanned.next {p : ℕ} (h : Scanned ps qs visited (some p)) :
    ∃ done rest, qs = done ++ p :: rest ∧ Scanned ps qs (visited ++ [p]) rest.head? := by
  obtain ⟨done, rest, passed, left, rfl, hhead, hvisited, rfl, hpassed, hleft⟩ := h
  obtain ⟨rest, rfl⟩ := List.head?_eq_some_iff.mp hhead
  refine ⟨done, rest, rfl, done ++ [p], rest, ?_⟩
  have hvisited' := hvisited.append_right [p]
  rcases List.sublist_cons_iff.mp hleft with hsub | ⟨left', rfl, hsub⟩
  · exact ⟨passed, left, by simp, rfl, hvisited', rfl,
      hpassed.trans (List.sublist_append_left visited [p]), hsub⟩
  · exact ⟨passed ++ [p], left', by simp, rfl, hvisited', by simp, hpassed.append_right [p], hsub⟩

theorem Scanned.over (h : Scanned ps qs visited none) :
    ps.Sublist visited ∧ visited.Sublist qs := by
  obtain ⟨done, rest, passed, left, rfl, hhead, hvisited, rfl, hpassed, hleft⟩ := h
  obtain rfl := List.head?_eq_none_iff.mp hhead
  obtain rfl := List.sublist_nil.mp hleft
  exact ⟨by simpa using hpassed, by simpa using hvisited⟩

end Scanned

theorem Shows.ascending {s : SkipList Key Value} (hs : s.Shows cmp ts) :
    (ts.map (·.ptr)).Pairwise fun p q =>
      s.HasKey p fun k => s.HasKey q fun k' => cmp k k' = .lt := by
  obtain ⟨p, height, hrepr⟩ := hs
  have hkey : ∀ {t : Tower Key Value} {P : Key → Prop}, t ∈ ts → P t.key → s.HasKey t.ptr P := by
    intro t P ht hP
    obtain ⟨next, hnext⟩ := hrepr.stores t ht
    rw [getElem?_withHeight, Option.map_eq_some_iff] at hnext
    obtain ⟨node, hnode, heq⟩ := hnext
    refine ⟨node, hnode, ?_⟩
    split_ifs at heq
    · exact (Node.mk.inj heq).2.1 ▸ hP
    · exact heq ▸ hP
  refine List.pairwise_map.mpr (hrepr.sorted.imp_of_mem fun {t u} ht hu hlt => ?_)
  exact hkey ht (hkey hu hlt)

namespace System
variable [DecidableEq ι] [TransCmp cmp] [Inhabited Key] [Inhabited Value]
variable {es mid : List (Event ι Key Value)} {s s₀ t : System ι Key Value} {r : ι}

/-- What the reader has visited so far if it is in a loop with `Next()`. -/
def ScannedBy (ps qs : List ℕ) : Reader Key → Prop
  | .scanning visited it => Scanned ps qs visited it.node
  | _ => True

theorem ScannedBy.step {ps : List ℕ} {e : Event ι Key Value} (hinv : Inv cmp es s ts)
    (hstep : step cmp e s = some t) (hps : ps.Sublist (ts.map (·.ptr))) (hgrows : Grows ts ts')
    (h : ScannedBy ps (ts.map (·.ptr)) (s.reader r)) :
    ScannedBy ps (ts'.map (·.ptr)) (t.reader r) := by
  have hshows := hinv.writer.shows
  suffices hnow : ScannedBy ps (ts.map (·.ptr)) (t.reader r) by
    cases hr : t.reader r with
    | scanning visited it =>
      rw [hr] at hnow
      exact hnow.grows hgrows.ptrs
    | _ => trivial
  cases moves_of_step hstep with
  | insert | store => exact h
  | search r' key height =>
    rw [reader_setReader]
    split_ifs
    · trivial
    · exact h
  | scan r' it first =>
    rw [reader_setReader]
    split_ifs
    · rw [Iterator.seekToFirst, SkipList.head, next_eq hshows.linked_zero.head] at first
      cases first
      exact .start hps
    · exact h
  | load r' reader load =>
    rw [reader_setReader]
    split_ifs with hr
    · subst hr
      cases hreader : s.reader r with
      | idle => rw [hreader] at load; cases load; trivial
      | found => rw [hreader] at load; cases load; trivial
      | searching key x n =>
        have hr := hinv.readers r
        rw [hreader] at load hr
        obtain ⟨hn, q, rfl, hq⟩ := hr
        obtain ⟨reader', load', hround⟩ := hshows.round hn hq
        obtain rfl : reader' = reader := Except.ok.inj (load'.symm.trans load)
        cases hround <;> trivial
      | scanning visited it =>
        rw [hreader] at load h
        obtain ⟨_ | p⟩ := it
        · cases load
          exact h
        · obtain ⟨done, rest, hsplit, hnext⟩ := Scanned.next h
          simp only [Reader.load, hshows.advance hsplit] at load
          cases load
          exact hnext
    · exact h

/-- A loop over the list while the writer inserts visits nodes in the order of their keys: all that
were in the list when it began, and none that are not in it when it ends. -/
theorem scan_between (hrun₀ : run (step cmp) es (new : System ι Key Value) = some s₀)
    (hrun : run (step cmp) (.scan r :: mid) s₀ = some s) {visited : List ℕ}
    (hover : s.reader r = .scanning visited ⟨none⟩) :
    ∃ ps qs, Iterator.walk s₀.list = .ok ps ∧ Iterator.walk s.list = .ok qs ∧
      ps.Sublist visited ∧ visited.Sublist qs ∧
      visited.Pairwise fun p q => s.list.HasKey p fun k => s.list.HasKey q fun k' => cmp k k' = .lt := by
  obtain ⟨ts₀, hinv₀⟩ := inv_of_run hrun₀
  have hscanned : ∃ ts, Inv cmp (es ++ .scan r :: mid) s ts ∧ Grows ts₀ ts ∧
      ScannedBy (ts₀.map (·.ptr)) (ts.map (·.ptr)) (s.reader r) := by
    obtain ⟨s₁, hstart, hrest⟩ := Option.bind_eq_some_iff.mp hrun
    obtain ⟨ts₁, hinv₁, hgrows₁⟩ := hinv₀.step hstart
    have hfirst : ScannedBy (ts₀.map (·.ptr)) (ts₁.map (·.ptr)) (s₁.reader r) := by
      cases moves_of_step hstart with
      | scan _ it first =>
        rw [Iterator.seekToFirst, SkipList.head,
          next_eq hinv₀.writer.shows.linked_zero.head] at first
        cases first
        rw [reader_setReader, if_pos rfl]
        exact (Scanned.start (.refl _)).grows hgrows₁.ptrs
    have hmain := Run.induct (P := fun mid t => ∃ ts, Inv cmp (es ++ [.scan r] ++ mid) t ts ∧
      Grows ts₀ ts ∧ ScannedBy (ts₀.map (·.ptr)) (ts.map (·.ptr)) (t.reader r))
      ⟨ts₁, by rwa [List.append_nil], hgrows₁, hfirst⟩ ?_ hrest
    · simpa using hmain
    · rintro mid e t u ⟨ts, hinv, hgrows, hscanned⟩ hstep
      obtain ⟨ts', hinv', hgrows'⟩ := hinv.step hstep
      exact ⟨ts', by rwa [← List.append_assoc], hgrows.trans hgrows',
        hscanned.step hinv hstep hgrows.ptrs hgrows'⟩
  obtain ⟨ts, hinv, -, hscanned⟩ := hscanned
  rw [hover] at hscanned
  obtain ⟨hall, hno⟩ := Scanned.over hscanned
  exact ⟨_, _, hinv₀.writer.shows.walk, hinv.writer.shows.walk, hall, hno,
    hinv.writer.shows.ascending.sublist hno⟩

/-- The loop begins with one key in the list, and another comes while it is at the first. -/
theorem scan_between_six :
    ∃ s₀ s : System ℕ ℕ ℕ,
      run (step compare) [.insert 5 50 1, .store, .store, .store, .store, .store] new = some s₀ ∧
      run (step compare) [.scan 0, .insert 7 70 1, .store, .store, .store, .store, .load 0, .load 0]
        s₀ = some s ∧ s.reader 0 = .scanning [2, 3] ⟨none⟩ ∧
      ∃ ps, Iterator.walk s₀.list = .ok ps ∧ ps.Sublist [2, 3] := by
  obtain ⟨s₀, hrun₀⟩ : ∃ s₀ : System ℕ ℕ ℕ, run (step compare)
      [.insert 5 50 1, .store, .store, .store, .store, .store] new = some s₀ := ⟨_, rfl⟩
  obtain ⟨s, hrun, hover⟩ : ∃ s, run (step compare)
      [.scan 0, .insert 7 70 1, .store, .store, .store, .store, .load 0, .load 0] s₀ = some s ∧
      s.reader 0 = .scanning [2, 3] ⟨none⟩ := by
    cases hrun₀
    exact ⟨_, rfl, rfl⟩
  obtain ⟨ps, qs, hwalk, -, hsub, -⟩ := scan_between hrun₀ hrun hover
  exact ⟨s₀, s, hrun₀, hrun, hover, ps, hwalk, hsub⟩

end System
end SkipList
end Ibdb.Base
