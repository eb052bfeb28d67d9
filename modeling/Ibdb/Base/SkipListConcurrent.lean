import Ibdb.Base.SkipListReaders

/-! What readers can rely on while one writer inserts. -/
namespace Ibdb.Base
open Std

namespace SkipList
variable {Key Value ι : Type} {cmp : Key → Key → Ordering} {key : Key} {value : Value}
variable {ts ts' : List (Tower Key Value)}

/-- In towers in order the value under a key is that of the only tower with the key. -/
theorem lookup_eq_some [TransCmp cmp] (h : ts.Pairwise fun t u => cmp t.key u.key = .lt) :
    lookup cmp ts key = some value ↔ ∃ t ∈ ts, cmp t.key key = .eq ∧ t.value = value := by
  obtain ⟨pre, found, post, rfl, hsplits⟩ := exists_splits h key
  rw [hsplits.lookup_eq, Option.map_eq_some_iff]
  constructor
  · rintro ⟨t, rfl, rfl⟩
    exact ⟨t, by simp, hsplits.found_eq t rfl, rfl⟩
  · rintro ⟨t, ht, heq, rfl⟩
    rcases List.mem_append.mp ht with ht | ht
    · rw [hsplits.pre_lt t ht] at heq
      cases heq
    · rcases List.mem_append.mp ht with ht | ht
      · exact ⟨t, Option.mem_toList.mp ht, rfl⟩
      · rw [hsplits.post_gt t ht] at heq
        cases heq

theorem Grows.lookup [TransCmp cmp] (hts : Grows ts ts')
    (h : ts.Pairwise fun t u => cmp t.key u.key = .lt)
    (h' : ts'.Pairwise fun t u => cmp t.key u.key = .lt)
    (hlookup : lookup cmp ts key = some value) : lookup cmp ts' key = some value := by
  obtain ⟨t, ht, heq, rfl⟩ := (lookup_eq_some h).mp hlookup
  obtain ⟨u, hu, -, hkey, hvalue, -⟩ := hts.higher t ht
  exact (lookup_eq_some h').mpr ⟨u, hu, by rw [hkey, heq], hvalue⟩

/-! How long a search takes. -/

def rank (cmp : Key → Key → Ordering) (ts : List (Tower Key Value)) (key : Key) : ℕ :=
  (ts.map (·.key)).countP fun k => cmp k key ≠ .gt

section Rank
variable {key' : Key}

theorem rank_le (ts : List (Tower Key Value)) (key : Key) : rank cmp ts key ≤ ts.length := by
  rw [rank, List.countP_map]
  exact List.countP_le_length

theorem Grows.rank_le (h : Grows ts ts') (key : Key) : rank cmp ts key ≤ rank cmp ts' key :=
  h.keys.countP_le

theorem rank_pos [TransCmp cmp] {t : Tower Key Value} (ht : t ∈ ts) : 0 < rank cmp ts t.key := by
  refine List.countP_pos_iff.mpr ⟨t.key, List.mem_map_of_mem ht, ?_⟩
  have hself : cmp t.key t.key = .eq := ReflCmp.compare_self
  rw [hself]
  rfl

/-- A later tower has a higher rank. -/
theorem rank_lt [TransCmp cmp] {t : Tower Key Value} (ht : t ∈ ts) (hlt : cmp key t.key = .lt) :
    rank cmp ts key < rank cmp ts t.key := by
  obtain ⟨a, b, rfl⟩ := List.append_of_mem ht
  have hmono : ∀ k, decide (cmp k key ≠ .gt) = true → decide (cmp k t.key ≠ .gt) = true := by
    intro k hk
    have hle : cmp k key ≠ .gt := of_decide_eq_true hk
    have hk' : cmp k t.key = .lt := by
      cases hcmp : cmp k key with
      | lt => exact TransCmp.lt_trans hcmp hlt
      | eq => exact TransCmp.lt_of_eq_of_lt hcmp hlt
      | gt => exact absurd hcmp hle
    rw [hk']
    rfl
  have hself : cmp t.key t.key = .eq := ReflCmp.compare_self
  have hnot : cmp t.key key = .gt := OrientedCmp.gt_iff_lt.mpr hlt
  have ha := List.countP_mono_left (l := a.map (·.key)) fun k _ => hmono k
  have hb := List.countP_mono_left (l := b.map (·.key)) fun k _ => hmono k
  simp only [rank, List.map_append, List.map_cons, List.countP_append, List.countP_cons, hself,
    hnot]
  simp only [ne_eq, not_true_eq_false, decide_false, Bool.false_eq_true, if_false,
    reduceCtorEq, not_false_eq_true, decide_true, if_true]
  simp only [ne_eq] at ha hb
  omega

end Rank

def Event.starts (r : ι) : Event ι Key Value → Prop
  | .search r' _ _ => r' = r
  | .scan r' => r' = r
  | _ => False

def Event.loads [DecidableEq ι] (r : ι) : Event ι Key Value → Bool
  | .load r' => r' = r
  | _ => false

/-- The reader has made the rounds and has left no more than its height and the keys behind it
allow. -/
def Paced (cmp : Key → Key → Ordering) (ts : List (Tower Key Value)) (height rounds : ℕ) :
    Reader Key → Prop
  | .searching _ x n => ∃ q, x = some q ∧ (q = 0 ∧ rounds + n + 1 ≤ height ∨
      ∃ t ∈ ts, t.ptr = q ∧ rounds + n + 1 ≤ height + rank cmp ts t.key)
  | _ => True

theorem Paced.grows {height rounds : ℕ} {reader : Reader Key}
    (h : Paced cmp ts height rounds reader) (hts : Grows ts ts') :
    Paced cmp ts' height rounds reader := by
  cases reader with
  | searching key x n =>
    obtain ⟨q, rfl, hq⟩ := h
    refine ⟨q, rfl, hq.imp_right ?_⟩
    rintro ⟨t, ht, hptr, hle⟩
    obtain ⟨u, hu, hptr', hkey, -⟩ := hts.higher t ht
    exact ⟨u, hu, hptr'.trans hptr, hkey ▸ hle.trans (Nat.add_le_add_left (hts.rank_le _) _)⟩
  | _ => trivial

theorem Paced.load [TransCmp cmp] {list : SkipList Key Value} {height rounds : ℕ}
    {reader reader' : Reader Key} (h : Paced cmp ts height rounds reader)
    (hs : list.Shows cmp ts) (hinv : reader.Inv cmp ts)
    (hload : reader.load cmp list = .ok reader') : Paced cmp ts height (rounds + 1) reader' := by
  cases reader with
  | idle => cases hload; trivial
  | found key next => cases hload; trivial
  | scanning visited it =>
    obtain ⟨_ | p⟩ := it
    · cases hload
      trivial
    · simp only [Reader.load] at hload
      cases hnext : Iterator.next list ⟨some p⟩ with
      | error e => rw [hnext] at hload; cases hload
      | ok it => rw [hnext] at hload; cases hload; trivial
  | searching key x n =>
    obtain ⟨q, rfl, hq⟩ := h
    obtain ⟨hn, q', heq, hbefore⟩ := hinv
    obtain rfl := Option.some.inj heq
    obtain ⟨next, hload', hround⟩ := hs.round hn hbefore
    obtain rfl : next = reader' := Except.ok.inj (hload'.symm.trans hload)
    cases hround with
    | forward t mem reaches before after =>
      refine ⟨t.ptr, rfl, .inr ⟨t, mem, rfl, ?_⟩⟩
      rcases hq with ⟨rfl, hle⟩ | ⟨u, hu, hptr, hle⟩
      · have hpos : 0 < rank cmp ts t.key := rank_pos mem
        omega
      · have hlt := rank_lt mem (after u hu hptr)
        omega
    | down level =>
      refine ⟨q, rfl, hq.imp ?_ ?_⟩
      · rintro ⟨rfl, hle⟩
        exact ⟨rfl, by omega⟩
      · rintro ⟨t, ht, hptr, hle⟩
        exact ⟨t, ht, hptr, by omega⟩
    | stop => trivial

namespace System
variable [DecidableEq ι] {es fs : List (Event ι Key Value)} {s t : System ι Key Value} {r : ι}

section Insert
variable [TransCmp cmp] [Inhabited Key] [Inhabited Value]

/-- However the stores of the writer fall between the loads of the readers, at each moment the list
answers as the map of all insertions or of all but the one under way, it never forgets a key, and
between insertions it is the list that they make when run alone. -/
theorem insert_atomic (hrun : run (step cmp) es (new : System ι Key Value) = some s) :
    (∃ ops, (ops = inserts es ∨ s.writer ≠ .idle ∧ ∃ op, inserts es = ops ++ [op]) ∧
      ∀ key, s.list.findValue cmp key = .ok (visible cmp ops key) ∧
        s.list.contains cmp key = .ok (visible cmp ops key).isSome) ∧
      (s.writer = .idle → run (SkipList.step cmp) (inserts es) SkipList.new = some s.list) ∧
      ∀ fs t, run (step cmp) fs s = some t → ∀ key value,
        s.list.findValue cmp key = .ok (some value) →
        t.list.findValue cmp key = .ok (some value) := by
  obtain ⟨ts, hinv⟩ := inv_of_run hrun
  have hshows := hinv.writer.shows
  refine ⟨?_, fun hidle => ?_, fun fs t hrun' key value hfind => ?_⟩
  · rcases hinv.writer.sees with hsees | ⟨hbusy, ops, op, heq, hsees⟩
    · exact ⟨_, .inl rfl, fun key => hsees key ▸ hshows.answers key⟩
    · exact ⟨ops, .inr ⟨hbusy, op, heq⟩, fun key => hsees key ▸ hshows.answers key⟩
  · have hwriter := hinv.writer
    rw [hidle] at hwriter
    exact hwriter.ran
  · obtain ⟨ts', hinv', hgrows⟩ := hinv.run hrun'
    have hshows' := hinv'.writer.shows
    rw [(hshows.answers key).1] at hfind
    rw [(hshows'.answers key).1,
      hgrows.lookup hshows.sorted hshows'.sorted (Except.ok.inj hfind)]

theorem insert_atomic_five :
    ∃ s : System ℕ ℕ ℕ, run (step compare) [.insert 5 50 1, .store, .store, .search 0 5 1, .store]
      new = some s ∧ ∃ ops, ∀ key, s.list.findValue compare key = .ok (visible compare ops key) := by
  obtain ⟨s, hrun⟩ : ∃ s : System ℕ ℕ ℕ, run (step compare)
      [.insert 5 50 1, .store, .store, .search 0 5 1, .store] new = some s := ⟨_, rfl⟩
  obtain ⟨⟨ops, -, hanswers⟩, -⟩ := insert_atomic hrun
  exact ⟨s, hrun, ops, fun key => (hanswers key).1⟩

/-- In every state that any interleaving leads to, the next load of each reader and the next store of
the writer go through. -/
theorem never_faults (hrun : run (step cmp) es (new : System ι Key Value) = some s) :
    (∀ r, ∃ reader, (s.reader r).load cmp s.list = .ok reader) ∧
      ∃ writer list, s.writer.store s.list = .ok (writer, list) := by
  obtain ⟨ts, hinv⟩ := inv_of_run hrun
  refine ⟨fun r => ?_, ?_⟩
  · obtain ⟨reader, hload, -⟩ := (hinv.readers r).load hinv.writer.shows
    exact ⟨reader, hload⟩
  · obtain ⟨w, l, -, hstore, -⟩ := hinv.writer.store
    exact ⟨w, l, hstore⟩

theorem never_faults_four :
    ∃ s : System ℕ ℕ ℕ, run (step compare) [.insert 5 50 1, .store, .search 0 5 1, .store] new =
      some s ∧ ∃ reader, (s.reader 0).load compare s.list = .ok reader := by
  obtain ⟨s, hrun⟩ : ∃ s : System ℕ ℕ ℕ, run (step compare)
      [.insert 5 50 1, .store, .search 0 5 1, .store] new = some s := ⟨_, rfl⟩
  exact ⟨s, hrun, (never_faults hrun).1 0⟩

end Insert

/-- A reader comes to have found something only in the last round of its search. -/
theorem step_found {e : Event ι Key Value} {next : NodePtr} (hstep : step cmp e s = some t)
    (hold : s.reader r ≠ .found key next) (hnew : t.reader r = .found key next) :
    (s.reader r).load cmp s.list = .ok (.found key next) := by
  cases moves_of_step hstep with
  | insert => exact absurd hnew hold
  | store => exact absurd hnew hold
  | search | scan =>
    rw [reader_setReader] at hnew
    split_ifs at hnew
    exact absurd hnew hold
  | load r' reader load =>
    rw [reader_setReader] at hnew
    split_ifs at hnew with hr
    · rw [hr, load, hnew]
    · exact absurd hnew hold

/-! A whole search, beside the writer. -/

section Searches
variable [TransCmp cmp] [Inhabited Key] [Inhabited Value]

/-- A search is linearizable: it finds what a search without interruption would have found at some
moment between its start and its end, and what it found stays so. -/
theorem search_linearizable {mid : List (Event ι Key Value)} {s₀ : System ι Key Value} {height : ℕ}
    {next : NodePtr} (hrun₀ : run (step cmp) es (new : System ι Key Value) = some s₀)
    (hrun : run (step cmp) (.search r key height :: mid) s₀ = some s)
    (hfound : s.reader r = .found key next) :
    ∃ mid₁ mid₂ t answer, mid = mid₁ ++ mid₂ ∧
      run (step cmp) (.search r key height :: mid₁) s₀ = some t ∧
      t.list.contains cmp key = .ok answer ∧ s.list.equalNode cmp key next = .ok answer ∧
      ∃ prev, t.list.findGreaterOrEqual cmp key (fun _ => none) = .ok (next, prev) := by
  obtain ⟨s₁, hstart, hmid⟩ := Option.bind_eq_some_iff.mp hrun
  have hnot : s₁.reader r ≠ .found key next := by
    cases moves_of_step hstart with
    | search =>
      rw [reader_setReader, if_pos rfl]
      exact nofun
  obtain ⟨mid₁, e, mid₂, t, u, rfl, ht, hstep, hold, hnew⟩ :=
    Run.exists_step (P := fun s : System ι Key Value => s.reader r = .found key next) hnot hfound
      hmid
  have hrun₁ : run (step cmp) (.search r key height :: mid₁) s₀ = some t := by
    rw [run, hstart, Option.bind_some, ht]
  obtain ⟨ts₀, hinv₀⟩ := inv_of_run hrun₀
  obtain ⟨ts, hinv, -⟩ := hinv₀.run hrun₁
  have hload := step_found hstep hold hnew
  obtain ⟨⟨prev, hfind⟩, hmem⟩ := hinv.found hold hload
  have hlater : run (step cmp) (e :: mid₂) t = some s := by
    rw [Run.run_append, ht, Option.bind_some] at hmid
    exact hmid
  obtain ⟨ts', hinv', hgrows⟩ := hinv.run hlater
  have hsame : ∃ answer, t.list.equalNode cmp key next = .ok answer ∧
      s.list.equalNode cmp key next = .ok answer := by
    cases next with
    | none => exact ⟨false, rfl, rfl⟩
    | some p =>
      obtain ⟨v, hv, rfl⟩ := hmem p rfl
      obtain ⟨w, hw, hptr, hkey, -⟩ := hgrows.higher v hv
      refine ⟨_, hinv.writer.shows.equalNode hv key, ?_⟩
      rw [← hptr, hinv'.writer.shows.equalNode hw key, hkey]
  obtain ⟨answer, hthen, hnow⟩ := hsame
  refine ⟨mid₁, e :: mid₂, t, answer, rfl, hrun₁, ?_, hnow, prev, hfind⟩
  rw [contains, hfind, Except.ok_bind]
  exact hthen

/-- The search begins before the key is in the list, which then comes in time. -/
theorem search_linearizable_six :
    ∃ s₀ s : System ℕ ℕ ℕ, run (step compare) [.insert 5 50 1, .store, .store] new = some s₀ ∧
      run (step compare) [.search 0 5 1, .store, .store, .load 0] s₀ = some s ∧
      ∃ mid t, run (step compare) (.search 0 5 1 :: mid) s₀ = some t ∧
        t.list.contains compare 5 = s.list.equalNode compare 5 (some 2) := by
  obtain ⟨s₀, hrun₀⟩ : ∃ s₀ : System ℕ ℕ ℕ,
      run (step compare) [.insert 5 50 1, .store, .store] new = some s₀ := ⟨_, rfl⟩
  obtain ⟨s, hrun, hfound⟩ : ∃ s, run (step compare) [.search 0 5 1, .store, .store, .load 0] s₀ =
      some s ∧ s.reader 0 = .found 5 (some 2) := by
    cases hrun₀
    exact ⟨_, rfl, rfl⟩
  obtain ⟨mid₁, mid₂, t, answer, -, ht, hthen, hnow, -⟩ := search_linearizable hrun₀ hrun hfound
  exact ⟨s₀, s, hrun₀, hrun, mid₁, t, ht, hthen.trans hnow.symm⟩

end Searches

/-- A step leaves a reader alone unless it starts a loop of the reader or is a round of one. -/
theorem step_reader {e : Event ι Key Value} (hstep : step cmp e s = some t) (he : ¬ e.starts r) :
    t.reader r = s.reader r ∧ e.loads r = false ∨
      e = .load r ∧ (s.reader r).load cmp s.list = .ok (t.reader r) := by
  cases moves_of_step hstep with
  | insert | store => exact .inl ⟨rfl, rfl⟩
  | search r' | scan r' =>
    refine .inl ⟨?_, rfl⟩
    rw [reader_setReader, if_neg fun heq => he heq.symm]
  | load r' reader load =>
    rw [reader_setReader]
    by_cases hr : r = r'
    · subst hr
      exact .inr ⟨rfl, by rw [if_pos rfl, load]⟩
    · exact .inl ⟨if_neg hr, decide_eq_false fun heq => hr heq.symm⟩

section Bound
variable [TransCmp cmp] [Inhabited Key] [Inhabited Value]

/-- A search that is not over has made fewer rounds than there are nodes and levels, whatever the
writer did meanwhile. -/
theorem search_bounded {mid : List (Event ι Key Value)} {s₀ : System ι Key Value} {height n : ℕ}
    {x : NodePtr} (hrun₀ : run (step cmp) es (new : System ι Key Value) = some s₀)
    (hrun : run (step cmp) (.search r key height :: mid) s₀ = some s)
    (hmid : ∀ e ∈ mid, ¬ e.starts r) (hsearching : s.reader r = .searching key x n) :
    mid.countP (Event.loads r) < s.list.nodes.length + height := by
  obtain ⟨s₁, hstart, hrest⟩ := Option.bind_eq_some_iff.mp hrun
  obtain ⟨ts₀, hinv₀⟩ := inv_of_run hrun₀
  obtain ⟨ts₁, hinv₁, -⟩ := hinv₀.step hstart
  have hpaced₁ : Paced cmp ts₁ height 0 (s₁.reader r) := by
    cases moves_of_step hstart with
    | search _ _ _ pos le =>
      rw [reader_setReader, if_pos rfl]
      exact ⟨0, rfl, .inl ⟨rfl, by omega⟩⟩
  obtain ⟨ts, hinv, hpaced⟩ : ∃ ts, Inv cmp (es ++ [.search r key height] ++ mid) s ts ∧
      Paced cmp ts height (mid.countP (Event.loads r)) (s.reader r) := by
    refine Run.induct_of (C := fun mid => ∀ e ∈ mid, ¬ e.starts r)
      (P := fun mid t => ∃ ts, Inv cmp (es ++ [.search r key height] ++ mid) t ts ∧
        Paced cmp ts height (mid.countP (Event.loads r)) (t.reader r))
      ?_ ⟨ts₁, by rwa [List.append_nil], hpaced₁⟩ ?_ hmid hrest
    · intro mid e h e' he'
      exact h e' (List.mem_append_left _ he')
    · rintro mid e t u hmid ⟨ts, hinv, hpaced⟩ hstep
      obtain ⟨ts', hinv', hgrows⟩ := hinv.step hstep
      refine ⟨ts', by rwa [← List.append_assoc], ?_⟩
      rw [List.countP_append, List.countP_singleton]
      rcases step_reader hstep (hmid e (by simp)) with ⟨hsame, hloads⟩ | ⟨rfl, hload⟩
      · rw [hsame, hloads]
        exact hpaced.grows hgrows
      · have hloads : (Event.load r : Event ι Key Value).loads r = true := decide_eq_true rfl
        rw [hloads]
        exact (hpaced.load hinv.writer.shows (hinv.readers r) hload).grows hgrows
  rw [hsearching] at hpaced
  obtain ⟨q, -, hq⟩ := hpaced
  have hlen := hinv.writer.shows.length_lt
  rcases hq with ⟨-, hle⟩ | ⟨t, -, -, hle⟩
  · omega
  · have hrank : rank cmp ts t.key ≤ ts.length := rank_le ts t.key
    omega

theorem search_bounded_six :
    ∃ (mid : List (Event ℕ ℕ ℕ)) (s₀ s : System ℕ ℕ ℕ), mid = [.load 0] ∧
      run (step compare) [.insert 5 50 1, .store, .store, .store, .store] new = some s₀ ∧
      run (step compare) (.search 0 7 1 :: mid) s₀ = some s ∧
      mid.countP (Event.loads 0) < s.list.nodes.length + 1 := by
  obtain ⟨s₀, hrun₀⟩ : ∃ s₀ : System ℕ ℕ ℕ, run (step compare)
      [.insert 5 50 1, .store, .store, .store, .store] new = some s₀ := ⟨_, rfl⟩
  obtain ⟨s, hrun, hsearching⟩ : ∃ s, run (step compare) [.search 0 7 1, .load 0] s₀ = some s ∧
      s.reader 0 = .searching 7 (some 2) 0 := by
    cases hrun₀
    exact ⟨_, rfl, rfl⟩
  refine ⟨[.load 0], s₀, s, rfl, hrun₀, hrun, search_bounded hrun₀ hrun ?_ hsearching⟩
  intro e he
  rw [List.mem_singleton.mp he]
  exact not_false

end Bound
end System
end SkipList
end Ibdb.Base
