import Ibdb.Base.SkipListInserting

/-! Readers of a skip list whose loops interleave with the stores of the writer. -/
namespace Ibdb.Base
open Std

namespace SkipList
variable {Key Value ι : Type} {cmp : Key → Key → Ordering} {s : SkipList Key Value} {key : Key}
variable {ts ts' : List (Tower Key Value)} {q n : ℕ}

/-- The node is `head_`, or a tower before the key that reaches the level. -/
def Before (cmp : Key → Key → Ordering) (ts : List (Tower Key Value)) (key : Key) (n q : ℕ) :
    Prop :=
  q = 0 ∨ ∃ t ∈ ts, t.ptr = q ∧ n < t.height ∧ cmp t.key key = .lt

/-- What a round of the search comes to: a later node on the level, the same node one level down,
or the end, where it has found what the whole search would find now. -/
inductive Round (cmp : Key → Key → Ordering) (s : SkipList Key Value)
    (ts : List (Tower Key Value)) (key : Key) (q n : ℕ) : Reader Key → Prop
  | forward (t : Tower Key Value) (mem : t ∈ ts) (reaches : n < t.height)
      (before : cmp t.key key = .lt) (after : ∀ u ∈ ts, u.ptr = q → cmp u.key t.key = .lt) :
      Round cmp s ts key q n (.searching key (some t.ptr) n)
  | down (level : n ≠ 0) : Round cmp s ts key q n (.searching key (some q) (n - 1))
  | stop (next : NodePtr) (prev : ℕ → NodePtr) (level : n = 0)
      (find : s.findGreaterOrEqual cmp key (fun _ => none) = .ok (next, prev))
      (mem : ∀ p, next = some p → ∃ t ∈ ts, t.ptr = p) : Round cmp s ts key q n (.found key next)

section Round

/-- The towers up to a node before the key and those between it and the key. -/
theorem Before.split {pre post : List (Tower Key Value)} (h : Before cmp (pre ++ post) key n q)
    (hpost : ∀ t ∈ post, cmp t.key key ≠ .lt) : ∃ done left, pre = done ++ left ∧
      q = (done.map (·.ptr)).getLastD 0 ∧ ∀ t ∈ done.getLast?, n < t.height := by
  rcases h with rfl | ⟨t, ht, rfl, hlt, hkey⟩
  · exact ⟨[], pre, rfl, rfl, nofun⟩
  · have hpre : t ∈ pre := by
      rcases List.mem_append.mp ht with ht | ht
      · exact ht
      · exact absurd hkey (hpost t ht)
    obtain ⟨a, b, rfl⟩ := List.append_of_mem hpre
    refine ⟨a ++ [t], b, by simp, by simp, fun u hu => ?_⟩
    obtain rfl : t = u := by simpa using hu
    exact hlt

variable [TransCmp cmp]

theorem Represents.round (hs : s.Represents cmp ts) (hn : n < kMaxHeight)
    (hq : Before cmp ts key n q) :
    ∃ reader, Reader.load cmp s (.searching key (some q) n) = .ok reader ∧
      Round cmp s ts key q n reader := by
  obtain ⟨pre, found, post, rfl, hsplits⟩ := exists_splits hs.sorted key
  obtain ⟨done, left, rfl, rfl, hdone⟩ := hq.split hsplits.ne_lt
  have hlink : Linked (s.Link n) ((done.map (·.ptr)).getLastD 0)
      (level n left ++ level n (found.toList ++ post)) := by
    have hall := hs.linked n hn
    rw [List.append_assoc, level_append, level_append] at hall
    rw [← getLastD_level hdone]
    exact hall.drop
  rw [Reader.load, next_eq hlink.head, Except.ok_bind]
  cases hleft : left.filter (n < ·.height) with
  | nil =>
    -- nothing before the key reaches the level
    have hlevel : level n left = [] := by rw [level, hleft, List.map_nil]
    have hrest : ∀ t ∈ (found.toList ++ post).filter (n < ·.height), cmp t.key key ≠ .lt :=
      fun t ht => hsplits.ne_lt t (List.mem_of_mem_filter ht)
    have hstores : ∀ t ∈ (found.toList ++ post).filter (n < ·.height), s.Stores t :=
      fun t ht => hs.stores t (List.mem_append_right _ (List.mem_of_mem_filter ht))
    rw [hlevel, List.nil_append, level, keyIsAfterNode_head hstores hrest, Except.ok_bind]
    simp only [Bool.false_eq_true, if_false]
    by_cases hzero : n = 0
    · subst hzero
      have hpos : ∀ t ∈ found.toList ++ post, 0 < t.height := fun t ht =>
        hs.height_pos t (List.mem_append_right _ ht)
      have hlowest := level_zero hpos
      rw [level] at hlowest
      obtain ⟨prev, hfind, -⟩ := hsplits.find hs fun _ => none
      rw [hlowest]
      refine ⟨_, rfl, .stop _ prev rfl hfind fun p hp => ?_⟩
      obtain ⟨t, ht, hptr⟩ := List.mem_map.mp (List.mem_of_mem_head? hp)
      exact ⟨t, List.mem_append_right _ ht, hptr⟩
    · rw [if_neg hzero]
      exact ⟨_, rfl, .down hzero⟩
  | cons t rest =>
    obtain ⟨skipped, left', rfl, -, ht, -⟩ := List.filter_eq_cons_iff.mp hleft
    have htpre : t ∈ done ++ (skipped ++ t :: left') := by simp
    have hmem := List.mem_append_left (found.toList ++ post) htpre
    have hlevel : (level n (skipped ++ t :: left') ++ level n (found.toList ++ post)).head? =
        some t.ptr := by
      rw [level, hleft]
      rfl
    rw [hlevel, keyIsAfterNode_of_lt (hs.stores t hmem) (hsplits.pre_lt t htpre), Except.ok_bind]
    refine ⟨_, rfl, .forward t hmem (of_decide_eq_true ht) (hsplits.pre_lt t htpre) ?_⟩
    intro u hu hptr
    rcases List.eq_nil_or_concat done with rfl | ⟨as, v, rfl⟩
    · exact absurd hptr (hs.ne_head u hu)
    · -- the node is that of `v`, which comes before `t`
      rw [List.concat_eq_append] at hptr hs hu
      have hv : v ∈ (as ++ [v] ++ (skipped ++ t :: left')) ++ (found.toList ++ post) := by simp
      have hkey := Stores.key_eq (hs.stores u hu) (hs.stores v hv) (by simpa using hptr)
      rw [hkey]
      have hsorted := hs.sorted.sublist (List.sublist_append_left _ _)
      exact (List.pairwise_append.mp hsorted).2.2 v (by simp) t (by simp)

theorem Shows.round (hs : s.Shows cmp ts) (hn : n < kMaxHeight) (hq : Before cmp ts key n q) :
    ∃ reader, Reader.load cmp s (.searching key (some q) n) = .ok reader ∧
      Round cmp s ts key q n reader := by
  obtain ⟨p, height, hrepr⟩ := hs
  obtain ⟨reader, hload, hround⟩ := hrepr.round hn hq
  refine ⟨reader, ?_, ?_⟩
  · rw [← hload]
    simp only [Reader.load, next_withHeight, keyIsAfterNode_withHeight]
  · cases hround with
    | forward t mem reaches before after => exact .forward t mem reaches before after
    | down level => exact .down level
    | stop next prev level find mem =>
      rw [findGreaterOrEqual_withHeight] at find
      exact .stop next prev level find mem

end Round

/-! The whole system. -/

/-- What a reader holds on to is in the list. -/
def Reader.Inv (cmp : Key → Key → Ordering) (ts : List (Tower Key Value)) : Reader Key → Prop
  | .idle => True
  | .searching key x n => n < kMaxHeight ∧ ∃ q, x = some q ∧ Before cmp ts key n q
  | .found _ next => ∀ p, next = some p → ∃ t ∈ ts, t.ptr = p
  | .scanning _ it => ∀ p, it.node = some p → ∃ t ∈ ts, t.ptr = p

theorem Grows.mem_ptr (h : Grows ts ts') {p : ℕ} (hp : ∃ t ∈ ts, t.ptr = p) :
    ∃ t ∈ ts', t.ptr = p := by
  obtain ⟨t, ht, rfl⟩ := hp
  obtain ⟨u, hu, hptr, -⟩ := h.higher t ht
  exact ⟨u, hu, hptr⟩

theorem Reader.Inv.grows {reader : Reader Key} (h : reader.Inv cmp ts) (hts : Grows ts ts') :
    reader.Inv cmp ts' := by
  cases reader with
  | idle => trivial
  | searching key x n =>
    obtain ⟨hn, q, rfl, hq⟩ := h
    refine ⟨hn, q, rfl, ?_⟩
    rcases hq with rfl | ⟨t, ht, rfl, hlt, hkey⟩
    · exact .inl rfl
    · obtain ⟨u, hu, hptr, heq, -, hheight⟩ := hts.higher t ht
      exact .inr ⟨u, hu, hptr, hlt.trans_le hheight, by rw [heq, hkey]⟩
  | found key next => exact fun p hp => hts.mem_ptr (h p hp)
  | scanning visited it => exact fun p hp => hts.mem_ptr (h p hp)

theorem Shows.equalNode (hs : s.Shows cmp ts) {t : Tower Key Value} (ht : t ∈ ts) (key : Key) :
    s.equalNode cmp key (some t.ptr) = .ok (cmp key t.key = .eq) := by
  obtain ⟨p, height, hrepr⟩ := hs
  obtain ⟨next, hnext⟩ := hrepr.stores t ht
  have hequal : (s.withHeight p height).equalNode cmp key (some t.ptr) =
      s.equalNode cmp key (some t.ptr) := equalNode_withHeight cmp key _
  rw [← hequal]
  simp [SkipList.equalNode, node_eq hnext]

/-- `Next()` on the lowest level, where the chain is all the towers. -/
theorem Shows.advance (hs : s.Shows cmp ts) {done rest : List ℕ} {p : ℕ}
    (hptrs : ts.map (·.ptr) = done ++ p :: rest) :
    Iterator.next s ⟨some p⟩ = .ok ⟨rest.head?⟩ := by
  have hlinked := hs.linked_zero
  rw [hptrs] at hlinked
  simp [Iterator.next, Iterator.valid, next_eq hlinked.drop.2.head]

section Load
variable [TransCmp cmp]

/-- A reader never loads from where there is nothing, whatever it stands on. -/
theorem Reader.Inv.load (hs : s.Shows cmp ts) {reader : Reader Key} (h : reader.Inv cmp ts) :
    ∃ reader', reader.load cmp s = .ok reader' ∧ reader'.Inv cmp ts := by
  cases reader with
  | idle => exact ⟨_, rfl, trivial⟩
  | found key next => exact ⟨_, rfl, h⟩
  | searching key x n =>
    obtain ⟨hn, q, rfl, hq⟩ := h
    obtain ⟨reader', hload, hround⟩ := hs.round hn hq
    refine ⟨reader', hload, ?_⟩
    cases hround with
    | forward t mem reaches before => exact ⟨hn, _, rfl, .inr ⟨t, mem, rfl, reaches, before⟩⟩
    | down =>
      refine ⟨(Nat.sub_le n 1).trans_lt hn, q, rfl, hq.imp_right ?_⟩
      rintro ⟨t, ht, hptr, hlt, hkey⟩
      exact ⟨t, ht, hptr, (Nat.sub_le n 1).trans_lt hlt, hkey⟩
    | stop next prev level find mem => exact mem
  | scanning visited it =>
    obtain ⟨_ | p⟩ := it
    · exact ⟨_, rfl, h⟩
    · obtain ⟨t, ht, hptr⟩ := h p rfl
      obtain ⟨done, rest, hsplit⟩ := List.append_of_mem (List.mem_map_of_mem (f := (·.ptr)) ht)
      rw [hptr] at hsplit
      have hnext := hs.advance hsplit
      refine ⟨.scanning (visited ++ [p]) ⟨rest.head?⟩, by simp [Reader.load, hnext], ?_⟩
      intro p' hp'
      have hmem : p' ∈ ts.map (·.ptr) := by
        rw [hsplit]
        exact List.mem_append_right _ (List.mem_cons_of_mem p (List.mem_of_mem_head? hp'))
      obtain ⟨u, hu, hptr'⟩ := List.mem_map.mp hmem
      exact ⟨u, hu, hptr'⟩

end Load

namespace System
variable {es fs : List (Event ι Key Value)} {e : Event ι Key Value} {s t : System ι Key Value}
variable {r : ι}

/-- The writer and every reader are where the towers in the list let them be. -/
structure Inv [Inhabited Key] [Inhabited Value] (cmp : Key → Key → Ordering)
    (es : List (Event ι Key Value)) (s : System ι Key Value) (ts : List (Tower Key Value)) :
    Prop where
  writer : WriterInv cmp (inserts es) s.writer s.list ts
  readers : ∀ r, (s.reader r).Inv cmp ts

variable [Inhabited Key] [Inhabited Value]

theorem Inv.new (cmp : Key → Key → Ordering) : Inv cmp [] (new : System ι Key Value) [] :=
  ⟨.idle rfl (fun _ => rfl) (.new cmp), fun _ => trivial⟩

/-- The round in which a search ends finds what a whole search of the list would find then. -/
theorem Inv.found [TransCmp cmp] (h : Inv cmp es s ts) {next : NodePtr}
    (hold : s.reader r ≠ .found key next)
    (hload : (s.reader r).load cmp s.list = .ok (.found key next)) :
    (∃ prev, s.list.findGreaterOrEqual cmp key (fun _ => none) = .ok (next, prev)) ∧
      ∀ p, next = some p → ∃ t ∈ ts, t.ptr = p := by
  have hreader := h.readers r
  cases hr : s.reader r with
  | idle => rw [hr] at hload; cases hload
  | found key' next' => rw [hr] at hload hold; exact absurd (Except.ok.inj hload) hold
  | scanning visited it =>
    rw [hr] at hload
    obtain ⟨_ | p⟩ := it
    · cases hload
    · simp only [Reader.load] at hload
      cases hnext : Iterator.next s.list ⟨some p⟩ with
      | error e => rw [hnext] at hload; cases hload
      | ok it => rw [hnext] at hload; cases hload
  | searching key' x n =>
    rw [hr] at hload hreader
    obtain ⟨hn, q, rfl, hq⟩ := hreader
    obtain ⟨reader, hload', hround⟩ := h.writer.shows.round hn hq
    obtain rfl : reader = .found key next := Except.ok.inj (hload'.symm.trans hload)
    cases hround with
    | stop next prev level find mem => exact ⟨⟨prev, find⟩, mem⟩

variable [DecidableEq ι]

theorem Inv.setReader (h : Inv cmp es s ts) {reader : Reader Key} (hreader : reader.Inv cmp ts)
    (hes : inserts fs = inserts es) : Inv cmp fs (s.setReader r reader) ts := by
  refine ⟨hes ▸ h.writer, fun r' => ?_⟩
  rw [reader_setReader]
  split_ifs
  · exact hreader
  · exact h.readers r'

variable [TransCmp cmp]

theorem Inv.step (h : Inv cmp es s ts) (hstep : step cmp e s = some t) :
    ∃ ts', Inv cmp (es ++ [e]) t ts' ∧ Grows ts ts' := by
  have hshows := h.writer.shows
  cases moves_of_step hstep with
  | insert key value height w idle pos le search =>
    have hwriter := h.writer
    rw [idle] at hwriter
    refine ⟨ts, ⟨?_, h.readers⟩, .refl ts⟩
    rw [inserts_append]
    exact hwriter.search pos le search
  | store w list store =>
    obtain ⟨w', list', ts', hstore, hinv, hgrows⟩ := h.writer.store
    rw [store] at hstore
    cases hstore
    refine ⟨ts', ⟨?_, fun r => (h.readers r).grows hgrows⟩, hgrows⟩
    simpa [inserts_append, inserts] using hinv
  | search r key height pos le =>
    have hmax := hshows.maxHeight_le
    exact ⟨ts, h.setReader ⟨by omega, 0, rfl, .inl rfl⟩ (by simp [inserts_append, inserts]),
      .refl ts⟩
  | scan r it first =>
    rw [Iterator.seekToFirst, SkipList.head, next_eq hshows.linked_zero.head] at first
    cases first
    refine ⟨ts, h.setReader (fun p hp => ?_) (by simp [inserts_append, inserts]), .refl ts⟩
    obtain ⟨t, ht, hptr⟩ := List.mem_map.mp (List.mem_of_mem_head? hp)
    exact ⟨t, ht, hptr⟩
  | load r reader load =>
    obtain ⟨reader', hload, hinv⟩ := (h.readers r).load hshows
    obtain rfl : reader' = reader := Except.ok.inj (hload.symm.trans load)
    exact ⟨ts, h.setReader hinv (by simp [inserts_append, inserts]), .refl ts⟩

theorem Inv.run (h : Inv cmp es s ts) (hrun : run (System.step cmp) fs s = some t) :
    ∃ ts', Inv cmp (es ++ fs) t ts' ∧ Grows ts ts' := by
  refine Run.induct (P := fun fs t => ∃ ts', Inv cmp (es ++ fs) t ts' ∧ Grows ts ts')
    ⟨ts, by rwa [List.append_nil], .refl ts⟩ ?_ hrun
  rintro fs e t u ⟨ts', hinv, hgrows⟩ hstep
  obtain ⟨us, hinv', hgrows'⟩ := hinv.step hstep
  exact ⟨us, by rwa [← List.append_assoc], hgrows.trans hgrows'⟩

theorem inv_of_run (hrun : run (step cmp) es (new : System ι Key Value) = some s) :
    ∃ ts, Inv cmp es s ts := by
  obtain ⟨ts, hinv, -⟩ := (Inv.new cmp).run hrun
  exact ⟨ts, hinv⟩

end System
end SkipList
end Ibdb.Base
