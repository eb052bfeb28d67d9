import Ibdb.Storage.SegmentIndex
import Ibdb.Storage.SkipSegmentLayout

/-! A segment along any run: a map in which the first offset stays. -/
namespace Ibdb.Storage
open Base Std

inductive SegmentOp
  | buildKeyIndex (key : Bytes)
  | put (key : Bytes) (timestamp : UInt64) (value : Bytes) (offset : ℕ)
  | get (key : Bytes) (timestamp : UInt64) (value : Bytes) (offset : ℕ)
  | contains (key : Bytes)
  | remove (key : Bytes)
  deriving DecidableEq

namespace SegmentOp

def step : SegmentOp → SkipSegment → Option SkipSegment
  | buildKeyIndex key, seg => (seg.buildKeyIndex key).toOption.map (·.2)
  | put key timestamp value offset, seg =>
    (seg.put key timestamp value offset).toOption.map (·.2)
  | get key timestamp value offset, seg =>
    (seg.get key timestamp value offset).toOption.map fun _ => seg
  | contains key, seg => (seg.contains key).toOption.map fun _ => seg
  | remove key, seg => (seg.remove key).toOption.map (·.2)

/-- The slices that the operation keeps a copy of have a length that an `int` can hold. -/
def Short : SegmentOp → Prop
  | buildKeyIndex key => key.length < 2 ^ 31
  | put _ _ value _ => value.length < 2 ^ 31
  | _ => True

instance (op : SegmentOp) : Decidable op.Short :=
  match op with
  | buildKeyIndex key => inferInstanceAs (Decidable (key.length < 2 ^ 31))
  | put _ _ value _ => inferInstanceAs (Decidable (value.length < 2 ^ 31))
  | get .. => inferInstanceAs (Decidable True)
  | contains _ => inferInstanceAs (Decidable True)
  | remove _ => inferInstanceAs (Decidable True)

/-- The operations since the key was last indexed, if it is indexed, with one more. -/
def extend (key : Bytes) (op : SegmentOp) : Option (List SegmentOp) → Option (List SegmentOp)
  | none => if op = .buildKeyIndex key then some [] else none
  | some since => if op = .remove key then none else some (since ++ [op])

def offers (key : Bytes) (timestamp : UInt64) (value : Bytes) : SegmentOp → Option ℕ
  | put key' timestamp' value' offset =>
    if key' = key ∧ timestamp' = timestamp ∧ value' = value then some offset else none
  | _ => none

end SegmentOp

namespace SkipSegment

/-- The operations since the key was last indexed; `none` when it is not indexed. -/
def sinceIndexed (key : Bytes) (ops : List SegmentOp) : Option (List SegmentOp) :=
  ops.foldl (fun since op => op.extend key since) none

def indexed (ops : List SegmentOp) (key : Bytes) : Bool := (sinceIndexed key ops).isSome

/-- The offset of the first `Put` of the triple since its key was last indexed. -/
def stored (ops : List SegmentOp) (key : Bytes) (timestamp : UInt64) (value : Bytes) : Option ℕ :=
  (sinceIndexed key ops).bind fun since => since.findSome? (·.offers key timestamp value)

section History
variable {ops : List SegmentOp} {op : SegmentOp} {key : Bytes} {timestamp : UInt64} {value : Bytes}

theorem sinceIndexed_concat :
    sinceIndexed key (ops ++ [op]) = op.extend key (sinceIndexed key ops) := by
  rw [sinceIndexed, List.foldl_append]
  rfl

theorem stored_eq_none (h : indexed ops key = false) : stored ops key timestamp value = none := by
  have hnone : sinceIndexed key ops = none := by simpa [indexed] using h
  rw [stored, hnone]
  rfl

/-- An operation that does not remove the key adds what it offers when there is nothing yet. -/
theorem stored_concat (hremove : op ≠ .remove key) :
    stored (ops ++ [op]) key timestamp value =
      if indexed ops key then (stored ops key timestamp value).or (op.offers key timestamp value)
      else none := by
  unfold stored indexed
  rw [sinceIndexed_concat]
  cases sinceIndexed key ops with
  | none =>
    by_cases hbuild : op = .buildKeyIndex key
    · simp [SegmentOp.extend, hbuild]
    · simp [SegmentOp.extend, hbuild]
  | some since =>
    simp [SegmentOp.extend, hremove, List.findSome?_append]

theorem stored_remove : stored (ops ++ [.remove key]) key timestamp value = none := by
  unfold stored
  rw [sinceIndexed_concat]
  cases sinceIndexed key ops with
  | none => rfl
  | some since => simp [SegmentOp.extend]

theorem indexed_concat : indexed (ops ++ [op]) key =
    if op = .buildKeyIndex key then true else if op = .remove key then false
    else indexed ops key := by
  unfold indexed
  rw [sinceIndexed_concat]
  cases sinceIndexed key ops with
  | none => by_cases hbuild : op = .buildKeyIndex key <;> simp [SegmentOp.extend, hbuild]
  | some since =>
    by_cases hremove : op = .remove key
    · simp [SegmentOp.extend, hremove]
    · simp [SegmentOp.extend, hremove]

theorem stored_keep (hremove : ∀ key, op ≠ .remove key)
    (hoffers : ∀ key timestamp value, op.offers key timestamp value = none) :
    stored (ops ++ [op]) = stored ops := by
  funext key timestamp value
  rw [stored_concat (hremove key), hoffers, Option.or_none]
  split_ifs with hindexed
  · rfl
  · rw [stored_eq_none (Bool.eq_false_iff.mpr hindexed)]

theorem indexed_keep (hbuild : ∀ key, op ≠ .buildKeyIndex key) (hremove : ∀ key, op ≠ .remove key)
    (key : Bytes) : indexed (ops ++ [op]) key = indexed ops key := by
  rw [indexed_concat, if_neg (hbuild key), if_neg (hremove key)]

theorem stored_remove_eq : stored (ops ++ [.remove key]) =
    Function.update (stored ops) key fun _ _ => none := by
  funext key' timestamp value
  by_cases heq : key' = key
  · rw [heq, Function.update_self, stored_remove]
  · have hne : SegmentOp.remove key ≠ .remove key' := fun h => heq (SegmentOp.remove.inj h).symm
    rw [Function.update_of_ne heq, stored_concat hne]
    simp only [SegmentOp.offers, Option.or_none]
    split_ifs with hindexed
    · rfl
    · rw [stored_eq_none (Bool.eq_false_iff.mpr hindexed)]

theorem stored_put (hindexed : indexed ops key = true)
    (habsent : stored ops key timestamp value = none) (offset : ℕ) :
    stored (ops ++ [.put key timestamp value offset]) =
      Function.update (stored ops) key (Function.update (stored ops key) timestamp
        (Function.update (stored ops key timestamp) value (some offset))) := by
  funext key' timestamp' value'
  have hne : SegmentOp.put key timestamp value offset ≠ .remove key' := nofun
  rw [stored_concat hne, SegmentOp.offers]
  by_cases hkey : key' = key
  · subst hkey
    rw [if_pos hindexed, Function.update_self]
    by_cases htime : timestamp' = timestamp
    · subst htime
      rw [Function.update_self]
      by_cases hvalue : value' = value
      · subst hvalue
        rw [Function.update_self, habsent, if_pos ⟨rfl, rfl, rfl⟩]
        rfl
      · rw [Function.update_of_ne hvalue, if_neg fun h => hvalue h.2.2.symm, Option.or_none]
    · rw [Function.update_of_ne htime, if_neg fun h => htime h.2.1.symm, Option.or_none]
  · have hskip : ¬ (key = key' ∧ timestamp = timestamp' ∧ value = value') := fun h => hkey h.1.symm
    rw [Function.update_of_ne hkey, if_neg hskip, Option.or_none]
    split_ifs with hindexed'
    · rfl
    · rw [stored_eq_none (Bool.eq_false_iff.mpr hindexed')]

/-- A `Put` on a key that is not indexed, or of a triple that is there, stores nothing. -/
theorem stored_put_of_taken (offset : ℕ)
    (h : indexed ops key = false ∨ stored ops key timestamp value ≠ none) :
    stored (ops ++ [.put key timestamp value offset]) = stored ops := by
  funext key' timestamp' value'
  have hne : SegmentOp.put key timestamp value offset ≠ .remove key' := nofun
  rw [stored_concat hne, SegmentOp.offers]
  split_ifs with hindexed hsame
  · obtain ⟨rfl, rfl, rfl⟩ := hsame
    obtain ⟨first, hfirst⟩ := Option.ne_none_iff_exists'.mp
      (h.resolve_left fun hnot => by rw [hindexed] at hnot; cases hnot)
    rw [hfirst, Option.some_or]
  · rw [Option.or_none]
  · rw [stored_eq_none (Bool.eq_false_iff.mpr hindexed)]

end History

def Models (ops : List SegmentOp) (seg : SkipSegment) : Prop :=
  ∃ vp ip, Layout seg vp ip (stored ops) ∧ ∀ key, (vp key).isSome = indexed ops key

section Steps
variable {ops : List SegmentOp} {seg : SkipSegment}

theorem Models.new : Models [] SkipSegment.new :=
  ⟨_, _, Layout.new, fun _ => rfl⟩

theorem Models.contains (h : Models ops seg) (key : Bytes) :
    seg.contains key = .ok (indexed ops key) := by
  obtain ⟨vp, ip, hlayout, hindexed⟩ := h
  rw [hlayout.contains, hindexed]

theorem Models.get (h : Models ops seg) (key : Bytes) (timestamp : UInt64) (value : Bytes)
    (offset : ℕ) : seg.get key timestamp value offset =
      .ok ((stored ops key timestamp value).isSome,
        (stored ops key timestamp value).getD offset) := by
  obtain ⟨vp, ip, hlayout, -⟩ := h
  exact hlayout.get key timestamp value offset

theorem Models.buildKeyIndex (h : Models ops seg) {key : Bytes} (hlen : key.length < 2 ^ 31) :
    ∃ seg', seg.buildKeyIndex key = .ok (!indexed ops key, seg') ∧
      Models (ops ++ [.buildKeyIndex key]) seg' := by
  obtain ⟨vp, ip, hlayout, hindexed⟩ := h
  have hstored : stored (ops ++ [.buildKeyIndex key]) = stored ops :=
    stored_keep nofun fun _ _ _ => rfl
  cases hvp : vp key with
  | none =>
    obtain ⟨seg', p, hbuild, hlayout'⟩ := hlayout.buildKeyIndex hlen hvp
    have hnot : indexed ops key = false := by rw [← hindexed, hvp, Option.isSome_none]
    refine ⟨seg', by rw [hbuild, hnot]; rfl, _, _, hstored ▸ hlayout', fun key' => ?_⟩
    rw [indexed_concat]
    by_cases heq : key' = key
    · rw [heq, Function.update_self, if_pos rfl, Option.isSome_some]
    · have hne : SegmentOp.buildKeyIndex key ≠ .buildKeyIndex key' :=
        fun h => heq (SegmentOp.buildKeyIndex.inj h).symm
      rw [Function.update_of_ne heq, if_neg hne, if_neg nofun, hindexed]
  | some p =>
    have hyes : indexed ops key = true := by rw [← hindexed, hvp, Option.isSome_some]
    have hbuild : seg.buildKeyIndex key = .ok (false, seg) :=
      hlayout.buildKeyIndex_indexed (by rw [hvp]; exact nofun)
    refine ⟨seg, by rw [hbuild, hyes]; rfl, vp, ip, hstored ▸ hlayout, fun key' => ?_⟩
    have hne : SegmentOp.buildKeyIndex key ≠ .remove key' := nofun
    rw [indexed_concat, if_neg hne, hindexed]
    split_ifs with heq
    · rw [← SegmentOp.buildKeyIndex.inj heq, hyes]
    · rfl

theorem Models.remove (h : Models ops seg) (key : Bytes) :
    ∃ seg', seg.remove key = .ok (indexed ops key, seg') ∧
      Models (ops ++ [.remove key]) seg' := by
  obtain ⟨vp, ip, hlayout, hindexed⟩ := h
  obtain ⟨seg', hremove, hlayout'⟩ := hlayout.remove key
  refine ⟨seg', by rw [hremove, hindexed], _, _, stored_remove_eq ▸ hlayout', fun key' => ?_⟩
  rw [indexed_concat, if_neg nofun]
  by_cases heq : key' = key
  · rw [heq, Function.update_self, if_pos rfl, Option.isSome_none]
  · have hne : SegmentOp.remove key ≠ .remove key' := fun h => heq (SegmentOp.remove.inj h).symm
    rw [Function.update_of_ne heq, if_neg hne, hindexed]

theorem Models.put (h : Models ops seg) (key : Bytes) (timestamp : UInt64) {value : Bytes}
    (hlen : value.length < 2 ^ 31) (offset : ℕ) :
    ∃ seg', seg.put key timestamp value offset =
        .ok (indexed ops key && (stored ops key timestamp value).isNone, seg') ∧
      Models (ops ++ [.put key timestamp value offset]) seg' ∧
      ((indexed ops key && (stored ops key timestamp value).isNone) = false → seg' = seg) := by
  obtain ⟨vp, ip, hlayout, hindexed⟩ := h
  have hkeep : ∀ key', indexed (ops ++ [.put key timestamp value offset]) key' = indexed ops key' :=
    indexed_keep nofun nofun
  cases hvp : vp key with
  | none =>
    have hnot : indexed ops key = false := by rw [← hindexed, hvp, Option.isSome_none]
    refine ⟨seg, by rw [hlayout.put_unindexed hvp, hnot]; rfl, ⟨vp, ip, ?_, fun key' => ?_⟩,
      fun _ => rfl⟩
    · rw [stored_put_of_taken offset (.inl hnot)]
      exact hlayout
    · rw [hkeep, hindexed]
  | some p =>
    have hyes : indexed ops key = true := by rw [← hindexed, hvp, Option.isSome_some]
    cases hstored : stored ops key timestamp value with
    | none =>
      have hne : vp key ≠ none := by rw [hvp]; exact nofun
      obtain ⟨seg', ip', hput, hlayout'⟩ := hlayout.put_new hne hlen hstored offset
      refine ⟨seg', by rw [hput, hyes]; rfl, ⟨vp, ip', ?_, fun key' => ?_⟩, ?_⟩
      · rw [stored_put hyes hstored]
        exact hlayout'
      · rw [hkeep, hindexed]
      · rw [hyes]
        exact nofun
    | some first =>
      have htaken : stored ops key timestamp value ≠ none := by rw [hstored]; exact nofun
      refine ⟨seg, by rw [hlayout.put_taken htaken, hyes]; rfl, ⟨vp, ip, ?_, fun key' => ?_⟩,
        fun _ => rfl⟩
      · rw [stored_put_of_taken offset (.inr htaken)]
        exact hlayout
      · rw [hkeep, hindexed]

/-- An operation that neither indexes, removes nor puts anything. -/
theorem Models.query (h : Models ops seg) {op : SegmentOp} (hbuild : ∀ key, op ≠ .buildKeyIndex key)
    (hremove : ∀ key, op ≠ .remove key)
    (hoffers : ∀ key timestamp value, op.offers key timestamp value = none) :
    Models (ops ++ [op]) seg := by
  obtain ⟨vp, ip, hlayout, hindexed⟩ := h
  refine ⟨vp, ip, ?_, fun key => ?_⟩
  · rw [stored_keep hremove hoffers]
    exact hlayout
  · rw [indexed_keep hbuild hremove, hindexed]

theorem Models.step (h : Models ops seg) {op : SegmentOp} (hop : op.Short) :
    ∃ seg', op.step seg = some seg' ∧ Models (ops ++ [op]) seg' := by
  cases op with
  | buildKeyIndex key =>
    obtain ⟨seg', hbuild, hnext⟩ := h.buildKeyIndex hop
    exact ⟨seg', by rw [SegmentOp.step, hbuild]; rfl, hnext⟩
  | put key timestamp value offset =>
    obtain ⟨seg', hput, hnext, -⟩ := h.put key timestamp hop offset
    exact ⟨seg', by rw [SegmentOp.step, hput]; rfl, hnext⟩
  | remove key =>
    obtain ⟨seg', hremove, hnext⟩ := h.remove key
    exact ⟨seg', by rw [SegmentOp.step, hremove]; rfl, hnext⟩
  | get key timestamp value offset =>
    refine ⟨seg, ?_, h.query (fun _ => nofun) (fun _ => nofun) fun _ _ _ => rfl⟩
    rw [SegmentOp.step, h.get key timestamp value offset]
    rfl
  | contains key =>
    refine ⟨seg, ?_, h.query (fun _ => nofun) (fun _ => nofun) fun _ _ _ => rfl⟩
    rw [SegmentOp.step, h.contains key]
    rfl

theorem Models.of_run (hops : ∀ op ∈ ops, op.Short) :
    ∃ seg, run SegmentOp.step ops SkipSegment.new = some seg ∧ Models ops seg := by
  refine Run.exists_run (P := Models) .new ?_
  intro pre op post seg heq h
  exact h.step (hops op (by simp [heq]))

/-- What the operations that may follow do after a run: a triple has the offset of the first `Put`
of it since its key was indexed. -/
structure FirstWriterWins (ops : List SegmentOp) (seg : SkipSegment) : Prop where
  contains : ∀ key, seg.contains key = .ok (indexed ops key)
  get : ∀ key timestamp value offset, seg.get key timestamp value offset =
    .ok (match stored ops key timestamp value with
      | some first => (true, first)
      | none => (false, offset))
  put : ∀ key timestamp (value : Bytes) offset, value.length < 2 ^ 31 → ∃ result seg',
    seg.put key timestamp value offset = .ok (result, seg') ∧
      (result = true ↔ indexed ops key = true ∧ stored ops key timestamp value = none) ∧
      (result = true → ∀ out, seg'.get key timestamp value out = .ok (true, offset)) ∧
      (result = false → seg' = seg) ∧
      (∀ key' timestamp' value' out, (key', timestamp', value') ≠ (key, timestamp, value) →
        seg'.get key' timestamp' value' out = seg.get key' timestamp' value' out) ∧
      ∀ key', seg'.contains key' = seg.contains key'
  buildKeyIndex : ∀ key : Bytes, key.length < 2 ^ 31 → ∃ seg',
    seg.buildKeyIndex key = .ok (!indexed ops key, seg') ∧
      (∀ key', seg'.contains key' = .ok (if key' = key then true else indexed ops key')) ∧
      ∀ key' timestamp value out,
        seg'.get key' timestamp value out = seg.get key' timestamp value out
  remove : ∀ key, ∃ seg', seg.remove key = .ok (indexed ops key, seg') ∧
    (∀ key', seg'.contains key' = .ok (if key' = key then false else indexed ops key')) ∧
    ∀ key' timestamp value out, seg'.get key' timestamp value out =
      if key' = key then .ok (false, out) else seg.get key' timestamp value out

theorem Models.get_concat (h : Models ops seg) {op : SegmentOp} {seg' : SkipSegment}
    (h' : Models (ops ++ [op]) seg') {key : Bytes} {timestamp : UInt64} {value : Bytes}
    (hremove : op ≠ .remove key) (hoffers : op.offers key timestamp value = none) (out : ℕ) :
    seg'.get key timestamp value out = seg.get key timestamp value out := by
  rw [h'.get, h.get, stored_concat hremove, hoffers, Option.or_none]
  split_ifs with hindexed
  · rfl
  · rw [stored_eq_none (Bool.eq_false_iff.mpr hindexed)]

theorem Models.firstWriterWins (h : Models ops seg) : FirstWriterWins ops seg := by
  refine ⟨h.contains, ?_, ?_, ?_, ?_⟩
  · intro key timestamp value offset
    rw [h.get]
    cases stored ops key timestamp value <;> rfl
  · intro key timestamp value offset hlen
    obtain ⟨seg', hput, hnext, hsame⟩ := h.put key timestamp hlen offset
    have hresult : (indexed ops key && (stored ops key timestamp value).isNone) = true ↔
        indexed ops key = true ∧ stored ops key timestamp value = none := by simp
    refine ⟨_, seg', hput, hresult, fun htrue out => ?_, hsame, ?_, fun key' => ?_⟩
    · obtain ⟨hindexed, hnone⟩ := hresult.mp htrue
      rw [hnext.get, stored_put hindexed hnone, Function.update_self, Function.update_self,
        Function.update_self]
      rfl
    · intro key' timestamp' value' out hne
      have hremove : SegmentOp.put key timestamp value offset ≠ .remove key' := nofun
      refine h.get_concat hnext hremove (if_neg fun hsame => hne ?_) out
      rw [hsame.1, hsame.2.1, hsame.2.2]
    · have hbuild : ∀ k, SegmentOp.put key timestamp value offset ≠ .buildKeyIndex k := nofun
      have hremove : ∀ k, SegmentOp.put key timestamp value offset ≠ .remove k := nofun
      rw [hnext.contains, h.contains, indexed_keep hbuild hremove]
  · intro key hlen
    obtain ⟨seg', hbuild, hnext⟩ := h.buildKeyIndex hlen
    refine ⟨seg', hbuild, fun key' => ?_, fun key' timestamp value out => ?_⟩
    · have hremove : SegmentOp.buildKeyIndex key ≠ .remove key' := nofun
      rw [hnext.contains, indexed_concat, if_neg hremove]
      simp only [SegmentOp.buildKeyIndex.injEq, eq_comm]
    · have hremove : SegmentOp.buildKeyIndex key ≠ .remove key' := nofun
      exact h.get_concat hnext hremove rfl out
  · intro key
    obtain ⟨seg', hremove, hnext⟩ := h.remove key
    refine ⟨seg', hremove, fun key' => ?_, fun key' timestamp value out => ?_⟩
    · have hbuild : SegmentOp.remove key ≠ .buildKeyIndex key' := nofun
      rw [hnext.contains, indexed_concat, if_neg hbuild]
      simp only [SegmentOp.remove.injEq, eq_comm]
    · split_ifs with heq
      · rw [heq, hnext.get, stored_remove]
        rfl
      · have hne : SegmentOp.remove key ≠ .remove key' :=
          fun hsame => heq (SegmentOp.remove.inj hsame).symm
        exact h.get_concat hnext hne rfl out

end Steps

/-- After any run a segment is a nested map in which the first offset of a triple stays, its slices
being in a total order that tells all of them apart. -/
theorem segment_firstWriterWins {ops : List SegmentOp} (hops : ∀ op ∈ ops, op.Short) :
    (TransCmp Slice.compare ∧
      ∀ a b, (Slice.compare a b = .eq ↔ a = b) ∧ (sliceEqual a b = true ↔ a = b)) ∧
    ∃ seg, run SegmentOp.step ops SkipSegment.new = some seg ∧ FirstWriterWins ops seg := by
  refine ⟨⟨inferInstance, fun a b => ⟨LawfulEqCmp.compare_eq_iff_eq, ?_⟩⟩, ?_⟩
  · rw [sliceEqual_iff, LawfulEqCmp.compare_eq_iff_eq]
  · obtain ⟨seg, hrun, h⟩ := Models.of_run hops
    exact ⟨seg, hrun, h.firstWriterWins⟩

theorem segment_firstWriterWins_reindexed :
    ∃ seg, run SegmentOp.step [.buildKeyIndex (ascii "c"), .put (ascii "c") 7 (ascii "1") 3,
        .put (ascii "c") 7 (ascii "1") 4, .remove (ascii "c"), .buildKeyIndex (ascii "c"),
        .put (ascii "c") 7 (ascii "1") 5] SkipSegment.new = some seg ∧
      seg.get (ascii "c") 7 (ascii "1") 0 = .ok (true, 5) := by
  have hops : ∀ op ∈ [SegmentOp.buildKeyIndex (ascii "c"), .put (ascii "c") 7 (ascii "1") 3,
      .put (ascii "c") 7 (ascii "1") 4, .remove (ascii "c"), .buildKeyIndex (ascii "c"),
      .put (ascii "c") 7 (ascii "1") 5], op.Short := by
    decide
  obtain ⟨-, seg, hrun, h⟩ := segment_firstWriterWins hops
  exact ⟨seg, hrun, h.get _ _ _ _⟩

end SkipSegment
end Ibdb.Storage
