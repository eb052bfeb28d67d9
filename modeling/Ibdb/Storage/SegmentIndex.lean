import Ibdb.Storage.Segment

/-! The index as a partial function of column, timestamp and value. -/
namespace Ibdb.Storage.Segment
open Base
open Std (ExtTreeMap)

theorem contains_eq_isSome (seg : Segment) (key : Bytes) :
    seg.contains key = (seg.segment[key]?).isSome :=
  ExtTreeMap.contains_eq_isSome_getElem?

/-- A column's entry, looked up by timestamp and value. -/
def lookup (valueEntry : ValueEntry) (timestamp : UInt64) (value : Bytes) : Option ℕ :=
  (valueEntry[timestamp]?).bind (·[value]?)

/-- The three nested maps are looked up in turn. -/
theorem get_eq (seg : Segment) (key : Bytes) (timestamp : UInt64) (value : Bytes) :
    seg.get key timestamp value = (seg.segment[key]?).bind (lookup · timestamp value) := by
  unfold get lookup
  rw [contains_eq_isSome]
  cases hkey : seg.segment[key]? with
  | none => rfl
  | some valueEntry =>
    simp only [Option.isSome_some, Bool.not_true, Bool.false_eq_true, if_false,
      ExtTreeMap.getD_eq_getD_getElem?, hkey, Option.getD_some, Option.bind_some,
      ExtTreeMap.contains_eq_isSome_getElem?]
    cases htime : valueEntry[timestamp]? with
    | none => rfl
    | some index =>
      cases hvalue : index[value]? <;> simp [hvalue]

theorem get_insert (seg : Segment) (key : Bytes) (valueEntry : ValueEntry) (k : Bytes)
    (t : UInt64) (v : Bytes) :
    (Segment.mk (seg.segment.insert key valueEntry)).get k t v =
      if k = key then lookup valueEntry t v else seg.get k t v := by
  rw [get_eq, get_eq, ExtTreeMap.getElem?_insert]
  by_cases hk : k = key
  · simp [hk]
  · have hc : ¬ Slice.compare key k = .eq := fun hc => hk (Std.LawfulEqCmp.eq_of_compare hc).symm
    rw [if_neg hc, if_neg hk]

theorem contains_insert {seg : Segment} {key : Bytes} (h : seg.contains key = true)
    (valueEntry : ValueEntry) (k : Bytes) :
    (Segment.mk (seg.segment.insert key valueEntry)).contains k = seg.contains k := by
  unfold contains at *
  rw [ExtTreeMap.contains_insert]
  by_cases hc : Slice.compare key k = .eq
  · rw [← Std.LawfulEqCmp.eq_of_compare hc, h]
    simp
  · simp [hc]

/-- Whether or not the key is there, nothing is found under it after `Remove`. -/
theorem getElem?_remove (seg : Segment) (key k : Bytes) :
    (remove key seg).2.segment[k]? = if k = key then none else seg.segment[k]? := by
  unfold remove
  rw [contains_eq_isSome]
  by_cases hk : k = key
  · subst hk
    rw [if_pos rfl]
    cases hkey : seg.segment[k]? with
    | none => simp [hkey]
    | some entry => simp
  · have hc : Slice.compare key k ≠ .eq := fun hc => hk (Std.LawfulEqCmp.eq_of_compare hc).symm
    rw [if_neg hk]
    split_ifs
    · rw [ExtTreeMap.getElem?_erase, if_neg hc]
    · rfl

theorem remove_fst (seg : Segment) (key : Bytes) : (remove key seg).1 = seg.contains key := by
  unfold remove
  split_ifs with h
  · exact h.symm
  · exact (Bool.eq_false_iff.mpr h).symm

theorem lookup_touch (valueEntry : ValueEntry) (timestamp t : UInt64) (v : Bytes) :
    lookup (if valueEntry.contains timestamp then valueEntry else valueEntry.insert timestamp ∅)
      t v = lookup valueEntry t v := by
  split_ifs with h
  · rfl
  · unfold lookup
    rw [ExtTreeMap.getElem?_insert]
    by_cases ht : timestamp = t
    · subst ht
      have hnone : valueEntry[timestamp]? = none := by
        rw [ExtTreeMap.contains_eq_isSome_getElem?] at h
        simpa using h
      simp [hnone]
    · simp [ht]

theorem lookup_insert (valueEntry : ValueEntry) (timestamp : UInt64) (index : Index)
    (t : UInt64) (v : Bytes) :
    lookup (valueEntry.insert timestamp index) t v =
      if t = timestamp then index[v]? else lookup valueEntry t v := by
  unfold lookup
  rw [ExtTreeMap.getElem?_insert]
  by_cases ht : t = timestamp
  · simp [ht]
  · simp [ht, Ne.symm ht]

theorem getElem?_getD (valueEntry : ValueEntry) (timestamp : UInt64) (v : Bytes) :
    (valueEntry.getD timestamp ∅)[v]? = lookup valueEntry timestamp v := by
  rw [lookup, ExtTreeMap.getD_eq_getD_getElem?]
  cases valueEntry[timestamp]? <;> simp

/-- A column's entry with one for the timestamp. -/
def touched (seg : Segment) (key : Bytes) (timestamp : UInt64) : ValueEntry :=
  if (seg.segment.getD key ∅).contains timestamp then seg.segment.getD key ∅
  else (seg.segment.getD key ∅).insert timestamp ∅

section Put
variable {seg : Segment} {key : Bytes} {timestamp : UInt64} {value : Bytes} {offset : ℕ}

theorem lookup_touched (hkey : seg.contains key = true) (t : UInt64) (v : Bytes) :
    lookup (seg.touched key timestamp) t v = seg.get key t v := by
  obtain ⟨entry, hentry⟩ := Option.isSome_iff_exists.mp
    ((contains_eq_isSome seg key).symm.trans hkey)
  rw [touched, lookup_touch, get_eq, ExtTreeMap.getD_eq_getD_getElem?, hentry,
    Option.getD_some, Option.bind_some]

theorem get_insert_touched (hkey : seg.contains key = true) (k : Bytes) (t : UInt64) (v : Bytes) :
    (Segment.mk (seg.segment.insert key (seg.touched key timestamp))).get k t v =
      seg.get k t v := by
  rw [get_insert]
  split_ifs with hk
  · rw [hk, lookup_touched hkey]
  · rfl

/-- `Put` on a key column, with the index of the timestamp looked up. -/
theorem put_eq (hkey : seg.contains key = true) :
    put key timestamp value offset seg =
      let mid : Segment := ⟨seg.segment.insert key (seg.touched key timestamp)⟩
      if seg.get key timestamp value ≠ none then (.ok false, mid)
      else if value.length % 2 ^ 32 < 2 ^ 31 then
        let index := (seg.touched key timestamp).getD timestamp ∅
        (.ok true, ⟨mid.segment.insert key ((seg.touched key timestamp).insert timestamp
          (index.insert (value.take (value.length % 2 ^ 32)) offset))⟩)
      else (.error .undefined, mid) := by
  have hindex : ((seg.touched key timestamp).getD timestamp ∅).contains value =
      (seg.get key timestamp value).isSome := by
    rw [ExtTreeMap.contains_eq_isSome_getElem?, getElem?_getD, lookup_touched hkey]
  rw [put, Exec.bind_ok (Exec.get_apply seg)]
  simp only [hkey, Bool.not_true, Bool.false_eq_true, if_false]
  rw [Exec.bind_ok (Exec.modify_apply _ _)]
  change (if ((seg.touched key timestamp).getD timestamp ∅).contains value = true then _
    else _ : Exec Fault Segment Bool) _ = _
  rw [hindex]
  cases hget : seg.get key timestamp value with
  | some first => rfl
  | none =>
    simp only [Option.isSome_none, Bool.false_eq_true, if_false, ne_eq, not_true_eq_false,
      Slice.ofBuffer_eq]
    by_cases hlength : value.length % 2 ^ 32 < 2 ^ 31
    · simp only [if_pos hlength]
      rfl
    · simp only [if_neg hlength]
      rfl

end Put

/-- Whatever comes of a `Put` on a key column, the columns stay. -/
theorem put_result {seg : Segment} {key : Bytes} (hkey : seg.contains key = true)
    (timestamp : UInt64) (value : Bytes) (offset : ℕ) :
    ((∃ b, (put key timestamp value offset seg).1 = .ok b) ∨
        (put key timestamp value offset seg).1 = .error .undefined) ∧
      ∀ k, (put key timestamp value offset seg).2.contains k = seg.contains k := by
  have hc := contains_insert hkey (seg.touched key timestamp)
  rw [put_eq hkey]
  dsimp only
  split_ifs
  · exact ⟨.inl ⟨false, rfl⟩, hc⟩
  · refine ⟨.inl ⟨true, rfl⟩, fun k => ?_⟩
    exact (contains_insert ((hc key).trans hkey) _ k).trans (hc k)
  · exact ⟨.inr rfl, hc⟩

/-- Between the two states the triples of `P` that had no offset got this one, and nothing else
changed. -/
structure Adds (offset : ℕ) (P : Bytes → UInt64 → Bytes → Prop) (seg seg' : Segment) : Prop where
  contains : ∀ k, seg'.contains k = seg.contains k
  added : ∀ k t v, P k t v → seg'.get k t v = some ((seg.get k t v).getD offset)
  kept : ∀ k t v, ¬ P k t v → seg'.get k t v = seg.get k t v

theorem Adds.refl {offset : ℕ} {P : Bytes → UInt64 → Bytes → Prop} (h : ∀ k t v, ¬ P k t v)
    (seg : Segment) : Adds offset P seg seg :=
  ⟨fun _ => rfl, fun k t v hp => absurd hp (h k t v), fun _ _ _ _ => rfl⟩

theorem Adds.trans {offset : ℕ} {P Q R : Bytes → UInt64 → Bytes → Prop} {seg mid seg' : Segment}
    (h : Adds offset P seg mid) (h' : Adds offset Q mid seg')
    (hr : ∀ k t v, R k t v ↔ P k t v ∨ Q k t v) : Adds offset R seg seg' where
  contains k := (h'.contains k).trans (h.contains k)
  added k t v hrktv := by
    by_cases hq : Q k t v
    · rw [h'.added k t v hq]
      by_cases hp : P k t v
      · rw [h.added k t v hp, Option.getD_some]
      · rw [h.kept k t v hp]
    · rw [h'.kept k t v hq, h.added k t v (((hr k t v).mp hrktv).resolve_right hq)]
  kept k t v hnot := by
    rw [hr, not_or] at hnot
    rw [h'.kept k t v hnot.2, h.kept k t v hnot.1]

/-- `Put` on a key column: a value that is there keeps its offset and the result is `false`, a new
one gets this offset, and nothing else changes. -/
theorem put_spec {seg : Segment} {key value : Bytes} (timestamp : UInt64) (offset : ℕ)
    (hkey : seg.contains key = true) (hvalue : value.length < 2 ^ 31) :
    ∃ seg', put key timestamp value offset seg = (.ok (seg.get key timestamp value).isNone, seg') ∧
      Adds offset (fun k t v => k = key ∧ t = timestamp ∧ v = value) seg seg' := by
  have hmid : Adds offset (fun _ _ _ => False) seg
      ⟨seg.segment.insert key (seg.touched key timestamp)⟩ :=
    ⟨contains_insert hkey _, fun _ _ _ h => h.elim, fun k t v _ => get_insert_touched hkey k t v⟩
  rw [put_eq hkey]
  dsimp only
  cases hfirst : seg.get key timestamp value with
  | some first =>
    rw [if_pos (Option.some_ne_none first)]
    refine ⟨_, rfl, hmid.contains, ?_, fun k t v _ => hmid.kept k t v id⟩
    rintro k t v ⟨rfl, rfl, rfl⟩
    rw [hmid.kept _ _ _ id, hfirst, Option.getD_some]
  | none =>
    have hlength : value.length % 2 ^ 32 = value.length := Nat.mod_eq_of_lt (by omega)
    rw [if_neg (not_not.mpr rfl), hlength, if_pos hvalue, List.take_length]
    refine ⟨_, rfl, ?_, ?_, ?_⟩
    · intro k
      rw [contains_insert ((hmid.contains key).trans hkey), hmid.contains]
    · rintro k t v ⟨rfl, rfl, rfl⟩
      rw [get_insert, if_pos rfl, lookup_insert, if_pos rfl, hfirst,
        ExtTreeMap.getElem?_insert_self, Option.getD_none]
    · intro k t v hne
      rw [get_insert]
      split_ifs with hk
      · rw [lookup_insert]
        split_ifs with ht
        · have hv : ¬ Slice.compare value v = .eq :=
            fun hc => hne ⟨hk, ht, (Std.LawfulEqCmp.eq_of_compare hc).symm⟩
          rw [ExtTreeMap.getElem?_insert, if_neg hv, getElem?_getD, lookup_touched hkey, hk, ht]
        · rw [lookup_touched hkey, hk]
      · exact hmid.kept k t v id

end Ibdb.Storage.Segment
