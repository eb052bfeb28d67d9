import Ibdb.Storage.SkipSegment

/-! Which lists of a segment belong to which key and timestamp, and what each operation does to
the contents. -/
namespace Ibdb.Storage
open Base Std

namespace SkipSegment

/-- The objects behind the three levels: `vp` names the `ValueEntry` of each indexed key and `ip`
the `Index` of each key and timestamp, and no object is named twice. -/
structure Layout (seg : SkipSegment) (vp : Bytes → Option ℕ) (ip : Bytes → UInt64 → Option ℕ)
    (m : Bytes → UInt64 → Bytes → Option ℕ) : Prop where
  keys : seg.segment.Holds Slice.compare fun key => (vp key).map some
  entries : ∀ key p, vp key = some p → ∃ entry, seg.valueEntries[p]? = some entry ∧
    entry.Holds timeStampCompare fun timestamp => (ip key timestamp).map some
  indexes : ∀ key timestamp q, ip key timestamp = some q → ∃ list, seg.indexes[q]? = some list ∧
    list.Holds Slice.compare (m key timestamp)
  empty : ∀ key timestamp, ip key timestamp = none → ∀ value, m key timestamp value = none
  unindexed : ∀ key, vp key = none → ∀ timestamp, ip key timestamp = none
  vp_inj : ∀ key key' p, vp key = some p → vp key' = some p → key = key'
  ip_inj : ∀ key timestamp key' timestamp' q, ip key timestamp = some q →
    ip key' timestamp' = some q → key = key' ∧ timestamp = timestamp'

theorem deref_eq {α : Type} {objects : List α} {p : ℕ} {x : α} (h : objects[p]? = some x) :
    deref objects (some p) = .ok x := by
  simp [deref, h]

theorem copySlice_eq {slice : Bytes} (h : slice.length < 2 ^ 31) : copySlice slice = .ok slice := by
  rw [copySlice, Slice.ofBuffer_of_lt h]
  rfl

section Operations
variable {seg : SkipSegment} {vp : Bytes → Option ℕ} {ip : Bytes → UInt64 → Option ℕ}
variable {m : Bytes → UInt64 → Bytes → Option ℕ}

theorem Layout.new : Layout SkipSegment.new (fun _ => none) (fun _ _ => none)
    fun _ _ _ => none :=
  ⟨SkipList.Holds.new _, nofun, nofun, fun _ _ _ _ => rfl, fun _ _ _ => rfl, nofun, nofun⟩

theorem Layout.contains (h : Layout seg vp ip m) (key : Bytes) :
    seg.contains key = .ok (vp key).isSome := by
  rw [SkipSegment.contains, h.keys.contains, Option.isSome_map]

theorem ite_compare_eq {α : Type} (key key' : Bytes) (x y : α) :
    (if Slice.compare key key' = .eq then x else y) = if key' = key then x else y := by
  by_cases heq : key' = key
  · rw [if_pos heq, if_pos (LawfulEqCmp.compare_eq_iff_eq.mpr heq.symm)]
  · rw [if_neg heq, if_neg fun h => heq (LawfulEqCmp.eq_of_compare h).symm]

/-- Nothing is named after a key without a `ValueEntry`. -/
theorem Layout.unindexed_eq (h : Layout seg vp ip m) {key : Bytes} (hvp : vp key = none) :
    (ip key = fun _ => none) ∧ m key = fun _ _ => none := by
  have hip := h.unindexed key hvp
  exact ⟨funext hip, funext₂ fun timestamp value => h.empty key timestamp (hip timestamp) value⟩

/-- The layout when a key and all that is named after it are dropped. -/
theorem Layout.drop (h : Layout seg vp ip m) {key : Bytes} {segment : SkipList Bytes ListPtr}
    (hkeys : segment.Holds Slice.compare fun key' =>
      if Slice.compare key key' = .eq then none else (vp key').map some) :
    Layout { seg with segment := segment } (Function.update vp key none)
      (Function.update ip key fun _ => none) (Function.update m key fun _ _ => none) := by
  have hvp : ∀ key' p, Function.update vp key none key' = some p → key' ≠ key ∧ vp key' = some p := by
    intro key' p hp
    by_cases heq : key' = key
    · rw [heq, Function.update_self] at hp
      cases hp
    · exact ⟨heq, by rwa [Function.update_of_ne heq] at hp⟩
  have hip : ∀ key' timestamp q, Function.update ip key (fun _ => none) key' timestamp = some q →
      key' ≠ key ∧ ip key' timestamp = some q := by
    intro key' timestamp q hq
    by_cases heq : key' = key
    · rw [heq, Function.update_self] at hq
      cases hq
    · exact ⟨heq, by rwa [Function.update_of_ne heq] at hq⟩
  refine ⟨hkeys.congr fun key' => ?_, fun key' p hp => ?_, fun key' timestamp q hq => ?_,
    fun key' timestamp hnone => ?_, fun key' hnone => ?_, fun key' key'' p hp hp' => ?_,
    fun key' timestamp key'' timestamp' q hq hq' => ?_⟩
  · rw [ite_compare_eq, Function.update_apply]
    split_ifs <;> rfl
  · obtain ⟨hne, hp⟩ := hvp key' p hp
    rw [Function.update_of_ne hne]
    exact h.entries key' p hp
  · obtain ⟨hne, hq⟩ := hip key' timestamp q hq
    rw [Function.update_of_ne hne]
    exact h.indexes key' timestamp q hq
  · intro value
    by_cases heq : key' = key
    · rw [heq, Function.update_self]
    · rw [Function.update_of_ne heq] at hnone ⊢
      exact h.empty key' timestamp hnone value
  · intro timestamp
    by_cases heq : key' = key
    · rw [heq, Function.update_self]
    · rw [Function.update_of_ne heq] at hnone ⊢
      exact h.unindexed key' hnone timestamp
  · exact h.vp_inj key' key'' p (hvp key' p hp).2 (hvp key'' p hp').2
  · exact h.ip_inj key' timestamp key'' timestamp' q (hip key' timestamp q hq).2
      (hip key'' timestamp' q hq').2

theorem Layout.remove (h : Layout seg vp ip m) (key : Bytes) :
    ∃ seg', seg.remove key = .ok ((vp key).isSome, seg') ∧
      Layout seg' (Function.update vp key none) (Function.update ip key fun _ => none)
        (Function.update m key fun _ _ => none) := by
  rw [SkipSegment.remove, h.contains key, Except.ok_bind]
  cases hvp : vp key with
  | none =>
    obtain ⟨hip, hm⟩ := h.unindexed_eq hvp
    refine ⟨seg, rfl, ?_⟩
    rw [← hip, ← hm, ← hvp, Function.update_eq_self, Function.update_eq_self,
      Function.update_eq_self]
    exact h
  | some p =>
    obtain ⟨segment, hremove, hkeys⟩ := h.keys.remove key
    refine ⟨{ seg with segment := segment }, ?_, h.drop hkeys⟩
    simp only [Option.isSome_some, if_true]
    rw [hremove, hvp]
    rfl

theorem Layout.buildKeyIndex (h : Layout seg vp ip m) {key : Bytes} (hlen : key.length < 2 ^ 31)
    (habsent : vp key = none) :
    ∃ seg' p, seg.buildKeyIndex key = .ok (true, seg') ∧
      Layout seg' (Function.update vp key (some p)) ip m := by
  have hnone : (fun key' => (vp key').map some) key = (none : Option ListPtr) := by
    simp only [habsent, Option.map_none]
  obtain ⟨segment, hinsert, hkeys⟩ := h.keys.insert hnone (some seg.valueEntries.length)
  have hvp : ∀ key' p, Function.update vp key (some seg.valueEntries.length) key' = some p →
      (key' = key ∧ p = seg.valueEntries.length) ∨
        (key' ≠ key ∧ vp key' = some p ∧ p < seg.valueEntries.length) := by
    intro key' p hp
    by_cases heq : key' = key
    · rw [heq, Function.update_self] at hp
      exact .inl ⟨heq, (Option.some.inj hp).symm⟩
    · rw [Function.update_of_ne heq] at hp
      obtain ⟨entry, hentry, -⟩ := h.entries key' p hp
      exact .inr ⟨heq, hp, (List.getElem?_eq_some_iff.mp hentry).1⟩
  refine ⟨⟨segment, seg.valueEntries ++ [SkipList.new], seg.indexes⟩, seg.valueEntries.length, ?_,
    hkeys.congr fun key' => ?_, fun key' p hp => ?_,
    h.indexes, h.empty, fun key' hnone => ?_, fun key' key'' p hp hp' => ?_, h.ip_inj⟩
  · rw [SkipSegment.buildKeyIndex, h.contains key, habsent, Except.ok_bind]
    simp only [newValueEntry, Option.isSome_none, Bool.false_eq_true, if_false]
    rw [copySlice_eq hlen, Except.ok_bind, hinsert]
    rfl
  · rw [ite_compare_eq, Function.update_apply]
    split_ifs <;> rfl
  · rcases hvp key' p hp with ⟨rfl, rfl⟩ | ⟨-, hp, hlt⟩
    · refine ⟨SkipList.new, by simp, (SkipList.Holds.new _).congr fun timestamp => ?_⟩
      rw [(h.unindexed_eq habsent).1]
      rfl
    · obtain ⟨entry, hentry, hholds⟩ := h.entries key' p hp
      exact ⟨entry, by rw [List.getElem?_append_left hlt]; exact hentry, hholds⟩
  · by_cases heq : key' = key
    · rw [heq, Function.update_self] at hnone
      cases hnone
    · rw [Function.update_of_ne heq] at hnone
      exact h.unindexed key' hnone
  · rcases hvp key' p hp with ⟨rfl, rfl⟩ | ⟨-, hp, hlt⟩ <;>
      rcases hvp key'' _ hp' with ⟨rfl, heq⟩ | ⟨-, hp', hlt'⟩
    · rfl
    · omega
    · omega
    · exact h.vp_inj key' key'' p hp hp'

theorem Layout.buildKeyIndex_indexed (h : Layout seg vp ip m) {key : Bytes}
    (hindexed : vp key ≠ none) : seg.buildKeyIndex key = .ok (false, seg) := by
  rw [SkipSegment.buildKeyIndex, h.contains key, Option.isSome_iff_ne_none.mpr hindexed]
  rfl

/-- An index for a timestamp that had none. -/
theorem Layout.addIndex (h : Layout seg vp ip m) {key : Bytes} {p : ℕ} (hp : vp key = some p)
    {timestamp : UInt64} (habsent : ip key timestamp = none) {entry : SkipList UInt64 ListPtr}
    (hentry : entry.Holds timeStampCompare fun timestamp' =>
      if timeStampCompare timestamp timestamp' = .eq then some (some seg.indexes.length)
      else (ip key timestamp').map some) :
    Layout ⟨seg.segment, seg.valueEntries.set p entry, seg.indexes ++ [SkipList.new]⟩ vp
      (Function.update ip key (Function.update (ip key) timestamp (some seg.indexes.length))) m := by
  have hlt : p < seg.valueEntries.length := by
    obtain ⟨old, hold, -⟩ := h.entries key p hp
    exact (List.getElem?_eq_some_iff.mp hold).1
  have hip : ∀ key' timestamp' q,
      Function.update ip key (Function.update (ip key) timestamp (some seg.indexes.length)) key'
        timestamp' = some q →
      (key' = key ∧ timestamp' = timestamp ∧ q = seg.indexes.length) ∨
        (ip key' timestamp' = some q ∧ q < seg.indexes.length) := by
    intro key' timestamp' q hq
    by_cases hkey : key' = key
    · rw [hkey, Function.update_self] at hq
      by_cases htime : timestamp' = timestamp
      · rw [htime, Function.update_self] at hq
        exact .inl ⟨hkey, htime, (Option.some.inj hq).symm⟩
      · rw [Function.update_of_ne htime] at hq
        obtain ⟨list, hlist, -⟩ := h.indexes key timestamp' q hq
        exact .inr ⟨hkey ▸ hq, (List.getElem?_eq_some_iff.mp hlist).1⟩
    · rw [Function.update_of_ne hkey] at hq
      obtain ⟨list, hlist, -⟩ := h.indexes key' timestamp' q hq
      exact .inr ⟨hq, (List.getElem?_eq_some_iff.mp hlist).1⟩
  refine ⟨h.keys, fun key' p' hp' => ?_, fun key' timestamp' q hq => ?_,
    fun key' timestamp' hnone => ?_, fun key' hnone timestamp' => ?_, h.vp_inj,
    fun key' timestamp' key'' timestamp'' q hq hq' => ?_⟩
  · by_cases hkey : key' = key
    · subst hkey
      obtain rfl : p = p' := Option.some.inj (hp.symm.trans hp')
      refine ⟨entry, List.getElem?_set_self hlt, hentry.congr fun timestamp' => ?_⟩
      rw [Function.update_self, Function.update_apply, timeStampCompare_eq]
      by_cases htime : timestamp' = timestamp
      · rw [if_pos htime, if_pos (by rw [htime]; exact ReflCmp.compare_self)]
        rfl
      · rw [if_neg htime, if_neg fun heq => htime (LawfulEqCmp.eq_of_compare heq).symm]
    · have hne : p ≠ p' := by
        intro heq
        subst heq
        exact hkey (h.vp_inj key' key p hp' hp)
      obtain ⟨old, hold, hholds⟩ := h.entries key' p' hp'
      refine ⟨old, by rw [List.getElem?_set_ne hne]; exact hold, ?_⟩
      rwa [Function.update_of_ne hkey]
  · rcases hip key' timestamp' q hq with ⟨rfl, rfl, rfl⟩ | ⟨hq, hlt⟩
    · exact ⟨SkipList.new, by simp, (SkipList.Holds.new _).congr (h.empty key' timestamp' habsent)⟩
    · obtain ⟨list, hlist, hholds⟩ := h.indexes key' timestamp' q hq
      exact ⟨list, by rw [List.getElem?_append_left hlt]; exact hlist, hholds⟩
  · refine h.empty key' timestamp' ?_
    by_cases hkey : key' = key
    · rw [hkey, Function.update_self] at hnone
      by_cases htime : timestamp' = timestamp
      · rw [htime, Function.update_self] at hnone
        cases hnone
      · rwa [Function.update_of_ne htime, ← hkey] at hnone
    · rwa [Function.update_of_ne hkey] at hnone
  · have hkey : key' ≠ key := fun heq => by rw [heq, hp] at hnone; cases hnone
    rw [Function.update_of_ne hkey]
    exact h.unindexed key' hnone timestamp'
  · rcases hip key' timestamp' q hq with ⟨rfl, rfl, rfl⟩ | ⟨hq, hlt⟩ <;>
      rcases hip key'' timestamp'' _ hq' with ⟨rfl, rfl, heq⟩ | ⟨hq', hlt'⟩
    · exact ⟨rfl, rfl⟩
    · omega
    · omega
    · exact h.ip_inj key' timestamp' key'' timestamp'' q hq hq'

/-- The index of a timestamp is there after it is touched, and an index that was there is the
same. -/
theorem Layout.touchTimestamp (h : Layout seg vp ip m) {key : Bytes} {p : ℕ}
    (hp : vp key = some p) (timestamp : UInt64) :
    ∃ seg' ip' q, seg.touchTimestamp (some p) timestamp = .ok seg' ∧ Layout seg' vp ip' m ∧
      ip' key timestamp = some q ∧ (ip key timestamp ≠ none → seg' = seg) := by
  obtain ⟨entry, hentry, hholds⟩ := h.entries key p hp
  rw [SkipSegment.touchTimestamp, deref_eq hentry, Except.ok_bind, hholds.contains,
    Except.ok_bind, Option.isSome_map]
  cases hq : ip key timestamp with
  | some q => exact ⟨seg, ip, q, rfl, h, hq, fun _ => rfl⟩
  | none =>
    have hnone : (fun timestamp => (ip key timestamp).map some) timestamp =
        (none : Option ListPtr) := by
      simp only [hq, Option.map_none]
    obtain ⟨entry', hinsert, hholds'⟩ := hholds.insert hnone (some seg.indexes.length)
    refine ⟨_, _, seg.indexes.length, ?_, h.addIndex hp hq hholds', ?_, nofun⟩
    · simp only [newIndex, Option.isSome_none, Bool.false_eq_true, if_false]
      rw [hinsert]
      rfl
    · rw [Function.update_self, Function.update_self]

/-- A value for a key and timestamp that have an index. -/
theorem Layout.addValue (h : Layout seg vp ip m) {key : Bytes} {timestamp : UInt64} {q : ℕ}
    (hq : ip key timestamp = some q) {value : Bytes} {offset : ℕ} {list : SkipList Bytes ℕ}
    (hlist : list.Holds Slice.compare fun value' =>
      if Slice.compare value value' = .eq then some offset else m key timestamp value') :
    Layout { seg with indexes := seg.indexes.set q list } vp ip
      (Function.update m key (Function.update (m key) timestamp
        (Function.update (m key timestamp) value (some offset)))) := by
  have hlt : q < seg.indexes.length := by
    obtain ⟨old, hold, -⟩ := h.indexes key timestamp q hq
    exact (List.getElem?_eq_some_iff.mp hold).1
  have hother : ∀ key' timestamp', ¬ (key' = key ∧ timestamp' = timestamp) →
      Function.update m key (Function.update (m key) timestamp
        (Function.update (m key timestamp) value (some offset))) key' timestamp' =
        m key' timestamp' := by
    intro key' timestamp' hne
    by_cases hkey : key' = key
    · have htime : timestamp' ≠ timestamp := fun heq => hne ⟨hkey, heq⟩
      rw [hkey, Function.update_self, Function.update_of_ne htime]
    · rw [Function.update_of_ne hkey]
  refine ⟨h.keys, h.entries, fun key' timestamp' q' hq' => ?_, fun key' timestamp' hnone => ?_,
    h.unindexed, h.vp_inj, h.ip_inj⟩
  · by_cases hsame : key' = key ∧ timestamp' = timestamp
    · obtain ⟨rfl, rfl⟩ := hsame
      obtain rfl : q = q' := Option.some.inj (hq.symm.trans hq')
      refine ⟨list, List.getElem?_set_self hlt, hlist.congr fun value' => ?_⟩
      rw [Function.update_self, Function.update_self, ite_compare_eq, Function.update_apply]
    · have hne : q ≠ q' := by
        intro heq
        subst heq
        exact hsame (h.ip_inj key' timestamp' key timestamp q hq' hq)
      obtain ⟨old, hold, hholds⟩ := h.indexes key' timestamp' q' hq'
      refine ⟨old, by rw [List.getElem?_set_ne hne]; exact hold, ?_⟩
      rwa [hother key' timestamp' hsame]
  · intro value'
    have hne : ¬ (key' = key ∧ timestamp' = timestamp) := by
      intro hsame
      rw [hsame.1, hsame.2, hq] at hnone
      cases hnone
    rw [hother key' timestamp' hne]
    exact h.empty key' timestamp' hnone value'

theorem Layout.put_unindexed (h : Layout seg vp ip m) {key : Bytes} (hvp : vp key = none)
    (timestamp : UInt64) (value : Bytes) (offset : ℕ) :
    seg.put key timestamp value offset = .ok (false, seg) := by
  rw [SkipSegment.put, h.contains key, hvp]
  rfl

/-- The first part of a `Put` for an indexed key: up to the index of the timestamp. -/
theorem Layout.put_eq (h : Layout seg vp ip m) {key : Bytes} {p : ℕ} (hp : vp key = some p)
    (timestamp : UInt64) (value : Bytes) (offset : ℕ) :
    ∃ seg' ip' q, ∃ list : SkipList Bytes ℕ, Layout seg' vp ip' m ∧ ip' key timestamp = some q ∧
      list.Holds Slice.compare (m key timestamp) ∧ (ip key timestamp ≠ none → seg' = seg) ∧
      seg.put key timestamp value offset = (do
        if ← list.contains Slice.compare value then return (false, seg')
        else
          let newValue ← copySlice value
          let list ← list.insert Slice.compare newValue offset
          return (true, { seg' with indexes := seg'.indexes.set q list })) := by
  obtain ⟨seg', ip', q, htouch, hlayout, hq, hsame⟩ := h.touchTimestamp hp timestamp
  obtain ⟨entry, hentry, hholds⟩ := hlayout.entries key p hp
  obtain ⟨list, hlist, hholds'⟩ := hlayout.indexes key timestamp q hq
  have hvalue : seg.segment.getValue Slice.compare key = .ok (some p) :=
    h.keys.getValue (by simp only [hp, Option.map_some])
  have hindex : entry.getValue timeStampCompare timestamp = .ok (some q) :=
    hholds.getValue (by simp only [hq, Option.map_some])
  refine ⟨seg', ip', q, list, hlayout, hq, hholds', hsame, ?_⟩
  rw [SkipSegment.put, h.contains key, hp, Except.ok_bind]
  simp only [Option.isSome_some, Bool.not_true, Bool.false_eq_true, if_false]
  rw [hvalue, Except.ok_bind, htouch, Except.ok_bind, deref_eq hentry, Except.ok_bind, hindex,
    Except.ok_bind, deref_eq hlist, Except.ok_bind]
  rfl

theorem Layout.put_taken (h : Layout seg vp ip m) {key : Bytes} {timestamp : UInt64} {value : Bytes}
    (htaken : m key timestamp value ≠ none) (offset : ℕ) :
    seg.put key timestamp value offset = .ok (false, seg) := by
  have hip : ip key timestamp ≠ none := fun hnone => htaken (h.empty key timestamp hnone value)
  obtain ⟨p, hp⟩ := Option.ne_none_iff_exists'.mp fun hnone => hip (h.unindexed key hnone timestamp)
  obtain ⟨seg', ip', q, list, hlayout, hq, hholds, hsame, hput⟩ :=
    h.put_eq hp timestamp value offset
  rw [hput, hholds.contains, Except.ok_bind, if_pos (Option.isSome_iff_ne_none.mpr htaken),
    hsame hip]
  rfl

theorem Layout.put_new (h : Layout seg vp ip m) {key : Bytes} (hindexed : vp key ≠ none)
    {timestamp : UInt64} {value : Bytes} (hlen : value.length < 2 ^ 31)
    (habsent : m key timestamp value = none) (offset : ℕ) :
    ∃ seg' ip', seg.put key timestamp value offset = .ok (true, seg') ∧
      Layout seg' vp ip' (Function.update m key (Function.update (m key) timestamp
        (Function.update (m key timestamp) value (some offset)))) := by
  obtain ⟨p, hp⟩ := Option.ne_none_iff_exists'.mp hindexed
  obtain ⟨seg', ip', q, list, hlayout, hq, hholds, -, hput⟩ := h.put_eq hp timestamp value offset
  obtain ⟨list', hinsert, hholds'⟩ := hholds.insert habsent offset
  refine ⟨{ seg' with indexes := seg'.indexes.set q list' }, ip', ?_, hlayout.addValue hq hholds'⟩
  rw [hput, hholds.contains, Except.ok_bind, habsent]
  simp only [Option.isSome_none, Bool.false_eq_true, if_false]
  rw [copySlice_eq hlen, Except.ok_bind, hinsert]
  rfl

theorem Layout.get (h : Layout seg vp ip m) (key : Bytes) (timestamp : UInt64) (value : Bytes)
    (offset : ℕ) :
    seg.get key timestamp value offset =
      .ok ((m key timestamp value).isSome, (m key timestamp value).getD offset) := by
  rw [SkipSegment.get, h.contains key, Except.ok_bind]
  cases hp : vp key with
  | none =>
    rw [h.empty key timestamp (h.unindexed key hp timestamp) value]
    rfl
  | some p =>
    obtain ⟨entry, hentry, hholds⟩ := h.entries key p hp
    have hvalue : seg.segment.getValue Slice.compare key = .ok (some p) :=
      h.keys.getValue (by simp only [hp, Option.map_some])
    simp only [Option.isSome_some, Bool.not_true, Bool.false_eq_true, if_false]
    rw [hvalue, Except.ok_bind, deref_eq hentry, Except.ok_bind, hholds.contains, Except.ok_bind]
    cases hq : ip key timestamp with
    | none =>
      rw [h.empty key timestamp hq value]
      rfl
    | some q =>
      obtain ⟨list, hlist, hholds'⟩ := h.indexes key timestamp q hq
      have hindex : entry.getValue timeStampCompare timestamp = .ok (some q) :=
        hholds.getValue (by simp only [hq, Option.map_some])
      simp only [Option.map_some, Option.isSome_some, Bool.not_true, Bool.false_eq_true, if_false]
      rw [hindex, Except.ok_bind, deref_eq hlist, Except.ok_bind, hholds'.contains, Except.ok_bind]
      cases hoffset : m key timestamp value with
      | none => rfl
      | some o =>
        simp only [Option.isSome_some, Bool.not_true, Bool.false_eq_true, if_false]
        rw [hholds'.getValue hoffset]
        rfl

end Operations
end SkipSegment
end Ibdb.Storage
