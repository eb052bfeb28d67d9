import Ibdb.Storage.SegmentIndex
import Ibdb.Storage.SkipSegmentRun

/-! The segment of skip lists against the segment of maps that stands for it in a table. -/
namespace Ibdb.Storage
open Base Std

namespace SkipSegment

def Simulates (seg : SkipSegment) (map : Segment) : Prop :=
  ∃ vp ip, Layout seg vp ip map.get ∧ ∀ key, (vp key).isSome = map.contains key

section Simulation
variable {seg : SkipSegment} {map : Segment}

theorem Simulates.new : Simulates SkipSegment.new Segment.empty := by
  have hget : (fun _ _ _ => none) = Segment.empty.get := by
    funext key timestamp value
    rw [Segment.get_eq, Segment.empty, ExtTreeMap.getElem?_empty, Option.bind_none]
  refine ⟨_, _, hget ▸ Layout.new, fun key => ?_⟩
  rw [Segment.contains, Segment.empty, ExtTreeMap.contains_empty]
  rfl

theorem Simulates.contains (h : Simulates seg map) (key : Bytes) :
    seg.contains key = .ok (map.contains key) := by
  obtain ⟨vp, ip, hlayout, hvp⟩ := h
  rw [hlayout.contains, hvp]

theorem Simulates.get (h : Simulates seg map) (key : Bytes) (timestamp : UInt64) (value : Bytes)
    (offset : ℕ) : seg.get key timestamp value offset =
      .ok ((map.get key timestamp value).isSome, (map.get key timestamp value).getD offset) := by
  obtain ⟨vp, ip, hlayout, -⟩ := h
  exact hlayout.get key timestamp value offset

theorem Simulates.buildKeyIndex (h : Simulates seg map) {key : Bytes} (hlen : key.length < 2 ^ 31) :
    ∃ result seg' map', seg.buildKeyIndex key = .ok (result, seg') ∧
      Segment.buildKeyIndex key map = (.ok result, map') ∧ Simulates seg' map' := by
  obtain ⟨vp, ip, hlayout, hvp⟩ := h
  rw [Segment.buildKeyIndex, Exec.bind_ok (Exec.get_apply map)]
  cases hkey : vp key with
  | some p =>
    have hin : map.contains key = true := by rw [← hvp, hkey, Option.isSome_some]
    have hne : vp key ≠ none := by rw [hkey]; exact Option.some_ne_none p
    refine ⟨false, seg, map, hlayout.buildKeyIndex_indexed hne, ?_,
      vp, ip, hlayout, hvp⟩
    rw [if_pos hin]
    rfl
  | none =>
    have hout : map.contains key = false := by rw [← hvp, hkey, Option.isSome_none]
    obtain ⟨seg', p, hbuild, hlayout'⟩ := hlayout.buildKeyIndex hlen hkey
    refine ⟨true, seg', ⟨map.segment.insert key ∅⟩, hbuild, ?_, Function.update vp key (some p), ip,
      ?_, fun key' => ?_⟩
    · rw [if_neg (by rw [hout]; exact nofun), Slice.ofBuffer_of_lt hlen]
      rfl
    · have hget : (Segment.mk (map.segment.insert key ∅)).get = map.get := by
        funext key' timestamp value
        rw [Segment.get_insert]
        split_ifs with heq
        · rw [heq, hlayout.empty key timestamp (hlayout.unindexed key hkey timestamp) value]
          simp [Segment.lookup]
        · rfl
      rw [hget]
      exact hlayout'
    · rw [Function.update_apply, Segment.contains, ExtTreeMap.contains_insert]
      by_cases heq : key' = key
      · simp [heq]
      · have hne : Slice.compare key key' ≠ .eq := fun hc => heq (LawfulEqCmp.eq_of_compare hc).symm
        rw [if_neg heq, hvp]
        simp [hne, Segment.contains]

theorem Simulates.put (h : Simulates seg map) (key : Bytes) (timestamp : UInt64) {value : Bytes}
    (hlen : value.length < 2 ^ 31) (offset : ℕ) :
    ∃ result seg' map', seg.put key timestamp value offset = .ok (result, seg') ∧
      Segment.put key timestamp value offset map = (.ok result, map') ∧ Simulates seg' map' := by
  obtain ⟨vp, ip, hlayout, hvp⟩ := h
  cases hkey : vp key with
  | none =>
    have hout : map.contains key = false := by rw [← hvp, hkey, Option.isSome_none]
    refine ⟨false, seg, map, hlayout.put_unindexed hkey timestamp value offset, ?_,
      vp, ip, hlayout, hvp⟩
    rw [Segment.put, Exec.bind_ok (Exec.get_apply map), hout]
    rfl
  | some p =>
    have hin : map.contains key = true := by rw [← hvp, hkey, Option.isSome_some]
    obtain ⟨map', hput, hadds⟩ := Segment.put_spec timestamp offset hin hlen
    have hcontains : ∀ key', (vp key').isSome = map'.contains key' := fun key' =>
      (hvp key').trans (hadds.contains key').symm
    cases hold : map.get key timestamp value with
    | some first =>
      have hget : map'.get = map.get := by
        funext k t v
        by_cases hsame : k = key ∧ t = timestamp ∧ v = value
        · obtain ⟨rfl, rfl, rfl⟩ := hsame
          rw [hadds.added _ _ _ ⟨rfl, rfl, rfl⟩, hold, Option.getD_some]
        · exact hadds.kept k t v hsame
      have hne : map.get key timestamp value ≠ none := by rw [hold]; exact Option.some_ne_none first
      refine ⟨false, seg, map', hlayout.put_taken hne offset, ?_,
        vp, ip, hget ▸ hlayout, hcontains⟩
      rw [hput, hold]
      rfl
    | none =>
      have hne : vp key ≠ none := by rw [hkey]; exact Option.some_ne_none p
      obtain ⟨seg', ip', hput', hlayout'⟩ := hlayout.put_new hne hlen hold offset
      have hget : map'.get = Function.update map.get key (Function.update (map.get key) timestamp
          (Function.update (map.get key timestamp) value (some offset))) := by
        funext k t v
        by_cases hk : k = key
        · subst hk
          rw [Function.update_self]
          by_cases ht : t = timestamp
          · subst ht
            rw [Function.update_self]
            by_cases hv : v = value
            · subst hv
              rw [Function.update_self, hadds.added _ _ _ ⟨rfl, rfl, rfl⟩, hold, Option.getD_none]
            · rw [Function.update_of_ne hv, hadds.kept _ _ _ fun hsame => hv hsame.2.2]
          · rw [Function.update_of_ne ht, hadds.kept _ _ _ fun hsame => ht hsame.2.1]
        · rw [Function.update_of_ne hk, hadds.kept _ _ _ fun hsame => hk hsame.1]
      refine ⟨true, seg', map', hput', ?_, vp, ip', ?_, hcontains⟩
      · rw [hput, hold]
        rfl
      · rw [hget]
        exact hlayout'

theorem Simulates.remove (h : Simulates seg map) (key : Bytes) :
    ∃ seg', seg.remove key = .ok ((Segment.remove key map).1, seg') ∧
      Simulates seg' (Segment.remove key map).2 := by
  obtain ⟨vp, ip, hlayout, hvp⟩ := h
  obtain ⟨seg', hremove, hlayout'⟩ := hlayout.remove key
  have hget : (Segment.remove key map).2.get = Function.update map.get key fun _ _ => none := by
    funext k t v
    rw [Segment.get_eq, Segment.getElem?_remove, Function.update_apply]
    split_ifs
    · rfl
    · rw [Segment.get_eq]
  refine ⟨seg', ?_, _, _, hget ▸ hlayout', fun key' => ?_⟩
  · rw [hremove, Segment.remove_fst, hvp]
  · rw [Segment.contains_eq_isSome, Segment.getElem?_remove, Function.update_apply]
    split_ifs
    · rfl
    · rw [hvp, Segment.contains_eq_isSome]

end Simulation

/-- The step on the maps that goes with a step on the lists. -/
def mapStep : SegmentOp → Segment → Option Segment
  | .buildKeyIndex key, map => afterCall (Segment.buildKeyIndex key map)
  | .put key timestamp value offset, map =>
    afterCall (Segment.put key timestamp value offset map)
  | .get .., map => some map
  | .contains _, map => some map
  | .remove key, map => some (Segment.remove key map).2

theorem Simulates.step {seg : SkipSegment} {map : Segment} (h : Simulates seg map) {op : SegmentOp}
    (hop : op.Short) :
    ∃ seg' map', op.step seg = some seg' ∧ mapStep op map = some map' ∧ Simulates seg' map' := by
  cases op with
  | buildKeyIndex key =>
    obtain ⟨result, seg', map', hseg, hmap, hnext⟩ := h.buildKeyIndex hop
    exact ⟨seg', map', by rw [SegmentOp.step, hseg]; rfl, by rw [mapStep, hmap]; rfl, hnext⟩
  | put key timestamp value offset =>
    obtain ⟨result, seg', map', hseg, hmap, hnext⟩ := h.put key timestamp hop offset
    exact ⟨seg', map', by rw [SegmentOp.step, hseg]; rfl, by rw [mapStep, hmap]; rfl, hnext⟩
  | remove key =>
    obtain ⟨seg', hseg, hnext⟩ := h.remove key
    exact ⟨seg', _, by rw [SegmentOp.step, hseg]; rfl, rfl, hnext⟩
  | get key timestamp value offset =>
    exact ⟨seg, map, by rw [SegmentOp.step, h.get]; rfl, rfl, h⟩
  | contains key => exact ⟨seg, map, by rw [SegmentOp.step, h.contains]; rfl, rfl, h⟩

/-- After the same run the lists and the maps answer alike. -/
theorem exists_simulates {ops : List SegmentOp} (hops : ∀ op ∈ ops, op.Short) :
    ∃ seg map, run SegmentOp.step ops SkipSegment.new = some seg ∧
      run mapStep ops Segment.empty = some map ∧ Simulates seg map := by
  have hrun : ∃ seg, run SegmentOp.step ops SkipSegment.new = some seg ∧
      ∃ map, run mapStep ops Segment.empty = some map ∧ Simulates seg map := by
    refine Run.exists_run (P := fun ops seg => ∃ map, run mapStep ops Segment.empty = some map ∧
      Simulates seg map) ⟨Segment.empty, rfl, Simulates.new⟩ ?_
    rintro pre op post seg heq ⟨map, hmap, h⟩
    obtain ⟨seg', map', hseg', hmap', hnext⟩ := h.step (hops op (by simp [heq]))
    exact ⟨seg', hseg', map', Run.run_concat.mpr ⟨map, hmap, hmap'⟩, hnext⟩
  obtain ⟨seg, hseg, map, hmap, h⟩ := hrun
  exact ⟨seg, map, hseg, hmap, h⟩

end SkipSegment
end Ibdb.Storage
