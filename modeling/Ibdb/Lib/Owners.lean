import Mathlib.Logic.Function.Basic

/-! Objects that each own a block of the heap, or none. -/

/-- An object that lives points to a block, or is null; no block is missing, shared or lost. -/
structure Owners {V A β : Type*} (heap : A → Option β) (pointer : V → Option (Option A)) :
    Prop where
  live : ∀ v a, pointer v = some (some a) → heap a ≠ none
  owned : ∀ a, heap a ≠ none → ∃ v, pointer v = some (some a)
  unshared : ∀ v w a, pointer v = some (some a) → pointer w = some (some a) → v = w

namespace Owners
variable {V A β : Type*} {heap : A → Option β}
  {pointer : V → Option (Option A)} {v w : V} {a : A}

/-- What an object stands for: nothing when it does not live, null, or the content of its block. -/
def value (heap : A → Option β) (pointer : V → Option (Option A)) (v : V) : Option (Option β) :=
  (pointer v).map fun p => p.bind heap

theorem empty : Owners (fun _ : A => (none : Option β)) (fun _ : V => none) :=
  ⟨nofun, fun _ h => absurd rfl h, nofun⟩

theorem value_eq_some_none (h : Owners heap pointer) :
    value heap pointer v = some none ↔ pointer v = some none := by
  constructor
  · intro hv
    rw [value, Option.map_eq_some_iff] at hv
    obtain ⟨p, hp, hnone⟩ := hv
    cases p with
    | none => exact hp
    | some a => exact absurd hnone (h.live v a hp)
  · intro hp
    rw [value, hp]
    rfl

theorem value_eq_none : value heap pointer v = none ↔ pointer v = none := by
  rw [value, Option.map_eq_none_iff]

variable [DecidableEq V]

/-- An object that owns nothing may begin, end, or be null. -/
theorem setNull (h : Owners heap pointer) (hv : ∀ b, pointer v ≠ some (some b))
    {p : Option (Option A)} (hp : ∀ b, p ≠ some (some b)) :
    Owners heap (Function.update pointer v p) := by
  have hother : ∀ u b, Function.update pointer v p u = some (some b) →
      u ≠ v ∧ pointer u = some (some b) := by
    intro u b hu
    have hne : u ≠ v := by
      intro heq
      rw [heq, Function.update_self] at hu
      exact hp b hu
    rw [Function.update_of_ne hne] at hu
    exact ⟨hne, hu⟩
  refine ⟨fun u b hu => h.live u b (hother u b hu).2, ?_, ?_⟩
  · intro b hb
    obtain ⟨u, hu⟩ := h.owned b hb
    have hne : u ≠ v := fun heq => hv b (heq ▸ hu)
    exact ⟨u, by rw [Function.update_of_ne hne, hu]⟩
  · intro u u' b hu hu'
    exact h.unshared u u' b (hother u b hu).2 (hother u' b hu').2

theorem value_setNull {p : Option (Option A)} (hp : ∀ b, p ≠ some (some b)) :
    value heap (Function.update pointer v p) =
      Function.update (value heap pointer) v (p.map fun _ => none) := by
  funext u
  by_cases huv : u = v
  · subst huv
    rw [Function.update_self, value, Function.update_self]
    rcases p with _ | _ | b
    · rfl
    · rfl
    · exact absurd rfl (hp b)
  · rw [Function.update_of_ne huv, value, value, Function.update_of_ne huv]

variable [DecidableEq A]

theorem give (h : Owners heap pointer) (hv : ∀ b, pointer v ≠ some (some b)) (ha : heap a = none)
    (b : β) :
    Owners (Function.update heap a (some b)) (Function.update pointer v (some (some a))) := by
  have hold : ∀ u a', pointer u = some (some a') → a' ≠ a := by
    intro u a' hu heq
    exact h.live u a' hu (heq ▸ ha)
  refine ⟨?_, ?_, ?_⟩
  · intro u a' hu
    by_cases huv : u = v
    · subst huv
      rw [Function.update_self] at hu
      cases hu
      rw [Function.update_self]
      exact Option.some_ne_none b
    · rw [Function.update_of_ne huv] at hu
      rw [Function.update_of_ne (hold u a' hu)]
      exact h.live u a' hu
  · intro a' ha'
    by_cases haa : a' = a
    · exact ⟨v, by rw [Function.update_self, haa]⟩
    · rw [Function.update_of_ne haa] at ha'
      obtain ⟨u, hu⟩ := h.owned a' ha'
      have hne : u ≠ v := fun heq => hv a' (heq ▸ hu)
      exact ⟨u, by rw [Function.update_of_ne hne, hu]⟩
  · intro u u' a' hu hu'
    by_cases huv : u = v
    · subst huv
      rw [Function.update_self] at hu
      cases hu
      by_contra hne
      rw [Function.update_of_ne (Ne.symm hne)] at hu'
      exact hold u' a hu' rfl
    · rw [Function.update_of_ne huv] at hu
      have hne : u' ≠ v := by
        intro heq
        rw [heq, Function.update_self] at hu'
        cases hu'
        exact hold u a hu rfl
      rw [Function.update_of_ne hne] at hu'
      exact h.unshared u u' a' hu hu'

theorem drop (h : Owners heap pointer) (hv : pointer v = some (some a)) {p : Option (Option A)}
    (hp : ∀ b, p ≠ some (some b)) :
    Owners (Function.update heap a none) (Function.update pointer v p) := by
  have hother : ∀ u b, Function.update pointer v p u = some (some b) →
      u ≠ v ∧ pointer u = some (some b) ∧ b ≠ a := by
    intro u b hu
    have hne : u ≠ v := by
      intro heq
      rw [heq, Function.update_self] at hu
      exact hp b hu
    rw [Function.update_of_ne hne] at hu
    exact ⟨hne, hu, fun heq => hne (h.unshared u v a (heq ▸ hu) hv)⟩
  refine ⟨?_, ?_, ?_⟩
  · intro u b hu
    obtain ⟨-, hold, hne⟩ := hother u b hu
    rw [Function.update_of_ne hne]
    exact h.live u b hold
  · intro b hb
    have hne : b ≠ a := by
      intro heq
      rw [heq, Function.update_self] at hb
      exact hb rfl
    rw [Function.update_of_ne hne] at hb
    obtain ⟨u, hu⟩ := h.owned b hb
    have hne' : u ≠ v := by
      intro heq
      subst heq
      cases hu.symm.trans hv
      exact hne rfl
    exact ⟨u, by rw [Function.update_of_ne hne', hu]⟩
  · intro u u' b hu hu'
    exact h.unshared u u' b (hother u b hu).2.1 (hother u' b hu').2.1

theorem value_give (h : Owners heap pointer) (ha : heap a = none) (b : β) :
    value (Function.update heap a (some b)) (Function.update pointer v (some (some a))) =
      Function.update (value heap pointer) v (some (some b)) := by
  funext u
  by_cases huv : u = v
  · subst huv
    rw [Function.update_self, value, Function.update_self, Option.map_some, Option.bind_some,
      Function.update_self]
  · rw [Function.update_of_ne huv, value, value, Function.update_of_ne huv]
    rcases hu : pointer u with _ | _ | a'
    · rfl
    · rfl
    · have hne : a' ≠ a := fun heq => h.live u a' hu (heq ▸ ha)
      rw [Option.map_some, Option.map_some, Option.bind_some, Option.bind_some,
        Function.update_of_ne hne]

theorem value_drop (h : Owners heap pointer) (hv : pointer v = some (some a))
    {p : Option (Option A)} (hp : ∀ b, p ≠ some (some b)) :
    value (Function.update heap a none) (Function.update pointer v p) =
      Function.update (value heap pointer) v (p.map fun _ => none) := by
  rw [← value_setNull hp]
  funext u
  rw [value, value]
  by_cases huv : u = v
  · subst huv
    rw [Function.update_self]
    rcases p with _ | _ | b
    · rfl
    · rfl
    · exact absurd rfl (hp b)
  · rw [Function.update_of_ne huv]
    rcases hu : pointer u with _ | _ | a'
    · rfl
    · rfl
    · have hne : a' ≠ a := by
        intro heq
        subst heq
        exact huv (h.unshared u v a' hu hv)
      rw [Option.map_some, Option.map_some, Option.bind_some, Option.bind_some,
        Function.update_of_ne hne]

end Owners
