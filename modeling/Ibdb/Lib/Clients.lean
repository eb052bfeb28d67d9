import Ibdb.Lib.Run
import Mathlib.Algebra.BigOperators.Group.Finset.Basic
import Mathlib.Data.Fintype.Basic
import Mathlib.Logic.Function.Basic

/-! Clients that take turns over a shared state, one atomic step at a time. -/

/-- What the clients share, and what each has of its own. -/
structure Clients (ι τ σ : Type*) where
  shared : σ
  own : ι → τ

namespace Clients
variable {ι τ σ : Type*} [DecidableEq ι] {next : ι → τ → σ → Option (τ × σ)} {i : ι}
  {s t : Clients ι τ σ}

def step (next : ι → τ → σ → Option (τ × σ)) (i : ι) (s : Clients ι τ σ) :
    Option (Clients ι τ σ) :=
  (next i (s.own i) s.shared).map fun r => ⟨r.2, Function.update s.own i r.1⟩

theorem step_eq_some :
    step next i s = some t ↔ ∃ own shared, next i (s.own i) s.shared = some (own, shared) ∧
      t = ⟨shared, Function.update s.own i own⟩ := by
  unfold step
  rw [Option.map_eq_some_iff]
  constructor
  · rintro ⟨⟨own, shared⟩, hnext, rfl⟩
    exact ⟨own, shared, hnext, rfl⟩
  · rintro ⟨own, shared, hnext, rfl⟩
    exact ⟨(own, shared), hnext, rfl⟩

theorem own_of_ne (h : step next i s = some t) {j : ι} (hj : j ≠ i) : t.own j = s.own j := by
  obtain ⟨own, shared, -, rfl⟩ := step_eq_some.mp h
  exact Function.update_of_ne hj _ _

/-- A total over the clients changes by what the client that took the step contributes. -/
theorem sum_step [Fintype ι] {own : τ} {shared : σ}
    (hnext : next i (s.own i) s.shared = some (own, shared)) (h : step next i s = some t)
    (f : τ → ℕ) : ∑ j, f (t.own j) + f (s.own i) = ∑ j, f (s.own j) + f own := by
  obtain ⟨own', shared', hnext', rfl⟩ := step_eq_some.mp h
  cases hnext.symm.trans hnext'
  have hsplit : ∀ g : ι → τ, ∑ j, f (g j) = f (g i) + ∑ j ∈ Finset.univ.erase i, f (g j) :=
    fun g => (Finset.add_sum_erase _ (fun j => f (g j)) (Finset.mem_univ i)).symm
  have hrest : ∑ j ∈ Finset.univ.erase i, f (Function.update s.own i own j) =
      ∑ j ∈ Finset.univ.erase i, f (s.own j) := by
    refine Finset.sum_congr rfl fun j hj => ?_
    rw [Function.update_of_ne (Finset.ne_of_mem_erase hj)]
  rw [hsplit (Function.update s.own i own), hsplit s.own, hrest, Function.update_self]
  ac_rfl

/-- What no step of its own takes from a client it has for good. -/
theorem own_of_run {P : τ → Prop}
    (keeps : ∀ own shared own' shared', P own → next i own shared = some (own', shared') → P own')
    {es : List ι} (hrun : run (step next) es s = some t) (hs : P (s.own i)) : P (t.own i) := by
  refine Run.induct (P := fun _ (t : Clients ι τ σ) => P (t.own i)) hs ?_ hrun
  intro es e u v hu hstep
  by_cases he : i = e
  · subst he
    obtain ⟨own, shared, hnext, rfl⟩ := step_eq_some.mp hstep
    have hown := keeps _ _ _ _ hu hnext
    rwa [← Function.update_self i own u.own] at hown
  · rwa [own_of_ne hstep he]

end Clients
