import Mathlib.Data.List.Induction

/-! Runs of a step function that can end the process. -/

/-- The state after the events in order, if the process is still there. -/
def run {ι σ : Type*} (step : ι → σ → Option σ) : List ι → σ → Option σ
  | [], s => some s
  | e :: es, s => (step e s).bind (run step es)

namespace Run
variable {ι σ : Type*} {step : ι → σ → Option σ}

theorem run_append (es fs : List ι) (s : σ) :
    run step (es ++ fs) s = (run step es s).bind (run step fs) := by
  induction es generalizing s with
  | nil => rfl
  | cons e es ih =>
    rw [List.cons_append, run, run]
    cases step e s with
    | none => rfl
    | some t => exact ih t

theorem run_concat {es : List ι} {e : ι} {s u : σ} :
    run step (es ++ [e]) s = some u ↔ ∃ t, run step es s = some t ∧ step e t = some u := by
  rw [run_append]
  cases run step es s with
  | none => simp
  | some t => simp [run]

/-- What holds of the start and is kept by each step holds along a run. The invariant may
speak of the events so far. -/
theorem induct {P : List ι → σ → Prop} {s : σ} (start : P [] s)
    (keeps : ∀ es e t u, P es t → step e t = some u → P (es ++ [e]) u)
    {es : List ι} {t : σ} (h : run step es s = some t) : P es t := by
  induction es using List.reverseRecOn generalizing t with
  | nil =>
    cases h
    exact start
  | append_singleton es e ih =>
    obtain ⟨u, hu, he⟩ := run_concat.mp h
    exact keeps es e u t (ih hu) he

/-- The invariant may rest on a condition on the events, when every prefix has it too. -/
theorem induct_of {C : List ι → Prop} (closed : ∀ es e, C (es ++ [e]) → C es)
    {P : List ι → σ → Prop} {s : σ} (start : P [] s)
    (keeps : ∀ es e t u, C (es ++ [e]) → P es t → step e t = some u → P (es ++ [e]) u)
    {es : List ι} {t : σ} (hc : C es) (h : run step es s = some t) : P es t := by
  have hmain : C es → P es t := by
    refine induct (P := fun es t => C es → P es t) (fun _ => start) ?_ h
    intro es e t u hp he hce
    exact keeps es e t u hce (hp (closed es e hce)) he
  exact hmain hc

/-- A run goes through when the invariant lets every next step be taken. -/
theorem exists_run {P : List ι → σ → Prop} {s : σ} {es : List ι} (start : P [] s)
    (takes : ∀ pre e post t, es = pre ++ e :: post → P pre t →
      ∃ u, step e t = some u ∧ P (pre ++ [e]) u) :
    ∃ t, run step es s = some t ∧ P es t := by
  induction es using List.reverseRecOn with
  | nil => exact ⟨s, rfl, start⟩
  | append_singleton es e ih =>
    obtain ⟨t, ht, hp⟩ := ih fun pre e' post t hes hp =>
      takes pre e' (post ++ [e]) t (by simp [hes]) hp
    obtain ⟨u, hu, hq⟩ := takes es e [] t rfl hp
    exact ⟨u, run_concat.mpr ⟨t, ht, hu⟩, hq⟩

/-- What holds at the end and not at the start came about in some step. -/
theorem exists_step {P : σ → Prop} {es : List ι} {s t : σ} (start : ¬ P s) (ht : P t)
    (h : run step es s = some t) :
    ∃ pre e post a b, es = pre ++ e :: post ∧ run step pre s = some a ∧ step e a = some b ∧
      ¬ P a ∧ P b := by
  induction es generalizing s with
  | nil =>
    cases h
    exact absurd ht start
  | cons e es ih =>
    obtain ⟨u, hu, hrun⟩ := Option.bind_eq_some_iff.mp h
    by_cases hp : P u
    · exact ⟨[], e, es, s, u, rfl, rfl, hu, start, hp⟩
    · obtain ⟨pre, e', post, a, b, rfl, ha, hb⟩ := ih hp hrun
      exact ⟨e :: pre, e', post, a, b, rfl, by rw [run, hu, Option.bind_some, ha], hb⟩

/-- Each event of the run meets the condition in the state it comes to. -/
def Along (step : ι → σ → Option σ) (C : ι → σ → Prop) (es : List ι) (s : σ) : Prop :=
  ∀ pre e post t, es = pre ++ e :: post → run step pre s = some t → C e t

def Always (step : ι → σ → Option σ) (P : σ → Prop) (es : List ι) (s : σ) : Prop :=
  ∀ pre t, pre <+: es → run step pre s = some t → P t

theorem along_nil (C : ι → σ → Prop) (s : σ) : Along step C [] s := by
  intro pre e post t heq
  simp at heq

theorem along_cons {C : ι → σ → Prop} {e : ι} {es : List ι} {s : σ} :
    Along step C (e :: es) s ↔ C e s ∧ ∀ u, step e s = some u → Along step C es u := by
  constructor
  · intro h
    refine ⟨h [] e es s rfl rfl, fun u hu pre e' post t heq ht => ?_⟩
    exact h (e :: pre) e' post t (by rw [heq]; rfl) (by rw [run, hu, Option.bind_some, ht])
  · rintro ⟨hfirst, hlater⟩ pre e' post t heq ht
    cases pre with
    | nil =>
      cases heq
      cases ht
      exact hfirst
    | cons e₀ pre =>
      obtain ⟨rfl, hrest⟩ := List.cons.inj heq
      obtain ⟨u, hu, ht⟩ := Option.bind_eq_some_iff.mp ht
      exact hlater u hu pre e' post t hrest ht

theorem along_concat {C : ι → σ → Prop} {es : List ι} {e : ι} {s : σ} :
    Along step C (es ++ [e]) s ↔ Along step C es s ∧ ∀ t, run step es s = some t → C e t := by
  constructor
  · intro h
    refine ⟨?_, fun t ht => h es e [] t rfl ht⟩
    intro pre e' post t heq ht
    subst heq
    exact h pre e' (post ++ [e]) t (by simp) ht
  · intro hw pre e' post t heq ht
    obtain ⟨hall, hlast⟩ := hw
    rcases List.eq_nil_or_concat post with rfl | ⟨rest, last, rfl⟩
    · obtain ⟨rfl, he⟩ := List.append_inj' heq rfl
      rw [← List.singleton_inj.mp he]
      exact hlast t ht
    · have heq' : es ++ [e] = (pre ++ e' :: rest) ++ [last] := by simpa using heq
      exact hall pre e' rest t (List.append_inj' heq' rfl).1 ht

/-- A run goes through when the invariant lets every next step be taken that meets the condition. -/
theorem exists_run_along {C : ι → σ → Prop} {P : List ι → σ → Prop} {s : σ} {es : List ι}
    (h : Along step C es s) (start : P [] s)
    (takes : ∀ pre e post t, es = pre ++ e :: post → P pre t → C e t →
      ∃ u, step e t = some u ∧ P (pre ++ [e]) u) :
    ∃ t, run step es s = some t ∧ P es t := by
  have hmain : ∃ t, run step es s = some t ∧ run step es s = some t ∧ P es t := by
    refine exists_run (P := fun es t => run step es s = some t ∧ P es t) ⟨rfl, start⟩ ?_
    rintro pre e post t heq ⟨ht, hp⟩
    obtain ⟨u, hu, hq⟩ := takes pre e post t heq hp (h pre e post t heq ht)
    exact ⟨u, hu, run_concat.mpr ⟨t, ht, hu⟩, hq⟩
  obtain ⟨t, ht, -, hp⟩ := hmain
  exact ⟨t, ht, hp⟩

/-- Two runs in lockstep: from related states both take the next step, to related states, or
neither does. -/
theorem lockstep {τ : Type*} {step' : ι → τ → Option τ} {C : ι → σ → Prop} {R : σ → τ → Prop}
    (takes : ∀ e s t, R s t → C e s → Option.Rel R (step e s) (step' e t)) {es : List ι} {s : σ}
    {t : τ} (hst : R s t) (h : Along step C es s) :
    Option.Rel R (run step es s) (run step' es t) := by
  induction es generalizing s t with
  | nil => exact .some hst
  | cons e es ih =>
    obtain ⟨hfirst, hlater⟩ := along_cons.mp h
    have hnext := takes e s t hst hfirst
    rw [run, run]
    cases hs : step e s with
    | none =>
      rw [hs] at hnext
      cases ht : step' e t with
      | none => exact .none
      | some u => rw [ht] at hnext; cases hnext
    | some u =>
      rw [hs] at hnext
      cases ht : step' e t with
      | none => rw [ht] at hnext; cases hnext
      | some u' =>
        rw [ht] at hnext
        cases hnext with
        | some hu => exact ih hu (hlater u hs)

theorem Always.of_prefix {P : σ → Prop} {es fs : List ι} {s : σ} (h : Always step P fs s)
    (hp : es <+: fs) : Always step P es s :=
  fun pre t hpre ht => h pre t (hpre.trans hp) ht

/-- When the invariant holds of the start and each step that meets the condition keeps it, it holds
of every state of a run whose steps all do. -/
theorem always_of_along {C : ι → σ → Prop} {P : σ → Prop} {s : σ} (start : P s)
    (keeps : ∀ e t u, P t → C e t → step e t = some u → P u) {es : List ι}
    (h : Along step C es s) : Always step P es s := by
  induction es using List.reverseRecOn with
  | nil =>
    intro pre t hpre ht
    rw [List.prefix_nil.mp hpre] at ht
    cases ht
    exact start
  | append_singleton es e ih =>
    obtain ⟨hall, hlast⟩ := along_concat.mp h
    have halways := ih hall
    intro pre t hpre ht
    rcases List.prefix_concat_iff.mp hpre with rfl | hpre
    · obtain ⟨u, hu, he⟩ := run_concat.mp ht
      exact keeps e u t (halways es u List.prefix_rfl hu) (hlast u hu) he
    · exact halways pre t hpre ht

/-- When each step that misses the condition also loses the property, the property holds of every
state of a run exactly when all its steps meet the condition. -/
theorem always_iff_along {C : ι → σ → Prop} {P Q : σ → Prop} {s : σ} (start : P s)
    (imp : ∀ t, P t → Q t) (keeps : ∀ e t u, P t → C e t → step e t = some u → P u)
    (loses : ∀ e t, P t → ¬ C e t → ∃ u, step e t = some u ∧ ¬ Q u) {es : List ι} :
    Always step Q es s ↔ Along step C es s := by
  constructor
  · intro hq
    induction es using List.reverseRecOn with
    | nil => exact along_nil C s
    | append_singleton es e ih =>
      have halong := ih (hq.of_prefix (List.prefix_append es [e]))
      refine along_concat.mpr ⟨halong, fun t ht => ?_⟩
      have hp : P t := always_of_along start keeps halong es t List.prefix_rfl ht
      by_contra hc
      obtain ⟨u, hu, hno⟩ := loses e t hp hc
      exact hno (hq (es ++ [e]) u List.prefix_rfl (run_concat.mpr ⟨t, ht, hu⟩))
  · intro h pre t hpre ht
    exact imp t (always_of_along start keeps h pre t hpre ht)

end Run
