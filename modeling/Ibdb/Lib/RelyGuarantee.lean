import Ibdb.Lib.Clients
import Ibdb.Lib.Exec

/-! Programs that call a service, and what they ensure while others call it too. -/

/-- A program that calls a service with requests `ρ`, and goes on by what it answers. -/
inductive Calls (ρ α β : Type)
  | done (result : β)
  | call (request : ρ) (next : α → Calls ρ α β)

namespace Calls
variable {ρ α β γ σ ε ι : Type}

def bind : Calls ρ α β → (β → Calls ρ α γ) → Calls ρ α γ
  | done result, f => f result
  | call request next, f => call request fun answer => (next answer).bind f

def result? : Calls ρ α β → Option β
  | done result => some result
  | call _ _ => none

theorem result?_eq_some {program : Calls ρ α β} {result : β} :
    program.result? = some result ↔ program = done result := by
  cases program with
  | done result' => simp [result?]
  | call request next => simp [result?]

/-- The program run by itself, where a call is a computation. -/
def exec (make : ρ → Exec ε σ α) : Calls ρ α β → Exec ε σ β
  | done result => Pure.pure result
  | call request next => make request >>= fun answer => (next answer).exec make

theorem exec_bind (make : ρ → Exec ε σ α) (program : Calls ρ α β) (f : β → Calls ρ α γ) :
    (program.bind f).exec make = program.exec make >>= fun result => (f result).exec make := by
  induction program with
  | done result => rfl
  | call request next ih =>
    funext s
    rw [bind, exec, exec, Exec.bind_apply, Exec.bind_apply, Exec.bind_apply]
    rcases make request s with ⟨_ | answer, t⟩
    · rfl
    · simp only [ih, Exec.bind_apply]

/-- The next call of a client, which the service answers at once. -/
def next (serve : ι → ρ → σ → α × σ) (i : ι) (own : Calls ρ α β) (shared : σ) :
    Option (Calls ρ α β × σ) :=
  match own with
  | done _ => none
  | call request next =>
    let answered := serve i request shared
    some (next answered.1, answered.2)

/-- While the others do no more than `rely` says, each call does what `guarantee` says, and the
result is as `post` says, then and later. -/
def Ensures (serve : ρ → σ → α × σ) (rely guarantee : σ → σ → Prop) (post : β → σ → Prop) :
    Calls ρ α β → σ → Prop
  | done result, s => ∀ t, rely s t → post result t
  | call request next, s => ∀ t, rely s t →
    guarantee t (serve request t).2 ∧
      Ensures serve rely guarantee post (next (serve request t).1) (serve request t).2

namespace Ensures
variable {serve : ρ → σ → α × σ} {rely guarantee : σ → σ → Prop} {post : β → σ → Prop}
  {program : Calls ρ α β} {s t : σ}

theorem of_rely (trans : ∀ s t u, rely s t → rely t u → rely s u)
    (h : program.Ensures serve rely guarantee post s) (hst : rely s t) :
    program.Ensures serve rely guarantee post t := by
  cases program with
  | done result => exact fun u htu => h u (trans s t u hst htu)
  | call request next => exact fun u htu => h u (trans s t u hst htu)

theorem mono {guarantee' : σ → σ → Prop} {post' : β → σ → Prop}
    (hguarantee : ∀ s t, guarantee s t → guarantee' s t)
    (hpost : ∀ result s, post result s → post' result s)
    (h : program.Ensures serve rely guarantee post s) :
    program.Ensures serve rely guarantee' post' s := by
  induction program generalizing s with
  | done result => exact fun t hst => hpost result t (h t hst)
  | call request next ih =>
    intro t hst
    obtain ⟨hcall, hnext⟩ := h t hst
    exact ⟨hguarantee _ _ hcall, ih _ hnext⟩

/-- The frame rule: what neither the others nor the program undo still holds in the end. -/
theorem frame {kept : σ → Prop} (stable : ∀ s t, rely s t ∨ guarantee s t → kept s → kept t)
    (h : program.Ensures serve rely guarantee post s) (hkept : kept s) :
    program.Ensures serve rely guarantee (fun result t => post result t ∧ kept t) s := by
  induction program generalizing s with
  | done result => exact fun t hst => ⟨h t hst, stable s t (Or.inl hst) hkept⟩
  | call request next ih =>
    intro t hst
    obtain ⟨hcall, hnext⟩ := h t hst
    exact ⟨hcall, ih _ hnext (stable _ _ (Or.inr hcall) (stable s t (Or.inl hst) hkept))⟩

/-- The sequence rule. -/
theorem bind (refl : ∀ s, rely s s) {post' : γ → σ → Prop} {f : β → Calls ρ α γ}
    (h : program.Ensures serve rely guarantee post s)
    (hf : ∀ result t, post result t → (f result).Ensures serve rely guarantee post' t) :
    (program.bind f).Ensures serve rely guarantee post' s := by
  induction program generalizing s with
  | done result => exact hf result s (h s (refl s))
  | call request next ih =>
    intro t hst
    obtain ⟨hguarantee, hnext⟩ := h t hst
    exact ⟨hguarantee, ih _ hnext⟩

theorem map {post' : γ → σ → Prop} {f : β → γ}
    (hf : ∀ result t, post result t → post' (f result) t)
    (h : program.Ensures serve rely guarantee post s) :
    (program.bind fun result => .done (f result)).Ensures serve rely guarantee post' s := by
  induction program generalizing s with
  | done result => exact fun t hst => hf result t (h t hst)
  | call request next ih =>
    intro t hst
    obtain ⟨hcall, hnext⟩ := h t hst
    exact ⟨hcall, ih _ hnext⟩

end Ensures

section Parallel
variable [DecidableEq ι] {serve : ι → ρ → σ → α × σ} {rely guarantee : ι → σ → σ → Prop}
  {post : ι → β → σ → Prop} {es : List ι} {s t : Clients ι (Calls ρ α β) σ}

/-- The parallel rule: where each client relies on no more than the others guarantee, each of
them ensures what it ensures, in whatever order their calls are answered. -/
theorem ensures_of_run (refl : ∀ i s, rely i s s)
    (trans : ∀ i s t u, rely i s t → rely i t u → rely i s u)
    (compatible : ∀ i j s t, i ≠ j → guarantee i s t → rely j s t)
    (start : ∀ i, (s.own i).Ensures (serve i) (rely i) (guarantee i) (post i) s.shared)
    (hrun : run (Clients.step (next serve)) es s = some t) (i : ι) :
    (t.own i).Ensures (serve i) (rely i) (guarantee i) (post i) t.shared := by
  have hall : ∀ i, (t.own i).Ensures (serve i) (rely i) (guarantee i) (post i) t.shared := by
    refine Run.induct (P := fun _ (t : Clients ι (Calls ρ α β) σ) =>
      ∀ i, (t.own i).Ensures (serve i) (rely i) (guarantee i) (post i) t.shared) start ?_ hrun
    intro es e u v hu hstep i
    obtain ⟨own, shared, hnext, rfl⟩ := Clients.step_eq_some.mp hstep
    have hown := hu e
    rcases hcalls : u.own e with result | ⟨request, later⟩
    · rw [hcalls] at hnext
      cases hnext
    · rw [hcalls] at hnext hown
      cases hnext
      obtain ⟨hguarantee, hlater⟩ := hown u.shared (refl e u.shared)
      by_cases hi : i = e
      · subst hi
        simpa only [Function.update_self] using hlater
      · simp only [Function.update_of_ne hi]
        exact (hu i).of_rely (trans i) (compatible e i _ _ (Ne.symm hi) hguarantee)
  exact hall i

/-- What every call keeps, the run keeps. -/
theorem kept_of_run {total : σ → σ → Prop} (refl : ∀ s, total s s)
    (trans : ∀ s t u, total s t → total t u → total s u)
    (relies : ∀ i s, rely i s s) (relies_trans : ∀ i s t u, rely i s t → rely i t u → rely i s u)
    (compatible : ∀ i j s t, i ≠ j → guarantee i s t → rely j s t)
    (keeps : ∀ i s t, guarantee i s t → total s t)
    (start : ∀ i, (s.own i).Ensures (serve i) (rely i) (guarantee i) (post i) s.shared)
    (hrun : run (Clients.step (next serve)) es s = some t) : total s.shared t.shared := by
  have hmain : run (Clients.step (next serve)) es s = some t ∧ total s.shared t.shared := by
    refine Run.induct (P := fun es (t : Clients ι (Calls ρ α β) σ) =>
      run (Clients.step (next serve)) es s = some t ∧ total s.shared t.shared)
      ⟨rfl, refl s.shared⟩ ?_ hrun
    intro es e u v hw hstep
    obtain ⟨hu, htotal⟩ := hw
    refine ⟨Run.run_concat.mpr ⟨u, hu, hstep⟩, ?_⟩
    have hown := ensures_of_run relies relies_trans compatible start hu e
    obtain ⟨own, shared, hnext, rfl⟩ := Clients.step_eq_some.mp hstep
    rcases hcalls : u.own e with result | ⟨request, later⟩
    · rw [hcalls] at hnext
      cases hnext
    · rw [hcalls] at hnext hown
      cases hnext
      exact trans _ _ _ htotal (keeps e _ _ (hown u.shared (relies e u.shared)).1)
  exact hmain.2

/-- One client among others that are only known by what they do along the run. -/
theorem ensures_among {i : ι} {rely guarantee : σ → σ → Prop} {post : β → σ → Prop}
    (refl : ∀ s, rely s s) (trans : ∀ s t u, rely s t → rely t u → rely s u)
    (others : Run.Along (Clients.step (next serve)) (fun e u => e ≠ i →
      ∀ v, Clients.step (next serve) e u = some v → rely u.shared v.shared) es s)
    (start : (s.own i).Ensures (serve i) rely guarantee post s.shared)
    (hrun : run (Clients.step (next serve)) es s = some t) :
    (t.own i).Ensures (serve i) rely guarantee post t.shared := by
  induction es generalizing s with
  | nil =>
    cases hrun
    exact start
  | cons e es ih =>
    obtain ⟨u, hu, hrun⟩ := Option.bind_eq_some_iff.mp hrun
    obtain ⟨hfirst, hlater⟩ := Run.along_cons.mp others
    refine ih (hlater u hu) ?_ hrun
    by_cases he : e = i
    · subst he
      obtain ⟨own, shared, hnext, rfl⟩ := Clients.step_eq_some.mp hu
      rcases hcalls : s.own e with result | ⟨request, later⟩
      · rw [hcalls] at hnext
        cases hnext
      · rw [hcalls] at hnext start
        cases hnext
        simpa only [Function.update_self] using (start s.shared (refl s.shared)).2
    · rw [Clients.own_of_ne hu (Ne.symm he)]
      exact start.of_rely trans (hfirst he u hu)

end Parallel

section MakeAll
variable {κ : Type}

/-- Make every prefix of a path, the short ones first, until one cannot be made. -/
def makeAll (request : List κ → ρ) (good : α → Bool) (path : List κ) : List κ → Calls ρ α Bool
  | [] => done true
  | name :: names => call (request (path ++ [name])) fun answer =>
    if good answer then makeAll request good (path ++ [name]) names else done false

variable {serve : ρ → σ → α × σ} {rely guarantee : σ → σ → Prop} {base : σ → Prop}
  {there : List κ → σ → Prop} {request : List κ → ρ} {good : α → Bool} {s : σ}

/-- All are there in the end, if what is there stays and a path can be made when the path before
it is there. -/
theorem ensures_makeAll {whole : List κ}
    (stable : ∀ s t, rely s t ∨ guarantee s t → base s → base t)
    (stays : ∀ path s t, rely s t ∨ guarantee s t → there path s → there path t)
    (makes : ∀ path name s, path ++ [name] <+: whole → base s → there path s →
      good (serve (request (path ++ [name])) s).1 = true ∧
        there (path ++ [name]) (serve (request (path ++ [name])) s).2 ∧
        guarantee s (serve (request (path ++ [name])) s).2)
    {path names : List κ} (hwhole : path ++ names = whole) (hbase : base s)
    (hthere : ∀ p, p <+: path → there p s) :
    (makeAll request good path names).Ensures serve rely guarantee
      (fun made t => made = true ∧ base t ∧ ∀ p, p <+: whole → there p t) s := by
  induction names generalizing path s with
  | nil =>
    intro t hst
    rw [List.append_nil] at hwhole
    subst hwhole
    exact ⟨rfl, stable s t (Or.inl hst) hbase,
      fun p hp => stays p s t (Or.inl hst) (hthere p hp)⟩
  | cons name names ih =>
    intro t hst
    have hnext : path ++ [name] ++ names = whole := by rw [← hwhole]; simp
    have hbase' := stable s t (Or.inl hst) hbase
    have hlast := stays path s t (Or.inl hst) (hthere path List.prefix_rfl)
    obtain ⟨hgood, hmade, hguarantee⟩ := makes path name t ⟨names, hnext⟩ hbase' hlast
    refine ⟨hguarantee, ?_⟩
    simp only [hgood, if_true]
    refine ih hnext (stable _ _ (Or.inr hguarantee) hbase') ?_
    intro p hp
    rcases List.prefix_concat_iff.mp hp with rfl | hp
    · exact hmade
    · exact stays p _ _ (Or.inr hguarantee) (stays p s t (Or.inl hst) (hthere p hp))

end MakeAll
end Calls
