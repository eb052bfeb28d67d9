import Mathlib

/-! Computations over a state that outlives an exception: a throw ends the
computation and keeps every update made before it. -/

/-- A run from a state gives a value or an exception, and the state reached. -/
def Exec (ε σ α : Type) : Type := σ → Except ε α × σ

namespace Exec
variable {ε ζ σ τ α β γ : Type}

def pure (a : α) : Exec ε σ α := fun s => (.ok a, s)

def bind (x : Exec ε σ α) (f : α → Exec ε σ β) : Exec ε σ β := fun s =>
  match x s with
  | (.ok a, t) => f a t
  | (.error e, t) => (.error e, t)

instance : Monad (Exec ε σ) where
  pure := pure
  bind := bind

def get : Exec ε σ σ := fun s => (.ok s, s)

def modify (f : σ → σ) : Exec ε σ Unit := fun s => (.ok (), f s)

def throw (e : ε) : Exec ε σ α := fun s => (.error e, s)

def lift (x : Except ε α) : Exec ε σ α := fun s => (x, s)

/-- Run on a part of the state, given how to read the part and how to put it back. -/
def zoom (view : σ → τ) (update : τ → σ → σ) (x : Exec ε τ α) : Exec ε σ α := fun s =>
  ((x (view s)).1, update (x (view s)).2 s)

/-- The same run, with its exceptions seen as those of another type. -/
def mapError (f : ε → ζ) (x : Exec ε σ α) : Exec ζ σ α := fun s => ((x s).1.mapError f, (x s).2)

@[simp] theorem pure_apply (a : α) (s : σ) : (Pure.pure a : Exec ε σ α) s = (.ok a, s) := rfl

theorem bind_apply (x : Exec ε σ α) (f : α → Exec ε σ β) (s : σ) :
    (x >>= f) s = match x s with
      | (.ok a, t) => f a t
      | (.error e, t) => (.error e, t) := rfl

@[simp] theorem get_apply (s : σ) : (get : Exec ε σ σ) s = (.ok s, s) := rfl

@[simp] theorem modify_apply (f : σ → σ) (s : σ) :
    (modify f : Exec ε σ Unit) s = (.ok (), f s) := rfl

@[simp] theorem throw_apply (e : ε) (s : σ) : (throw e : Exec ε σ α) s = (.error e, s) := rfl

@[simp] theorem lift_apply (x : Except ε α) (s : σ) : (lift x : Exec ε σ α) s = (x, s) := rfl

@[simp] theorem zoom_apply (view : σ → τ) (update : τ → σ → σ) (x : Exec ε τ α) (s : σ) :
    zoom view update x s = ((x (view s)).1, update (x (view s)).2 s) := rfl

@[simp] theorem mapError_apply (f : ε → ζ) (x : Exec ε σ α) (s : σ) :
    mapError f x s = ((x s).1.mapError f, (x s).2) := rfl

theorem bind_ok {x : Exec ε σ α} {f : α → Exec ε σ β} {s t : σ} {a : α}
    (h : x s = (.ok a, t)) : (x >>= f) s = f a t := by
  rw [bind_apply, h]

theorem bind_error {x : Exec ε σ α} {f : α → Exec ε σ β} {s t : σ} {e : ε}
    (h : x s = (.error e, t)) : (x >>= f) s = (.error e, t) := by
  rw [bind_apply, h]

/-- A sequence that returns is a first part that returns and a second part run from there. -/
theorem bind_eq_ok {x : Exec ε σ α} {f : α → Exec ε σ β} {s u : σ} {b : β} :
    (x >>= f) s = (.ok b, u) ↔ ∃ a t, x s = (.ok a, t) ∧ f a t = (.ok b, u) := by
  rw [bind_apply]
  rcases x s with ⟨_ | a, t⟩ <;> simp

/-! Zooming in on a part of the state that can be read back after it is put. -/

section Zoom
variable {view : σ → τ} {update : τ → σ → σ}

theorem zoom_pure (h : ∀ s, update (view s) s = s) (a : α) :
    zoom view update (Pure.pure a : Exec ε τ α) = Pure.pure a :=
  funext fun s => Prod.ext rfl (h s)

theorem zoom_bind (hview : ∀ t s, view (update t s) = t)
    (hupdate : ∀ t u s, update t (update u s) = update t s) (x : Exec ε τ α)
    (f : α → Exec ε τ β) :
    zoom view update (x >>= f) = zoom view update x >>= fun a => zoom view update (f a) := by
  funext s
  rw [zoom_apply, bind_apply, bind_apply, zoom_apply]
  rcases x (view s) with ⟨_ | a, t⟩
  · rfl
  · simp only [zoom_apply, hview, hupdate]

end Zoom

/-! Frames: a computation that leaves a view of the state as it found it. -/

def Keeps (view : σ → γ) (x : Exec ε σ α) : Prop := ∀ s, view (x s).2 = view s

theorem Keeps.pure (view : σ → γ) (a : α) : Keeps view (Pure.pure a : Exec ε σ α) := fun _ => rfl

theorem Keeps.get (view : σ → γ) : Keeps view (get : Exec ε σ σ) := fun _ => rfl

theorem Keeps.throw (view : σ → γ) (e : ε) : Keeps view (throw e : Exec ε σ α) := fun _ => rfl

theorem Keeps.lift (view : σ → γ) (x : Except ε α) : Keeps view (lift x : Exec ε σ α) :=
  fun _ => rfl

theorem Keeps.modify {view : σ → γ} {f : σ → σ} (h : ∀ s, view (f s) = view s) :
    Keeps view (modify f : Exec ε σ Unit) := h

theorem Keeps.bind {view : σ → γ} {x : Exec ε σ α} {f : α → Exec ε σ β}
    (hx : Keeps view x) (hf : ∀ a, Keeps view (f a)) : Keeps view (x >>= f) := by
  intro s
  have h := hx s
  rw [bind_apply]
  rcases hxs : x s with ⟨e | a, t⟩ <;> rw [hxs] at h
  · exact h
  · exact (hf a t).trans h

theorem Keeps.zoom {view : σ → τ} {update : τ → σ → σ} {seen : σ → γ} (x : Exec ε τ α)
    (h : ∀ t s, seen (update t s) = seen s) : Keeps seen (zoom view update x) :=
  fun s => h _ s

/-! Two runs from related states. -/

/-- From related states the results are the same and the states reached are related. -/
def Respects (R : σ → σ → Prop) (x : Exec ε σ α) : Prop :=
  ∀ s t, R s t → (x t).1 = (x s).1 ∧ R (x s).2 (x t).2

section Respects
variable {R : σ → σ → Prop}

theorem Respects.pure (R : σ → σ → Prop) (a : α) : Respects R (Pure.pure a : Exec ε σ α) :=
  fun _ _ h => ⟨rfl, h⟩

theorem Respects.throw (R : σ → σ → Prop) (e : ε) : Respects R (throw e : Exec ε σ α) :=
  fun _ _ h => ⟨rfl, h⟩

theorem Respects.lift (R : σ → σ → Prop) (x : Except ε α) : Respects R (lift x : Exec ε σ α) :=
  fun _ _ h => ⟨rfl, h⟩

theorem Respects.modify {f : σ → σ} (h : ∀ s t, R s t → R (f s) (f t)) :
    Respects R (modify f : Exec ε σ Unit) := fun s t hst => ⟨rfl, h s t hst⟩

/-- From one state there is one run; the relation may fix a view of it that is kept. -/
theorem Respects.of_keeps {view : σ → γ} {x : Exec ε σ α} (h : Keeps view x) (P : γ → Prop) :
    Respects (fun s t => t = s ∧ P (view s)) x := by
  rintro s t ⟨rfl, hp⟩
  refine ⟨rfl, rfl, ?_⟩
  rwa [h t]

/-- What follows a step goes the same from states that the step has left related. -/
theorem Respects.bind_at {x : Exec ε σ α} {k : α → Exec ε σ β} {s t : σ}
    (hx : (x t).1 = (x s).1 ∧ R (x s).2 (x t).2) (hk : ∀ a, Respects R (k a)) :
    ((x >>= k) t).1 = ((x >>= k) s).1 ∧ R ((x >>= k) s).2 ((x >>= k) t).2 := by
  obtain ⟨hresult, hnext⟩ := hx
  rcases hxs : x s with ⟨e | a, s'⟩ <;> rcases hxt : x t with ⟨e' | a', t'⟩ <;>
    rw [hxs, hxt] at hresult hnext <;> cases hresult
  · rw [bind_error hxs, bind_error hxt]
    exact ⟨rfl, hnext⟩
  · rw [bind_ok hxs, bind_ok hxt]
    exact hk a s' t' hnext

theorem Respects.bind {x : Exec ε σ α} {k : α → Exec ε σ β} (hx : Respects R x)
    (hk : ∀ a, Respects R (k a)) : Respects R (x >>= k) :=
  fun s t h => bind_at (hx s t h) hk

/-- A look at the state, where what follows depends on no more of it than the relation fixes. -/
theorem Respects.get_bind {k : σ → Exec ε σ α} (hsame : ∀ s t, R s t → k t = k s)
    (hk : ∀ s t, R s t → Respects R (k s)) : Respects R (Exec.get >>= k) := by
  intro s t h
  rw [bind_ok (get_apply s), bind_ok (get_apply t), hsame s t h]
  exact hk s t h s t h

theorem Respects.zoom {Q : τ → τ → Prop} {view : σ → τ} {update : τ → σ → σ} {x : Exec ε τ α}
    (hx : Respects Q x) (hview : ∀ s t, R s t → Q (view s) (view t))
    (hupdate : ∀ a b s t, R s t → Q a b → R (update a s) (update b t)) :
    Respects R (zoom view update x) := by
  intro s t h
  obtain ⟨hresult, hnext⟩ := hx (view s) (view t) (hview s t h)
  exact ⟨hresult, hupdate _ _ s t h hnext⟩

end Respects

/-! An update of the state that a computation neither sees nor undoes. -/

def Commutes (f : σ → σ) (x : Exec ε σ α) : Prop := ∀ s, x (f s) = ((x s).1, f (x s).2)

theorem Commutes.pure (f : σ → σ) (a : α) : Commutes f (Pure.pure a : Exec ε σ α) := fun _ => rfl

theorem Commutes.lift (f : σ → σ) (x : Except ε α) : Commutes f (lift x : Exec ε σ α) :=
  fun _ => rfl

theorem Commutes.throw (f : σ → σ) (e : ε) : Commutes f (throw e : Exec ε σ α) := fun _ => rfl

theorem Commutes.modify {f g : σ → σ} (h : ∀ s, g (f s) = f (g s)) :
    Commutes f (modify g : Exec ε σ Unit) := fun s => Prod.ext rfl (h s)

/-- What follows a look at the state must not tell the two states apart. -/
theorem Commutes.get_bind {f : σ → σ} {k : σ → Exec ε σ α} (hsame : ∀ s, k (f s) = k s)
    (hk : ∀ s, Commutes f (k s)) : Commutes f (Exec.get >>= k) := by
  intro s
  rw [bind_ok (get_apply (f s)), bind_ok (get_apply s), hsame]
  exact hk s s

theorem Commutes.bind {f : σ → σ} {x : Exec ε σ α} {k : α → Exec ε σ β} (hx : Commutes f x)
    (hk : ∀ a, Commutes f (k a)) : Commutes f (x >>= k) := by
  intro s
  have h := hx s
  rcases hxs : x s with ⟨e | a, t⟩ <;> rw [hxs] at h
  · rw [bind_error h, bind_error hxs]
  · rw [bind_ok h, bind_ok hxs]
    exact hk a t

theorem Commutes.zoom {f : σ → σ} {view : σ → τ} {update : τ → σ → σ} (x : Exec ε τ α)
    (hview : ∀ s, view (f s) = view s) (hupdate : ∀ t s, update t (f s) = f (update t s)) :
    Commutes f (zoom view update x) := by
  intro s
  rw [zoom_apply, zoom_apply, hview, hupdate]

end Exec

namespace Except
variable {ε σ α β : Type}

theorem ok_bind (a : α) (f : α → Except ε β) : (Except.ok a >>= f) = f a := rfl

theorem bind_eq_ok {x : Except ε α} {f : α → Except ε β} {b : β} :
    (x >>= f) = .ok b ↔ ∃ a, x = .ok a ∧ f a = .ok b := by
  cases x with
  | error e => exact ⟨nofun, nofun⟩
  | ok a => simp [ok_bind]

/-- A counted loop returns when the invariant lets every round return. -/
theorem foldlM_range {f : σ → ℕ → Except ε σ} {P : ℕ → σ → Prop} {s : σ} (start : P 0 s) (n : ℕ)
    (round : ∀ i t, i < n → P i t → ∃ u, f t i = .ok u ∧ P (i + 1) u) :
    ∃ t, (List.range n).foldlM f s = .ok t ∧ P n t := by
  induction n with
  | zero => exact ⟨s, rfl, start⟩
  | succ n ih =>
    obtain ⟨t, ht, hp⟩ := ih fun i t hi => round i t (hi.trans n.lt_succ_self)
    obtain ⟨u, hu, hq⟩ := round n t n.lt_succ_self hp
    refine ⟨u, ?_, hq⟩
    rw [List.range_succ, List.foldlM_append, ht, ok_bind, List.foldlM_cons, hu]
    rfl

end Except
