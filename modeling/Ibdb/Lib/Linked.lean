import Mathlib.Data.List.Basic
import Mathlib.Data.List.Nodup

/-! Cells that point to one another, the last of them to nothing. -/

def Linked {α : Type*} (link : α → Option α → Prop) : α → List α → Prop
  | p, [] => link p none
  | p, q :: l => link p (some q) ∧ Linked link q l

namespace Linked
variable {α : Type*} {link link' : α → Option α → Prop} {p n t : α} {pre post l : List α}

theorem head (h : Linked link p l) : link p l.head? := by
  cases l with
  | nil => exact h
  | cons q l => exact h.1

theorem mono (h : Linked link p l) (hsame : ∀ x ∈ p :: l, ∀ q, link x q → link' x q) :
    Linked link' p l := by
  induction l generalizing p with
  | nil => exact hsame p (List.mem_singleton_self p) none h
  | cons q l ih =>
    obtain ⟨hlink, hrest⟩ := h
    refine ⟨hsame p List.mem_cons_self (some q) hlink, ih hrest fun x hx => ?_⟩
    exact hsame x (List.mem_cons_of_mem p hx)

/-- Past the cells of the first part the links go on from its last cell. -/
theorem drop (h : Linked link p (pre ++ post)) : Linked link (pre.getLastD p) post := by
  induction pre generalizing p with
  | nil => exact h
  | cons q pre ih =>
    rw [List.getLastD_cons]
    exact ih h.2

theorem getLastD_mem (p : α) (pre : List α) : pre.getLastD p ∈ p :: pre := by
  induction pre generalizing p with
  | nil => exact List.mem_singleton_self p
  | cons q pre ih =>
    rw [List.getLastD_cons]
    exact List.mem_cons_of_mem p (ih q)

/-- The first part stays linked when only its last cell changes. -/
theorem replace (h : Linked link p (pre ++ post)) (hnodup : (p :: pre).Nodup)
    (hsame : ∀ x ∈ p :: pre, x ≠ pre.getLastD p → ∀ q, link x q → link' x q)
    (hrest : Linked link' (pre.getLastD p) l) : Linked link' p (pre ++ l) := by
  induction pre generalizing p with
  | nil => exact hrest
  | cons q pre ih =>
    rw [List.getLastD_cons] at hsame hrest
    have hne : p ≠ pre.getLastD q := fun heq =>
      (List.nodup_cons.mp hnodup).1 (heq ▸ getLastD_mem q pre)
    refine ⟨hsame p List.mem_cons_self hne (some q) h.1, ?_⟩
    refine ih h.2 (List.nodup_cons.mp hnodup).2 (fun x hx => ?_) hrest
    exact hsame x (List.mem_cons_of_mem p hx)

/-- A new cell is linked in behind the first part. -/
theorem splice (h : Linked link p (pre ++ post)) (hnodup : (p :: (pre ++ post)).Nodup)
    (hsame : ∀ x ∈ p :: (pre ++ post), x ≠ pre.getLastD p → ∀ q, link x q → link' x q)
    (hlast : link' (pre.getLastD p) (some n)) (hnew : link' n post.head?) :
    Linked link' p (pre ++ n :: post) := by
  have hlt : (p :: pre).Nodup := hnodup.sublist (List.sublist_append_left (p :: pre) post)
  refine replace h hlt (fun x hx => hsame x (List.mem_append_left post hx)) ⟨hlast, ?_⟩
  have hrest := h.drop
  cases post with
  | nil => exact hnew
  | cons q post =>
    refine ⟨hnew, hrest.2.mono fun x hx => hsame x ?_ ?_⟩
    · exact List.mem_append_right (p :: pre) hx
    · intro heq
      have hsplit : ((p :: pre) ++ q :: post).Nodup := hnodup
      exact List.disjoint_of_nodup_append hsplit (getLastD_mem p pre) (heq ▸ hx)

/-- A cell is taken out from behind the first part. -/
theorem unsplice (h : Linked link p (pre ++ t :: post)) (hnodup : (p :: (pre ++ t :: post)).Nodup)
    (hsame : ∀ x ∈ p :: (pre ++ post), x ≠ pre.getLastD p → ∀ q, link x q → link' x q)
    (hlast : link' (pre.getLastD p) post.head?) : Linked link' p (pre ++ post) := by
  have hlt : (p :: pre).Nodup := hnodup.sublist (List.sublist_append_left (p :: pre) (t :: post))
  refine replace h hlt (fun x hx => hsame x (List.mem_append_left post hx)) ?_
  have hrest := h.drop.2
  cases post with
  | nil => exact hlast
  | cons q post =>
    refine ⟨hlast, hrest.2.mono fun x hx => hsame x ?_ ?_⟩
    · exact List.mem_append_right (p :: pre) hx
    · intro heq
      have hsplit : ((p :: pre) ++ t :: q :: post).Nodup := hnodup
      exact List.disjoint_of_nodup_append hsplit (getLastD_mem p pre)
        (heq ▸ List.mem_cons_of_mem t hx)

end Linked
