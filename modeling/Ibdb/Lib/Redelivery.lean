import Mathlib.Data.List.Basic

/-! Messages over a channel that may deliver one again after its first delivery. -/

variable {α : Type*}

/-- What is received of what is sent, when those seen before may come again. -/
inductive Redelivered : List α → List α → List α → Prop
  | done (seen : List α) : Redelivered seen [] []
  | first {seen sent received : List α} (m : α) (h : Redelivered (m :: seen) sent received) :
      Redelivered seen (m :: sent) (m :: received)
  | again {seen sent received : List α} {m : α} (hm : m ∈ seen)
      (h : Redelivered seen sent received) : Redelivered seen sent (m :: received)

namespace Redelivered
variable {seen sent received : List α}

/-- Nothing is lost, and the order of the first deliveries is kept. -/
theorem sublist (h : Redelivered seen sent received) : sent.Sublist received := by
  induction h with
  | done => exact .refl []
  | first m _ ih => exact ih.cons_cons m
  | again _ _ ih => exact ih.cons _

/-- The first message with a property is the same. -/
theorem find?_eq (h : Redelivered seen sent received) {p : α → Bool}
    (hseen : ∀ m ∈ seen, p m = false) : received.find? p = sent.find? p := by
  induction h with
  | done => rfl
  | first m _ ih =>
    cases hm : p m with
    | true => rw [List.find?_cons_of_pos hm, List.find?_cons_of_pos hm]
    | false =>
      rw [List.find?_cons_of_neg (by simp [hm]), List.find?_cons_of_neg (by simp [hm])]
      apply ih
      intro m' hm'
      rcases List.mem_cons.mp hm' with rfl | hm'
      · exact hm
      · exact hseen m' hm'
  | again hm _ ih =>
    rw [List.find?_cons_of_neg (by simp [hseen _ hm])]
    exact ih hseen

end Redelivered
