import Ibdb.Base.Utils

/-! Splitting strings that were joined by a separator. -/
namespace Ibdb.Base

theorem splitOnP_intercalate {p : UInt8 → Bool} {sep : UInt8} (hsep : p sep = true)
    {words : List Bytes} (hne : words ≠ []) (hwords : ∀ w ∈ words, ∀ b ∈ w, p b = false) :
    ([sep].intercalate words).splitOnP p = words := by
  induction words with
  | nil => exact absurd rfl hne
  | cons word rest ih =>
    have hword := hwords word List.mem_cons_self
    cases rest with
    | nil => rw [List.intercalate_singleton, List.splitOnP_eq_singleton hword]
    | cons next rest =>
      have hrest := ih (List.cons_ne_nil _ _) fun w hw => hwords w (List.mem_cons_of_mem _ hw)
      rw [List.intercalate_cons_cons, List.append_assoc, List.singleton_append,
        List.splitOnP_append_cons_of_forall_mem hword _ hsep, hrest]

theorem intercalate_eq_nil {sep : UInt8} {words : List Bytes}
    (h : [sep].intercalate words = []) : words = [] ∨ words = [[]] := by
  rcases words with _ | ⟨word, _ | ⟨next, rest⟩⟩
  · exact Or.inl rfl
  · rw [List.intercalate_singleton] at h
    exact Or.inr (by rw [h])
  · rw [List.intercalate_cons_cons] at h
    simp at h

theorem mem_intercalate {sep b : UInt8} {words : List Bytes} (h : b ∈ [sep].intercalate words) :
    b = sep ∨ ∃ w ∈ words, b ∈ w := by
  induction words with
  | nil => cases h
  | cons word rest ih =>
    rcases rest with _ | ⟨next, rest⟩
    · rw [List.intercalate_singleton] at h
      exact Or.inr ⟨word, List.mem_cons_self, h⟩
    · rw [List.intercalate_cons_cons, List.append_assoc, List.singleton_append, List.mem_append,
        List.mem_cons] at h
      rcases h with h | h | h
      · exact Or.inr ⟨word, List.mem_cons_self, h⟩
      · exact Or.inl h
      · rcases ih h with heq | ⟨w, hw, hb⟩
        · exact Or.inl heq
        · exact Or.inr ⟨w, List.mem_cons_of_mem _ hw, hb⟩

/-- What is joined by a separator is split by it. -/
theorem splitString_intercalate {env : Env} (hsplit : env.split = boostSplit) {sep : UInt8}
    {delim : Bytes} (hdelim : delim = [sep]) {words : List Bytes}
    (hne : [sep].intercalate words ≠ []) (hwords : ∀ w ∈ words, sep ∉ w) :
    splitString env ([sep].intercalate words) delim = words := by
  subst hdelim
  have hempty : words ≠ [] := by
    intro hnil
    rw [hnil] at hne
    exact hne rfl
  rw [splitString, if_neg (by simpa using hne), hsplit, boostSplit]
  refine splitOnP_intercalate (by simp) hempty ?_
  intro w hw b hb
  have hb' : b ≠ sep := fun heq => hwords w hw (heq ▸ hb)
  simpa using hb'

end Ibdb.Base
