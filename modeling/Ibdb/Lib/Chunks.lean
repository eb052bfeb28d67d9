import Mathlib.Data.List.Basic
import Mathlib.Data.List.TakeDrop

/-! Positions of the chunks of a concatenation. -/
namespace Chunks
variable {α : Type*}

/-- Where chunk `k` starts in the concatenation; past the last chunk, its length. -/
def start (cs : List (List α)) (k : ℕ) : ℕ := (cs.take k).flatten.length

@[simp] theorem start_zero (cs : List (List α)) : start cs 0 = 0 := by simp [start]

theorem start_of_length_le {cs : List (List α)} {k : ℕ} (h : cs.length ≤ k) :
    start cs k = cs.flatten.length := by
  rw [start, List.take_of_length_le h]

theorem start_succ {cs : List (List α)} {k : ℕ} (h : k < cs.length) :
    start cs (k + 1) = start cs k + cs[k].length := by
  rw [start, List.take_succ_eq_append_getElem h, List.flatten_append, List.length_append]
  simp [start]

theorem start_append {cs ds : List (List α)} {k : ℕ} (h : k ≤ cs.length) :
    start (cs ++ ds) k = start cs k := by
  rw [start, List.take_append_of_le_length h, start]

theorem start_add (cs : List (List α)) (j k : ℕ) :
    start cs (j + k) = start cs j + start (cs.drop j) k := by
  rw [start, List.take_add, List.flatten_append, List.length_append, start, start]

theorem start_mono (cs : List (List α)) {j k : ℕ} (h : j ≤ k) : start cs j ≤ start cs k := by
  obtain ⟨d, rfl⟩ := Nat.exists_eq_add_of_le h
  rw [start_add]
  exact Nat.le_add_right _ _

theorem start_le_length (cs : List (List α)) (k : ℕ) : start cs k ≤ cs.flatten.length :=
  Nat.le_trans (start_mono cs (Nat.le_max_left k cs.length))
    (Nat.le_of_eq (start_of_length_le (Nat.le_max_right k cs.length)))

/-- From the start of chunk `k` on, the concatenation is that of the chunks from `k` on. -/
theorem drop_start (cs : List (List α)) (k : ℕ) :
    cs.flatten.drop (start cs k) = (cs.drop k).flatten := by
  have hs : cs.flatten = (cs.take k).flatten ++ (cs.drop k).flatten := by
    rw [← List.flatten_append, List.take_append_drop]
  rw [hs, start, List.drop_left]

theorem drop_start_add {cs : List (List α)} {k : ℕ} (h : k < cs.length) {a : ℕ}
    (ha : a ≤ cs[k].length) :
    cs.flatten.drop (start cs k + a) = cs[k].drop a ++ (cs.drop (k + 1)).flatten := by
  rw [← List.drop_drop, drop_start, List.drop_eq_getElem_cons h, List.flatten_cons,
    List.drop_append_of_le_length ha]

end Chunks
