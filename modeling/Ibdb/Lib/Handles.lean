import Mathlib

/-! Handles of a library: obtained from it, passed to its calls, and closed. -/

inductive HandleEvent (η : Type*)
  | obtained (h : η)
  | called (h : η)
  | closed (h : η)

namespace Handles
variable {η : Type*}

def obtainedBy : HandleEvent η → Option η
  | .obtained h => some h
  | .called _ | .closed _ => none

def closedBy : HandleEvent η → Option η
  | .closed h => some h
  | .obtained _ | .called _ => none

/-- The handle that a call, or the call that closes, is made on. -/
def calledOn : HandleEvent η → Option η
  | .obtained _ => none
  | .called h | .closed h => some h

def obtained (es : List (HandleEvent η)) : List η := es.filterMap obtainedBy

def closed (es : List (HandleEvent η)) : List η := es.filterMap closedBy

/-- The events so far, and the one handle that is held now. -/
structure Disciplined (held : Option η) (es : List (HandleEvent η)) : Prop where
  closedOnce : (closed es).Nodup
  kept : ∀ h ∈ obtained es, held = some h ∨ h ∈ closed es
  callsOpen : ∀ pre e post h, es = pre ++ e :: post → calledOn e = some h → h ∉ closed pre

/-- The invariant: a flag says whether the handle held is open. -/
structure Holds (held : Option η) (isOpen : Bool) (es : List (HandleEvent η)) : Prop
    extends Disciplined held es where
  closedObtained : ∀ h ∈ closed es, h ∈ obtained es
  heldObtained : ∀ h, held = some h → h ∈ obtained es
  heldOpen : ∀ h, held = some h → (h ∈ closed es ↔ isOpen = false)

section Handles
variable {held : Option η} {isOpen : Bool} {es : List (HandleEvent η)} {h : η}

theorem obtained_concat (es : List (HandleEvent η)) (e : HandleEvent η) :
    obtained (es ++ [e]) = obtained es ++ (obtainedBy e).toList := by
  rw [obtained, List.filterMap_append]
  cases e <;> rfl

theorem closed_concat (es : List (HandleEvent η)) (e : HandleEvent η) :
    closed (es ++ [e]) = closed es ++ (closedBy e).toList := by
  rw [closed, List.filterMap_append]
  cases e <;> rfl

/-- The calls so far and the next one are on open handles. -/
theorem callsOpen_concat {e : HandleEvent η}
    (hcalls : ∀ pre e post h, es = pre ++ e :: post → calledOn e = some h → h ∉ closed pre)
    (hlast : ∀ h, calledOn e = some h → h ∉ closed es) :
    ∀ pre e' post h, es ++ [e] = pre ++ e' :: post → calledOn e' = some h → h ∉ closed pre := by
  intro pre e' post h heq hon
  rcases List.eq_nil_or_concat post with rfl | ⟨rest, last, rfl⟩
  · obtain ⟨rfl, he⟩ := List.append_inj' heq rfl
    rw [List.singleton_inj.mp he] at hlast
    exact hlast h hon
  · have heq' : es ++ [e] = (pre ++ e' :: rest) ++ [last] := by simpa using heq
    exact hcalls pre e' rest h (List.append_inj' heq' rfl).1 hon

theorem Holds.nil (isOpen : Bool) : Holds (none : Option η) isOpen [] := by
  refine ⟨⟨List.nodup_nil, by simp [obtained], ?_⟩, by simp [closed], by simp, by simp⟩
  intro pre e post h heq
  simp at heq

theorem Holds.not_closed (hs : Holds (some h) true es) : h ∉ closed es := by
  intro hclosed
  exact Bool.noConfusion ((hs.heldOpen h rfl).mp hclosed)

theorem Holds.called (hs : Holds (some h) true es) : Holds (some h) true (es ++ [.called h]) := by
  have hobtained : obtained (es ++ [.called h]) = obtained es := by
    simp [obtained_concat, obtainedBy]
  have hclosed : closed (es ++ [.called h]) = closed es := by simp [closed_concat, closedBy]
  have hopen := hs.not_closed
  refine ⟨⟨?_, ?_, callsOpen_concat hs.callsOpen ?_⟩, ?_, ?_, ?_⟩
  · rw [hclosed]
    exact hs.closedOnce
  · rw [hobtained, hclosed]
    exact hs.kept
  · intro h' hon
    cases hon
    exact hopen
  · rw [hobtained, hclosed]
    exact hs.closedObtained
  · rw [hobtained]
    exact hs.heldObtained
  · rw [hclosed]
    exact hs.heldOpen

theorem Holds.closed (hs : Holds (some h) true es) : Holds (some h) false (es ++ [.closed h]) := by
  have hobtained : obtained (es ++ [.closed h]) = obtained es := by
    simp [obtained_concat, obtainedBy]
  have hclosed : Handles.closed (es ++ [.closed h]) = Handles.closed es ++ [h] := by
    rw [closed_concat]
    rfl
  have hopen := hs.not_closed
  refine ⟨⟨?_, ?_, callsOpen_concat hs.callsOpen ?_⟩, ?_, ?_, ?_⟩
  · rw [hclosed]
    exact List.nodup_append.mpr ⟨hs.closedOnce, List.nodup_singleton h, by
      rintro a ha b hb rfl
      rw [List.mem_singleton.mp hb] at ha
      exact hopen ha⟩
  · intro h' hh'
    rw [hobtained] at hh'
    exact (hs.kept h' hh').imp_right fun hin => hclosed ▸ List.mem_append_left _ hin
  · intro h' hon
    cases hon
    exact hopen
  · intro h' hh'
    rw [hclosed] at hh'
    rw [hobtained]
    rcases List.mem_append.mp hh' with hin | hin
    · exact hs.closedObtained h' hin
    · rw [List.mem_singleton.mp hin]
      exact hs.heldObtained h rfl
  · rw [hobtained]
    exact hs.heldObtained
  · intro h' hh'
    cases hh'
    simp [hclosed]

/-- A handle that is not held, or is closed, can be given up. -/
theorem Holds.dropped (hs : Holds held isOpen es) (hdrop : held = none ∨ isOpen = false)
    (isOpen' : Bool) : Holds none isOpen' es := by
  refine ⟨⟨hs.closedOnce, fun h hh => .inr ?_, hs.callsOpen⟩, hs.closedObtained, by simp, by simp⟩
  rcases hs.kept h hh with heq | hclosed
  · rcases hdrop with hnone | hshut
    · cases heq.symm.trans hnone
    · exact (hs.heldOpen h heq).mpr hshut
  · exact hclosed

theorem Holds.obtained (hs : Holds none isOpen es) (hfresh : h ∉ Handles.obtained es) :
    Holds (some h) true (es ++ [.obtained h]) := by
  have hobtained : Handles.obtained (es ++ [.obtained h]) = Handles.obtained es ++ [h] := by
    rw [obtained_concat]
    rfl
  have hclosed : Handles.closed (es ++ [.obtained h]) = Handles.closed es := by
    simp [closed_concat, closedBy]
  refine ⟨⟨?_, ?_, callsOpen_concat hs.callsOpen ?_⟩, ?_, ?_, ?_⟩
  · rw [hclosed]
    exact hs.closedOnce
  · intro h' hh'
    rw [hobtained] at hh'
    rw [hclosed]
    rcases List.mem_append.mp hh' with hin | hin
    · exact .inr ((hs.kept h' hin).resolve_left (by simp))
    · exact .inl (congrArg some (List.mem_singleton.mp hin).symm)
  · intro h' hon
    cases hon
  · intro h' hh'
    rw [hclosed] at hh'
    rw [hobtained]
    exact List.mem_append_left _ (hs.closedObtained h' hh')
  · intro h' hh'
    cases hh'
    rw [hobtained]
    exact List.mem_append_right _ (List.mem_singleton_self _)
  · intro h' hh'
    cases hh'
    rw [hclosed]
    exact ⟨fun hin => absurd (hs.closedObtained _ hin) hfresh, fun hno => Bool.noConfusion hno⟩

end Handles
end Handles
