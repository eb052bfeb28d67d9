import Mathlib.Data.List.Basic

/-! Messages cut into pieces, and their assembly from the pieces that come through. -/
namespace Fragmented
variable {α τ : Type*}

inductive Kind
  | full
  | first
  | middle
  | last
  deriving DecidableEq, Repr

structure Piece (α τ : Type*) where
  kind : Kind
  payload : List α
  tag : τ

/-- The pieces that follow the first one of a message. -/
inductive Rest : List α → List (Piece α τ) → Prop
  | last {p : Piece α τ} (kind : p.kind = .last) : Rest p.payload [p]
  | middle {p : Piece α τ} {left : List α} {ps : List (Piece α τ)} (kind : p.kind = .middle)
      (rest : Rest left ps) : Rest (p.payload ++ left) (p :: ps)

/-- A message is one full piece or a first piece and the rest. -/
inductive Cut : List α → List (Piece α τ) → Prop
  | full {p : Piece α τ} (kind : p.kind = .full) : Cut p.payload [p]
  | first {p : Piece α τ} {left : List α} {ps : List (Piece α τ)} (kind : p.kind = .first)
      (rest : Rest left ps) : Cut (p.payload ++ left) (p :: ps)

theorem Rest.ne_nil {left : List α} {ps : List (Piece α τ)} (h : Rest left ps) : ps ≠ [] := by
  cases h <;> exact List.cons_ne_nil _ _

theorem Cut.ne_nil {content : List α} {ps : List (Piece α τ)} (h : Cut content ps) : ps ≠ [] := by
  cases h <;> exact List.cons_ne_nil _ _

structure Message (α τ : Type*) where
  content : List α
  pieces : List (Piece α τ)
  cut : Cut content pieces

namespace Message

/-- A message goes by the tag of its first piece. -/
def tag (m : Message α τ) : τ := (m.pieces.head m.cut.ne_nil).tag

def labelled (m : Message α τ) : List α × τ := (m.content, m.tag)

end Message

/-- What the reader comes across: a piece, or a gap in front of which pieces are missing. -/
inductive Event (α τ : Type*)
  | piece (p : Piece α τ)
  | gap

/-- What an event makes of the message that is pending: a complete message, or what is pending
then. A gap drops it, and the rest of a message without its first piece is dropped too. -/
def accept : Option (List α × τ) → Event α τ → (List α × τ) ⊕ Option (List α × τ)
  | _, .gap => .inr none
  | pending, .piece p =>
    match p.kind, pending with
    | .full, _ => .inl (p.payload, p.tag)
    | .first, _ => .inr (some (p.payload, p.tag))
    | .middle, none => .inr none
    | .middle, some (acc, t) => .inr (some (acc ++ p.payload, t))
    | .last, none => .inr none
    | .last, some (acc, t) => .inl (acc ++ p.payload, t)

def assemble : Option (List α × τ) → List (Event α τ) → List (List α × τ)
  | _, [] => []
  | pending, e :: evs =>
    match accept pending e with
    | .inl m => m :: assemble none evs
    | .inr pending => assemble pending evs

/-- A message is tagged by the one that is pending or by a piece. -/
theorem tag_of_accept {pending : Option (List α × τ)} {e : Event α τ} {m : List α × τ}
    (h : accept pending e = .inl m ∨ accept pending e = .inr (some m)) :
    (∃ m', pending = some m' ∧ m.2 = m'.2) ∨ ∃ p, e = .piece p ∧ m.2 = p.tag := by
  cases e with
  | gap => simp [accept] at h
  | piece p =>
    unfold accept at h
    cases hkind : p.kind <;> cases pending <;> simp_all <;> simp [← h]

theorem tag_of_mem_assemble {pending : Option (List α × τ)} {evs : List (Event α τ)}
    {x : List α × τ} (h : x ∈ assemble pending evs) :
    (∃ m, pending = some m ∧ x.2 = m.2) ∨ ∃ p, .piece p ∈ evs ∧ x.2 = p.tag := by
  induction evs generalizing pending with
  | nil => cases h
  | cons e evs ih =>
    have hhead : ∀ {m : List α × τ}, accept pending e = .inl m ∨ accept pending e = .inr (some m) →
        x.2 = m.2 → (∃ m, pending = some m ∧ x.2 = m.2) ∨ ∃ p, .piece p ∈ e :: evs ∧ x.2 = p.tag := by
      intro m hm hx
      rcases tag_of_accept hm with ⟨m', hpending, htag⟩ | ⟨p, rfl, htag⟩
      · exact .inl ⟨m', hpending, hx.trans htag⟩
      · exact .inr ⟨p, List.mem_cons_self, hx.trans htag⟩
    have htail : (∃ p, .piece p ∈ evs ∧ x.2 = p.tag) →
        (∃ m, pending = some m ∧ x.2 = m.2) ∨ ∃ p, .piece p ∈ e :: evs ∧ x.2 = p.tag := by
      rintro ⟨p, hp, htag⟩
      exact .inr ⟨p, List.mem_cons_of_mem e hp, htag⟩
    unfold assemble at h
    rcases haccept : accept pending e with m | _ | m <;> rw [haccept] at h
    · rcases List.mem_cons.mp h with rfl | h
      · exact hhead (.inl haccept) rfl
      · rcases ih h with ⟨m, hm, -⟩ | hrest
        · cases hm
        · exact htail hrest
    · rcases ih h with ⟨m, hm, -⟩ | hrest
      · cases hm
      · exact htail hrest
    · rcases ih h with ⟨m', hm, htag⟩ | hrest
      · cases hm
        exact hhead (.inr haccept) htag
      · exact htail hrest

/-- Events without a gap, in which every piece is in its place. -/
def InOrder : Bool → List (Event α τ) → Prop
  | _, [] => True
  | _, .gap :: _ => False
  | pending, .piece p :: evs =>
    match p.kind with
    | .full => pending = false ∧ InOrder false evs
    | .first => pending = false ∧ InOrder true evs
    | .middle => pending = true ∧ InOrder true evs
    | .last => pending = true ∧ InOrder false evs

theorem InOrder.tail {pending : Option (List α × τ)} {e : Event α τ} {evs : List (Event α τ)}
    (h : InOrder pending.isSome (e :: evs)) :
    match accept pending e with
    | .inl _ => InOrder false evs
    | .inr pending => InOrder pending.isSome evs := by
  cases e with
  | gap => cases h
  | piece p =>
    unfold InOrder at h
    cases hkind : p.kind <;> cases pending <;> simp_all [accept]

theorem InOrder.of_append {pending : Bool} {evs fs : List (Event α τ)}
    (h : InOrder pending (evs ++ fs)) : InOrder pending evs := by
  induction evs generalizing pending with
  | nil => trivial
  | cons e evs ih =>
    cases e with
    | gap => exact h
    | piece p =>
      rw [List.cons_append] at h
      unfold InOrder at h ⊢
      cases hkind : p.kind <;> rw [hkind] at h <;> exact ⟨h.1, ih h.2⟩

theorem Rest.inOrder {left : List α} {ps : List (Piece α τ)} (h : Rest left ps)
    {evs : List (Event α τ)} (hevs : InOrder false evs) :
    InOrder true (ps.map .piece ++ evs) := by
  induction h with
  | last kind =>
    simp only [List.map_cons, List.map_nil, List.cons_append, List.nil_append, InOrder, kind]
    exact ⟨trivial, hevs⟩
  | middle kind _ ih =>
    simp only [List.map_cons, List.cons_append, InOrder, kind]
    exact ⟨trivial, ih⟩

theorem Cut.inOrder {content : List α} {ps : List (Piece α τ)} (h : Cut content ps)
    {evs : List (Event α τ)} (hevs : InOrder false evs) :
    InOrder false (ps.map .piece ++ evs) := by
  cases h with
  | full kind =>
    simp only [List.map_cons, List.map_nil, List.cons_append, List.nil_append, InOrder, kind]
    exact ⟨trivial, hevs⟩
  | first kind rest =>
    simp only [List.map_cons, List.cons_append, InOrder, kind]
    exact ⟨trivial, rest.inOrder hevs⟩

/-- The pieces of messages one after another are in order, as far as they go. -/
theorem inOrder_of_prefix {ms : List (Message α τ)} {ps : List (Piece α τ)}
    (h : ps <+: ms.flatMap Message.pieces) : InOrder false (ps.map .piece) := by
  have hall : InOrder false ((ms.flatMap Message.pieces).map .piece) := by
    induction ms generalizing ps with
    | nil => trivial
    | cons m ms ih =>
      rw [List.flatMap_cons, List.map_append]
      exact m.cut.inOrder (ih (List.nil_prefix))
  obtain ⟨rest, hrest⟩ := h
  rw [← hrest, List.map_append] at hall
  exact hall.of_append

theorem InOrder.of_append_right {pending : Bool} {evs fs : List (Event α τ)}
    (h : InOrder pending (evs ++ fs)) : ∃ pending', InOrder pending' fs := by
  induction evs generalizing pending with
  | nil => exact ⟨pending, h⟩
  | cons e evs ih =>
    cases e with
    | gap => cases h
    | piece p =>
      rw [List.cons_append] at h
      unfold InOrder at h
      cases hkind : p.kind <;> rw [hkind] at h <;> exact ih h.2

/-- Pieces in order that start with a message are in order for one who waits for none. -/
theorem InOrder.of_start {pending : Bool} {p : Piece α τ} {evs : List (Event α τ)}
    (h : InOrder pending (.piece p :: evs)) (hstart : p.kind = .full ∨ p.kind = .first) :
    InOrder false (.piece p :: evs) := by
  unfold InOrder at h ⊢
  rcases hstart with hkind | hkind <;> rw [hkind] at h ⊢ <;> exact ⟨rfl, h.2⟩

/-- Events for one who may have come in the middle of a message, and then drops the rest of it. A
gap ends that. -/
def Quiet : Bool → List (Event α τ) → Prop
  | _, [] => True
  | _, .gap :: evs => Quiet false evs
  | false, .piece p :: evs => InOrder false (.piece p :: evs)
  | true, .piece p :: evs =>
    match p.kind with
    | .full | .first => InOrder false (.piece p :: evs)
    | .middle => Quiet true evs
    | .last => Quiet false evs

/-- Who drops the rest of a message is in step from the next message on. -/
theorem Quiet.tail {p : Piece α τ} {evs : List (Event α τ)} (h : Quiet true (.piece p :: evs)) :
    match accept none (.piece p) with
    | .inl _ => p.kind ≠ .middle ∧ InOrder false evs
    | .inr (some _) => p.kind ≠ .middle ∧ InOrder true evs
    | .inr none => Quiet (decide (p.kind = .middle)) evs := by
  unfold Quiet InOrder at h
  cases hkind : p.kind <;> simp_all [accept]

theorem quiet_of_inOrder {ps : List (Piece α τ)} (h : InOrder false (ps.map .piece)) :
    Quiet false (ps.map .piece) := by
  cases ps with
  | nil => trivial
  | cons p ps => exact h

/-- Pieces in order can be joined anywhere. -/
theorem quiet_joined {pending : Bool} {ps : List (Piece α τ)}
    (h : InOrder pending (ps.map .piece)) : Quiet true (ps.map .piece) := by
  induction ps generalizing pending with
  | nil => trivial
  | cons p ps ih =>
    rw [List.map_cons] at h ⊢
    unfold InOrder at h
    unfold Quiet
    cases hkind : p.kind <;> rw [hkind] at h <;> obtain ⟨hpending, hrest⟩ := h
    · unfold InOrder
      rw [hkind]
      exact ⟨rfl, hrest⟩
    · unfold InOrder
      rw [hkind]
      exact ⟨rfl, hrest⟩
    · exact ih hrest
    · exact quiet_of_inOrder hrest

theorem quiet_gaps {n : ℕ} {evs : List (Event α τ)} (h : Quiet false evs) :
    Quiet false (List.replicate n .gap ++ evs) := by
  induction n with
  | zero => exact h
  | succ n ih =>
    rw [List.replicate_succ, List.cons_append]
    exact ih

/-- The pieces that are kept come through in their order. Pieces are lost only in front of a gap
or of the end, and `lossy` says that a gap is due. -/
inductive Trace (kept : Piece α τ → Bool) : Bool → List (Piece α τ) → List (Event α τ) → Prop
  | done {lossy : Bool} {ps : List (Piece α τ)} (lost : ∀ p ∈ ps, kept p = false) :
      Trace kept lossy ps []
  | keep {p : Piece α τ} {ps : List (Piece α τ)} {evs : List (Event α τ)} (comes : kept p = true)
      (rest : Trace kept false ps evs) : Trace kept false (p :: ps) (.piece p :: evs)
  | lose {lossy : Bool} {p : Piece α τ} {ps : List (Piece α τ)} {evs : List (Event α τ)}
      (lost : kept p = false) (rest : Trace kept true ps evs) : Trace kept lossy (p :: ps) evs
  | gap {ps : List (Piece α τ)} {evs : List (Event α τ)} (rest : Trace kept false ps evs) :
      Trace kept true ps (.gap :: evs)

namespace Trace
variable {kept : Piece α τ → Bool}

/-- When a piece is kept only with all those in front of it, the kept ones come first. -/
theorem takeWhile {ps : List (Piece α τ)}
    (h : ps.Pairwise fun p q => kept q = true → kept p = true) :
    Trace kept false ps ((ps.takeWhile kept).map .piece) := by
  induction ps with
  | nil => exact .done fun _ hp => by cases hp
  | cons p ps ih =>
    obtain ⟨hp, hps⟩ := List.pairwise_cons.mp h
    by_cases hkept : kept p = true
    · rw [List.takeWhile_cons_of_pos hkept]
      exact .keep hkept (ih hps)
    · rw [List.takeWhile_cons_of_neg hkept]
      apply Trace.done
      intro q hq
      apply eq_false_of_ne_true
      rcases List.mem_cons.mp hq with rfl | hq
      · exact hkept
      · exact fun hq' => hkept (hp q hq hq')

theorem lose_all {ps qs : List (Piece α τ)} {evs : List (Event α τ)}
    (lost : ∀ p ∈ ps, kept p = false) (rest : Trace kept true qs evs) :
    Trace kept true (ps ++ qs) evs := by
  induction ps with
  | nil => exact rest
  | cons p ps ih =>
    have hps : ∀ q ∈ ps, kept q = false := fun q hq => lost q (List.mem_cons_of_mem p hq)
    exact .lose (lost p List.mem_cons_self) (ih hps)

/-- Once pieces are lost, what is pending makes no difference. -/
theorem assemble_lossy {ps : List (Piece α τ)} {evs : List (Event α τ)}
    (h : Trace kept true ps evs) (pending : Option (List α × τ)) :
    assemble pending evs = assemble none evs := by
  generalize hl : true = lossy at h
  induction h with
  | done _ => rfl
  | keep _ _ _ => cases hl
  | lose _ _ ih => exact ih rfl
  | gap _ _ => rfl

end Trace

/-- The next piece comes through, past a gap if one is due, or it is lost and with it what is
pending. -/
theorem Trace.head {kept : Piece α τ → Bool} {lossy : Bool} {p : Piece α τ}
    {ps : List (Piece α τ)} {evs : List (Event α τ)} (h : Trace kept lossy (p :: ps) evs) :
    (kept p = true ∧ ∃ evs', Trace kept false ps evs' ∧
      assemble none evs = assemble none (.piece p :: evs') ∧
      (lossy = false → evs = .piece p :: evs')) ∨
    (kept p = false ∧ ∃ evs', Trace kept true ps evs' ∧
      ∀ pending, assemble pending evs = assemble none evs') := by
  cases h with
  | done lost =>
    right
    have hps : ∀ q ∈ ps, kept q = false := fun q hq => lost q (List.mem_cons_of_mem p hq)
    exact ⟨lost p List.mem_cons_self, [], .done hps, fun _ => rfl⟩
  | keep comes rest =>
    left
    exact ⟨comes, _, rest, rfl, fun _ => rfl⟩
  | lose lost rest =>
    right
    exact ⟨lost, evs, rest, rest.assemble_lossy⟩
  | @gap _ evs rest =>
    cases rest with
    | done lost =>
      right
      have hps : ∀ q ∈ ps, kept q = false := fun q hq => lost q (List.mem_cons_of_mem p hq)
      exact ⟨lost p List.mem_cons_self, [], .done hps, fun _ => rfl⟩
    | keep comes rest =>
      left
      exact ⟨comes, _, rest, rfl, nofun⟩
    | lose lost rest =>
      right
      exact ⟨lost, evs, rest, fun _ => rfl⟩

/-- The rest of a message completes it if it is pending and the rest is kept. -/
theorem Rest.assemble {kept : Piece α τ → Bool} {left : List α} {rest qs : List (Piece α τ)}
    (hrest : Rest left rest) {lossy : Bool} {evs : List (Event α τ)}
    (h : Trace kept lossy (rest ++ qs) evs) :
    ∃ lossy' evs', Trace kept lossy' qs evs' ∧
      assemble none evs = assemble none evs' ∧
      (lossy = false → ∀ acc t, assemble (some (acc, t)) evs =
        (if rest.all kept then [(acc ++ left, t)] else []) ++ assemble none evs') := by
  induction hrest generalizing lossy evs with
  | @last p kind =>
    rcases h.head with ⟨comes, evs', hqs, hnone, hsome⟩ | ⟨lost, evs', hqs, hdrop⟩
    · refine ⟨false, evs', hqs, ?_, ?_⟩
      · rw [hnone]
        simp only [Fragmented.assemble, accept, kind]
      · intro hl acc t
        rw [hsome hl]
        simp [Fragmented.assemble, accept, kind, comes]
    · refine ⟨true, evs', hqs, hdrop none, ?_⟩
      intro _ acc t
      rw [hdrop]
      simp [lost]
  | @middle p left rest kind _ ih =>
    rcases h.head with ⟨comes, evs', hps, hnone, hsome⟩ | ⟨lost, evs', hps, hdrop⟩
    · obtain ⟨lossy', evs'', hqs, hnone', hsome'⟩ := ih hps
      refine ⟨lossy', evs'', hqs, ?_, ?_⟩
      · rw [hnone, ← hnone']
        simp only [Fragmented.assemble, accept, kind]
      · intro hl acc t
        have hrest := hsome' rfl (acc ++ p.payload) t
        rw [hsome hl]
        simp only [Fragmented.assemble, accept, kind]
        rw [hrest]
        simp [comes]
    · obtain ⟨lossy', evs'', hqs, hnone', -⟩ := ih hps
      refine ⟨lossy', evs'', hqs, (hdrop none).trans hnone', ?_⟩
      intro _ acc t
      rw [hdrop, hnone']
      simp [lost]

theorem Message.assemble {kept : Piece α τ → Bool} (m : Message α τ) {qs : List (Piece α τ)}
    {lossy : Bool} {evs : List (Event α τ)} (h : Trace kept lossy (m.pieces ++ qs) evs) :
    ∃ lossy' evs', Trace kept lossy' qs evs' ∧ assemble none evs =
      (if m.pieces.all kept then [m.labelled] else []) ++ assemble none evs' := by
  obtain ⟨content, pieces, cut⟩ := m
  cases cut with
  | @full p kind =>
    rcases h.head with ⟨comes, evs', hqs, hnone, -⟩ | ⟨lost, evs', hqs, hdrop⟩
    · refine ⟨false, evs', hqs, ?_⟩
      rw [hnone]
      simp [Fragmented.assemble, accept, kind, comes, labelled, tag]
    · refine ⟨true, evs', hqs, ?_⟩
      rw [hdrop]
      simp [lost]
  | @first p left rest kind hrest =>
    rcases h.head with ⟨comes, evs', hps, hnone, -⟩ | ⟨lost, evs', hps, hdrop⟩
    · obtain ⟨lossy', evs'', hqs, -, hsome⟩ := hrest.assemble hps
      have hmessage := hsome rfl p.payload p.tag
      refine ⟨lossy', evs'', hqs, ?_⟩
      rw [hnone]
      simp only [Fragmented.assemble, accept, kind]
      rw [hmessage]
      simp [comes, labelled, tag]
    · obtain ⟨lossy', evs'', hqs, hnone, -⟩ := hrest.assemble hps
      refine ⟨lossy', evs'', hqs, ?_⟩
      rw [hdrop, hnone]
      simp [lost]

def complete (kept : Piece α τ → Bool) (ms : List (Message α τ)) : List (Message α τ) :=
  ms.filter fun m => m.pieces.all kept

/-- The messages that are assembled are those of which every piece came through. -/
theorem assemble_eq {kept : Piece α τ → Bool} {lossy : Bool} {ms : List (Message α τ)}
    {evs : List (Event α τ)} (h : Trace kept lossy (ms.flatMap Message.pieces) evs) :
    assemble none evs = (complete kept ms).map Message.labelled := by
  induction ms generalizing lossy evs with
  | nil =>
    generalize hps : ([] : List (Message α τ)).flatMap Message.pieces = ps at h
    induction h with
    | done _ => rfl
    | keep _ _ _ => cases hps
    | lose _ _ _ => cases hps
    | gap _ ih => exact ih hps
  | cons m ms ih =>
    obtain ⟨lossy', evs', hms, heq⟩ := m.assemble h
    rw [heq, ih hms, complete, complete, List.filter_cons]
    split <;> rfl

end Fragmented
