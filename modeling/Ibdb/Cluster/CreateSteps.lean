import Ibdb.Cluster.TabletNode

/-! The steps of a request to create a table. Another request may run between any two of them:
`Create` does not hold the lock that `Put` and `Get` do. -/
namespace Ibdb.Cluster
open Base Log Storage
open Std (ExtTreeMap)

def nameOf (env : Env) (statement : Bytes) : Option Bytes :=
  (splitString env statement (ascii " "))[1]?

def columns (env : Env) (statement : Bytes) : List Bytes :=
  (splitString env statement (ascii " ")).drop 2

namespace Tablet

/-- The name, when `table_map_` has no table under it. -/
def lookUp (env : Env) (statement : Bytes) : TabletM (Option Bytes) := do
  let tableName ← vectorAt (splitString env statement (ascii " ")) 1
  if (← Exec.get).tablet.tableMap.contains tableName then return none
  else return some tableName

def construct (env : Env) (statement tableName : Bytes) : TabletM Table := do
  let schema ← readFields env (columns env statement)
  Exec.zoom (·.fs) (fun fs c => { c with fs := fs }) (Table.new env tableName schema)

def addManifest (table : Table) : TabletM Unit :=
  Exec.modify fun c => { c with tablet := { c.tablet with
    tabletManifest := { c.tablet.tabletManifest with
      tableManifest := c.tablet.tabletManifest.tableManifest ++ [table.tableManifest] } } }

def insertMaps (tableName : Bytes) (table : Table) : TabletM Unit :=
  Exec.modify fun c => { c with tablet := { c.tablet with
    tableMap := c.tablet.tableMap.insertIfNew tableName table
    tableManifestMap := c.tablet.tableManifestMap.insertIfNew tableName table.tableManifest } }

/-- `Create` is its steps in a row. -/
theorem create_eq (env : Env) (statement : Bytes) :
    create env statement = do
      match ← lookUp env statement with
      | none => return false
      | some tableName =>
        let table ← construct env statement tableName
        addManifest table
        insertMaps tableName table
        return true := by
  funext c
  cases hname : (splitString env statement (ascii " "))[1]? with
  | none =>
    rw [create, Exec.bind_error (vectorAt_of_none hname c), lookUp,
      Exec.bind_error (Exec.bind_error (vectorAt_of_none hname c))]
  | some name =>
    have hlook : lookUp env statement c =
        (.ok (if c.tablet.tableMap.contains name then none else some name), c) := by
      rw [lookUp, Exec.bind_ok (vectorAt_of_some hname c), Exec.bind_ok (Exec.get_apply c)]
      split <;> rfl
    rw [create, Exec.bind_ok (vectorAt_of_some hname c), Exec.bind_ok (Exec.get_apply c),
      Exec.bind_ok hlook]
    by_cases hmem : c.tablet.tableMap.contains name = true
    · simp only [hmem, if_true]
    · simp only [hmem, Bool.false_eq_true, if_false, construct, Exec.bind_apply]
      rw [columns]
      rcases readFields env ((splitString env statement (ascii " ")).drop 2) c with
        ⟨fault | schema, d⟩
      · rfl
      · simp only
        rcases Exec.zoom (·.fs) (fun fs c => { c with fs := fs }) (Table.new env name schema) d
          with ⟨fault | table, e⟩ <;> rfl

end Tablet

/-- Where a request is: what it does next, or what it has answered. -/
inductive CreatePhase
  | lookUp
  | construct (tableName : Bytes)
  | addManifest (tableName : Bytes) (table : Table)
  | insertMaps (tableName : Bytes) (table : Table)
  | finished (answer : Except Fault Bool)

namespace CreatePhase

/-- There is nothing to do once the request has its answer. -/
def next (env : Env) (statement : Bytes) : CreatePhase → Option (TabletM CreatePhase)
  | lookUp => some do
    match ← Tablet.lookUp env statement with
    | none => return finished (.ok false)
    | some tableName => return construct tableName
  | construct tableName => some do
    return addManifest tableName (← Tablet.construct env statement tableName)
  | addManifest tableName table => some do
    Tablet.addManifest table
    return insertMaps tableName table
  | insertMaps tableName table => some do
    Tablet.insertMaps tableName table
    return finished (.ok true)
  | finished _ => none

/-- An exception ends the request; after another fault there is no process left. -/
def after (r : Except Fault CreatePhase × Call) : Option (CreatePhase × Call) :=
  (afterCall r).map fun c =>
    (match r.1 with
      | .ok phase => phase
      | .error fault => finished (.error fault), c)

def step (env : Env) (statement : Bytes) (phase : CreatePhase) (c : Call) :
    Option (CreatePhase × Call) :=
  (next env statement phase).bind fun x => after (x c)

def building : CreatePhase → Option Bytes
  | construct tableName | addManifest tableName _ | insertMaps tableName _ => some tableName
  | lookUp | finished _ => none

/-- The name under which the next step adds an entry. -/
def adding : CreatePhase → Option Bytes
  | addManifest tableName _ => some tableName
  | _ => none

/-- The name under which the next step inserts into the maps. -/
def inserting : CreatePhase → Option Bytes
  | insertMaps tableName _ => some tableName
  | _ => none

def answer : CreatePhase → Option (Except Fault Bool)
  | finished answer => some answer
  | _ => none

section Step
variable {env : Env} {statement : Bytes} {phase phase' : CreatePhase} {c c' : Call}

inductive Moves (env : Env) (statement : Bytes) : CreatePhase → Call → CreatePhase → Call → Prop
  | unnamed (fault : Fault) (c : Call) (hname : nameOf env statement = none) :
      Moves env statement lookUp c (finished (.error fault)) c
  | taken {tableName : Bytes} {c : Call}
      (hname : nameOf env statement = some tableName)
      (hmem : tableName ∈ c.tablet.tableMap) :
      Moves env statement lookUp c (finished (.ok false)) c
  | free {tableName : Bytes} {c : Call}
      (hname : nameOf env statement = some tableName)
      (hmem : tableName ∉ c.tablet.tableMap) :
      Moves env statement lookUp c (construct tableName) c
  | malformed (tableName : Bytes) (fault : Fault) (c : Call)
      (hparts : ¬ HasParts env (columns env statement)) :
      Moves env statement (construct tableName) c (finished (.error fault)) c
  | constructed {tableName : Bytes} {table : Table} (c : Call) (fs : FileSystem)
      (hparts : HasParts env (columns env statement))
      (hname : table.tableManifest.name = tableName) :
      Moves env statement (construct tableName) c (addManifest tableName table)
        { c with fs := fs }
  | added (tableName : Bytes) (table : Table) (c : Call) :
      Moves env statement (addManifest tableName table) c (insertMaps tableName table)
        (Tablet.addManifest table c).2
  | inserted (tableName : Bytes) (table : Table) (c : Call) :
      Moves env statement (insertMaps tableName table) c (finished (.ok true))
        (Tablet.insertMaps tableName table c).2

theorem construct_moves {tableName : Bytes}
    (h : step env statement (construct tableName) c = some (phase', c')) :
    Moves env statement (construct tableName) c phase' c' := by
  by_cases hparts : HasParts env (columns env statement)
  · have hfields := readFields_ok hparts c
    rcases hnew : Table.new env tableName (fieldsOf env (columns env statement)) c.fs with
      ⟨fault | table, fs⟩
    · have hundefined : fault = .undefined := by
        have hbuild := @buildKeys_result (fieldsOf env (columns env statement)) _ shortNames_empty
        unfold Table.new at hnew
        rcases hb : Table.buildKeys (fieldsOf env (columns env statement)) Segment.empty with
          ⟨fault' | _, seg⟩ <;> rw [hb] at hnew hbuild
        · cases congrArg Prod.fst hnew
          simp only at hbuild
          split_ifs at hbuild
          exact Except.error.inj hbuild
        · cases congrArg Prod.fst hnew
      have hcall : Tablet.construct env statement tableName c =
          (.error fault, { c with fs := fs }) := by
        rw [Tablet.construct, Exec.bind_ok hfields, Exec.zoom_apply, hnew]
      rw [step, next, Option.bind_some, Exec.bind_error hcall, hundefined] at h
      cases h
    · have hcall : Tablet.construct env statement tableName c =
          (.ok table, { c with fs := fs }) := by
        rw [Tablet.construct, Exec.bind_ok hfields, Exec.zoom_apply, hnew]
      rw [step, next, Option.bind_some, Exec.bind_ok hcall] at h
      cases h
      exact .constructed c fs hparts (new_ok hnew).2.2.1
  · have hcall : Tablet.construct env statement tableName c = (.error .outOfRange, c) := by
      rw [Tablet.construct, Exec.bind_error (readFields_error hparts c)]
    rw [step, next, Option.bind_some, Exec.bind_error hcall] at h
    cases h
    exact .malformed tableName .outOfRange c hparts

theorem lookUp_moves (h : step env statement lookUp c = some (phase', c')) :
    Moves env statement lookUp c phase' c' := by
  cases hname : (splitString env statement (ascii " "))[1]? with
  | none =>
    have hcall : Tablet.lookUp env statement c = (.error .outOfRange, c) := by
      rw [Tablet.lookUp, Exec.bind_error (vectorAt_of_none hname c)]
    rw [step, next, Option.bind_some, Exec.bind_error hcall] at h
    cases h
    exact .unnamed .outOfRange c hname
  | some tableName =>
    have hcall : Tablet.lookUp env statement c =
        (.ok (if c.tablet.tableMap.contains tableName then none else some tableName), c) := by
      rw [Tablet.lookUp, Exec.bind_ok (vectorAt_of_some hname c), Exec.bind_ok (Exec.get_apply c)]
      split <;> rfl
    rw [step, next, Option.bind_some, Exec.bind_ok hcall] at h
    by_cases hmem : c.tablet.tableMap.contains tableName = true
    · simp only [hmem, if_true] at h
      cases h
      exact .taken hname hmem
    · simp only [hmem, Bool.false_eq_true, if_false] at h
      cases h
      exact .free hname hmem

theorem moves_of_step (h : step env statement phase c = some (phase', c')) :
    Moves env statement phase c phase' c' := by
  cases phase with
  | lookUp => exact lookUp_moves h
  | construct tableName => exact construct_moves h
  | addManifest tableName table =>
    cases h
    exact .added tableName table c
  | insertMaps tableName table =>
    cases h
    exact .inserted tableName table c
  | finished answer => cases h

end Step
end CreatePhase

/-! What every step keeps. -/

def entries (c : Call) (name : Bytes) : ℕ :=
  (c.tablet.tabletManifest.tableManifest.map (·.name)).count name

namespace CreatePhase

section Moves
variable {env : Env} {statement : Bytes} {phase phase' : CreatePhase} {c c' c₀ : Call}

theorem Moves.mem_tableMap (h : Moves env statement phase c phase' c') (name : Bytes) :
    name ∈ c'.tablet.tableMap ↔ name ∈ c.tablet.tableMap ∨ phase.inserting = some name := by
  cases h with
  | inserted tableName table c =>
    change name ∈ c.tablet.tableMap.insertIfNew tableName table ↔ _
    rw [ExtTreeMap.mem_insertIfNew, Std.compare_eq_iff_eq, inserting, Option.some.injEq, or_comm]
  | _ => simp [inserting, Tablet.addManifest]

theorem Moves.finished (h : Moves env statement phase c phase' c') {name : Bytes}
    (hinsert : phase.inserting = some name) : phase' = finished (.ok true) := by
  cases h with
  | inserted => rfl
  | _ => cases hinsert

theorem Moves.inserting_iff_adding (h : Moves env statement phase c phase' c') {name : Bytes} :
    phase'.inserting = some name ↔ phase.adding = some name := by
  cases h <;> simp [inserting, adding]

theorem Moves.not_finished (h : Moves env statement phase c phase' c') (answer : Except Fault Bool) :
    phase ≠ .finished answer := by
  cases h <;> simp

theorem Moves.sameTables (h : Moves env statement phase c phase' c') (hsame : SameTables c) :
    SameTables c' := by
  cases h with
  | inserted tableName table c =>
    intro name
    change name ∈ c.tablet.tableMap.insertIfNew tableName table ↔
      name ∈ c.tablet.tableManifestMap.insertIfNew tableName table.tableManifest
    rw [ExtTreeMap.mem_insertIfNew, ExtTreeMap.mem_insertIfNew, hsame]
  | _ => exact hsame

/-- A request between its steps, in a tablet that had the tables of `c₀` when it all began. -/
structure PhaseInv (env : Env) (statement : Bytes) (c₀ c : Call) (phase : CreatePhase) :
    Prop where
  named : ∀ name, phase.building = some name →
    nameOf env statement = some name ∧ name ∉ c₀.tablet.tableMap
  entry : ∀ name table, phase = addManifest name table → table.tableManifest.name = name
  parts : phase.adding.isSome ∨ phase.inserting.isSome ∨ phase = finished (.ok true) →
    HasParts env (columns env statement)
  inserted : phase = finished (.ok true) → ∀ name, nameOf env statement = some name →
    name ∈ c.tablet.tableMap

theorem PhaseInv.mono (h : PhaseInv env statement c₀ c phase)
    (hmem : ∀ name ∈ c.tablet.tableMap, name ∈ c'.tablet.tableMap) :
    PhaseInv env statement c₀ c' phase :=
  { h with inserted := fun heq name hname => hmem name (h.inserted heq name hname) }

theorem Moves.phaseInv (h : Moves env statement phase c phase' c')
    (hinv : PhaseInv env statement c₀ c phase)
    (hkept : ∀ name ∈ c₀.tablet.tableMap, name ∈ c.tablet.tableMap) :
    PhaseInv env statement c₀ c' phase' := by
  cases h with
  | unnamed => constructor <;> simp [building, adding, inserting]
  | taken => constructor <;> simp [building, adding, inserting]
  | free hname hmem =>
    constructor
    · intro name heq
      obtain rfl := Option.some.inj heq
      exact ⟨hname, fun h₀ => hmem (hkept _ h₀)⟩
    · simp
    · simp [adding, inserting]
    · simp
  | malformed => constructor <;> simp [building, adding, inserting]
  | constructed _ _ hparts hname =>
    refine ⟨hinv.named, ?_, fun _ => hparts, by simp⟩
    intro name table heq
    cases heq
    exact hname
  | added =>
    exact ⟨hinv.named, by simp, fun _ => hinv.parts (.inl rfl), by simp⟩
  | inserted tableName table =>
    refine ⟨by simp [building], by simp, fun _ => hinv.parts (.inr (.inl rfl)), ?_⟩
    intro _ name hname
    have hown := (hinv.named tableName rfl).1
    obtain rfl : tableName = name := Option.some.inj (hown.symm.trans hname)
    exact ExtTreeMap.mem_insertIfNew_self

theorem Moves.entries (h : Moves env statement phase c phase' c')
    (hinv : PhaseInv env statement c₀ c phase) (name : Bytes) :
    Cluster.entries c' name =
      Cluster.entries c name + if phase.adding = some name then 1 else 0 := by
  cases h with
  | added tableName table c =>
    have hname := hinv.entry tableName table rfl
    change ((c.tablet.tabletManifest.tableManifest ++ [table.tableManifest]).map (·.name)).count
      name = _
    rw [List.map_append, List.count_append, Cluster.entries]
    simp [adding, hname, List.count_singleton]
  | _ => simp [adding, Cluster.entries, Tablet.insertMaps]

/-- The request will make the table of the name, or has made it. -/
structure Claims (env : Env) (statement : Bytes) (phase : CreatePhase) (name : Bytes) : Prop where
  named : nameOf env statement = some name
  parts : HasParts env (columns env statement)
  made : phase.building = some name ∨ phase = finished (.ok true)

/-- A claim is made by the lookup. -/
theorem Moves.claims (h : Moves env statement phase c phase' c')
    (hinv : PhaseInv env statement c₀ c phase) {name : Bytes}
    (hclaims : Claims env statement phase' name) :
    Claims env statement phase name ∨ phase = lookUp ∧ name ∉ c.tablet.tableMap := by
  have hmade := hclaims.made
  cases h with
  | unnamed => simp [building] at hmade
  | taken => simp [building] at hmade
  | free hname hmem =>
    obtain rfl := Option.some.inj (hname.symm.trans hclaims.named)
    exact .inr ⟨rfl, hmem⟩
  | malformed => simp [building] at hmade
  | constructed => exact .inl ⟨hclaims.named, hclaims.parts, by simpa [building] using hmade⟩
  | added => exact .inl ⟨hclaims.named, hclaims.parts, by simpa [building] using hmade⟩
  | inserted tableName table =>
    have hown := (hinv.named tableName rfl).1
    exact .inl ⟨hclaims.named, hclaims.parts, .inl (hown.symm.trans hclaims.named)⟩

/-- It is never given up. -/
theorem Moves.keeps_claims (h : Moves env statement phase c phase' c') {name : Bytes}
    (hclaims : Claims env statement phase name) : Claims env statement phase' name := by
  have hmade := hclaims.made
  cases h with
  | unnamed => simp [building] at hmade
  | taken => simp [building] at hmade
  | free => simp [building] at hmade
  | malformed _ _ _ hparts => exact absurd hclaims.parts hparts
  | constructed => exact ⟨hclaims.named, hclaims.parts, by simpa [building] using hmade⟩
  | added => exact ⟨hclaims.named, hclaims.parts, by simpa [building] using hmade⟩
  | inserted => exact ⟨hclaims.named, hclaims.parts, .inr rfl⟩

/-- A lookup finds the name taken or lays claim to it. -/
theorem Moves.of_lookUp (h : Moves env statement lookUp c phase' c') {name : Bytes}
    (hname : nameOf env statement = some name) (hparts : HasParts env (columns env statement)) :
    name ∈ c.tablet.tableMap ∨ Claims env statement phase' name := by
  cases h with
  | unnamed _ _ hnone =>
    rw [hname] at hnone
    cases hnone
  | taken hname' hmem =>
    obtain rfl := Option.some.inj (hname.symm.trans hname')
    exact .inl hmem
  | free hname' hmem =>
    obtain rfl := Option.some.inj (hname.symm.trans hname')
    exact .inr ⟨hname, hparts, .inl rfl⟩

theorem building_of_inserting {name : Bytes} (h : phase.inserting = some name) :
    phase.building = some name := by
  cases phase <;> simp_all [inserting, building]

theorem building_of_adding {name : Bytes} (h : phase.adding = some name) :
    phase.building = some name ∧ phase.inserting = none := by
  cases phase <;> simp_all [adding, inserting, building]

theorem Claims.of_inserting (hinv : PhaseInv env statement c₀ c phase) {name : Bytes}
    (h : phase.inserting = some name) : Claims env statement phase name := by
  have hbuilding := building_of_inserting h
  exact ⟨(hinv.named name hbuilding).1, hinv.parts (.inr (.inl (by simp [h]))), .inl hbuilding⟩

theorem Claims.of_adding (hinv : PhaseInv env statement c₀ c phase) {name : Bytes}
    (h : phase.adding = some name) : Claims env statement phase name := by
  have hbuilding := (building_of_adding h).1
  exact ⟨(hinv.named name hbuilding).1, hinv.parts (.inl (by simp [h])), .inl hbuilding⟩

end Moves
end CreatePhase

end Ibdb.Cluster
