import Ibdb.Lib.Clients
import Ibdb.Cluster.CreateSteps

/-! Requests to create tables whose steps interleave. -/
namespace Ibdb.Cluster
open Base Log Storage
open Std (ExtTreeMap)

/-! Tablets that requests have led to, one after another. -/

/-- `tablet_manifest_` has one entry for each table. -/
structure OneEntry (c : Call) : Prop where
  same : SameTables c
  one : ∀ name ∈ c.tablet.tableMap, entries c name = 1
  none : ∀ name, name ∉ c.tablet.tableMap → entries c name = 0

section OneEntry
variable {env : Env} {c c' : Call}

structure SameNames (c c' : Call) : Prop where
  tabletManifest : c'.tablet.tabletManifest = c.tablet.tabletManifest
  mem : ∀ name : Bytes, name ∈ c'.tablet.tableMap ↔ name ∈ c.tablet.tableMap

theorem SameNames.onTable {α : Type} {name : Bytes} {table : Table}
    (htable : c.tablet.tableMap[name]? = some table) (x : TableM α) :
    SameNames c (onTable name table x c).2 := by
  refine ⟨rfl, fun name' => ?_⟩
  change name' ∈ c.tablet.tableMap.insert name _ ↔ _
  rw [ExtTreeMap.mem_insert, Std.compare_eq_iff_eq]
  refine ⟨fun hcase => ?_, .inr⟩
  rcases hcase with rfl | hmem
  · exact mem_of_getElem? htable
  · exact hmem

theorem SameNames.ran {α : Type} {name : Option Bytes} {x : TableM α} (h : Ran name x c c') :
    SameNames c c' := by
  cases h with
  | missing => exact ⟨rfl, fun _ => .rfl⟩
  | ran _ _ htable =>
    have hnames := onTable htable x
    exact ⟨hnames.tabletManifest, hnames.mem⟩

theorem SameNames.putWith (env : Env) (answer : Bytes → RpcCode → Response → Response)
    (io : DiskCalls) (statement : Bytes) (c : Call) :
    SameNames c (Tablet.putWith answer env io statement c).2 := by
  obtain ⟨d, hran, hcounted⟩ := putWith_ran answer env io statement c
  have hnames := SameNames.ran hran
  generalize (Tablet.putWith answer env io statement c).2 = c' at hcounted ⊢
  cases hcounted with
  | same => exact hnames
  | counted => exact ⟨hnames.tabletManifest, hnames.mem⟩

theorem OneEntry.of_same (h : OneEntry c) (hnames : SameNames c c') (hsame : SameTables c') :
    OneEntry c' := by
  have hentries : ∀ name, entries c' name = entries c name := by
    intro name
    rw [entries, entries, hnames.tabletManifest]
  refine ⟨hsame, fun name hmem => ?_, fun name hmem => ?_⟩
  · rw [hentries]
    exact h.one name ((hnames.mem name).mp hmem)
  · rw [hentries]
    exact h.none name fun hold => hmem ((hnames.mem name).mpr hold)

theorem OneEntry.withTable (h : OneEntry c) {tableName : Bytes} {table : Table}
    (hnew : tableName ∉ c.tablet.tableMap) (hname : table.tableManifest.name = tableName)
    (fs : FileSystem) :
    OneEntry { c with fs := fs, tablet := c.tablet.withTable tableName table } := by
  have hentries : ∀ name, entries { c with fs := fs, tablet := c.tablet.withTable tableName table }
      name = entries c name + if tableName = name then 1 else 0 := by
    intro name
    change ((c.tablet.tabletManifest.tableManifest ++ [table.tableManifest]).map (·.name)).count
      name = _
    rw [List.map_append, List.count_append, entries]
    simp [hname, List.count_singleton]
  have hmem : ∀ name, name ∈ (c.tablet.withTable tableName table).tableMap ↔
      tableName = name ∨ name ∈ c.tablet.tableMap := by
    intro name
    change name ∈ c.tablet.tableMap.insertIfNew tableName table ↔ _
    rw [ExtTreeMap.mem_insertIfNew, Std.compare_eq_iff_eq]
  refine ⟨h.same.withTable fs tableName table, fun name hname => ?_, fun name hname => ?_⟩
  · rw [hentries]
    rcases (hmem name).mp hname with rfl | hold
    · rw [h.none _ hnew, if_pos rfl]
    · have hne : tableName ≠ name := fun heq => hnew (heq ▸ hold)
      rw [h.one name hold, if_neg hne]
  · have hnot := (hmem name).not.mp hname
    rw [hentries, h.none name fun hold => hnot (.inr hold), if_neg fun heq => hnot (.inl heq)]

theorem OneEntry.step (h : OneEntry c) {op : TabletOp} (hstep : TabletOp.step env op c = some c') :
    OneEntry c' := by
  have hsame := h.same.step hstep
  cases op with
  | create statement =>
    obtain ⟨result, d, hcall, houtcome⟩ := create_outcome env statement c
    rw [TabletOp.step, hcall] at hstep
    obtain rfl : c' = d := afterCall_eq hstep
    rcases houtcome with ⟨fault, -, rfl⟩ | ⟨name, -, ⟨-, -, rfl⟩ |
      ⟨hmem, -, schema, table, fs, hnew, rfl⟩⟩
    · exact h
    · exact h
    · exact h.withTable hmem (new_ok hnew).2.2.1 fs
  | put io statement =>
    rw [afterCall_eq hstep] at hsame ⊢
    exact h.of_same (.putWith env _ io statement c) hsame
  | putResponse io statement =>
    rw [afterCall_eq hstep] at hsame ⊢
    exact h.of_same (.putWith env _ io statement c) hsame
  | get statement =>
    rw [afterCall_eq hstep] at hsame ⊢
    exact h.of_same (.ran (get_ran env statement c)) hsame
  | getStatements tableName startOffset endOffset =>
    rw [afterCall_eq hstep] at hsame ⊢
    exact h.of_same (.ran (getStatements_ran env tableName startOffset endOffset c)) hsame
  | flush tableName k =>
    cases hstep
    exact h.of_same (.ran (flush_ran tableName k c)) hsame

theorem Reachable.oneEntry (h : Reachable env c) : OneEntry c := by
  obtain ⟨endpoint, isLeader, fs, response, ops, hrun⟩ := h
  refine Run.induct (P := fun _ c => OneEntry c) ?_ (fun _ _ _ _ ht hstep => ht.step hstep) hrun
  constructor <;> simp [SameTables, Tablet.init, entries]

end OneEntry

/-! Any number of requests on one tablet. -/

abbrev Creates (ι : Type*) := Clients ι CreatePhase Call

namespace Creates
open CreatePhase (PhaseInv Claims Moves building_of_adding building_of_inserting)
variable {ι : Type*} {env : Env} {statements : ι → Bytes} {c₀ : Call} {i : ι} {s t : Creates ι}

/-- All requests have arrived, and none has looked up its name. -/
def start (c₀ : Call) : Creates ι := ⟨c₀, fun _ => .lookUp⟩

/-- At most one request for a name has been answered `true`, each table of `table_map_` has one
entry in `tablet_manifest_`, and once all requests are answered there are no other entries and the
two maps have the same keys. -/
structure OneTable (env : Env) (statements : ι → Bytes) (s : Creates ι) : Prop where
  once : ∀ i j name, nameOf env (statements i) = some name →
    nameOf env (statements j) = some name → (s.own i).answer = some (.ok true) →
    (s.own j).answer = some (.ok true) → i = j
  entry : ∀ name ∈ s.shared.tablet.tableMap, entries s.shared name = 1
  answered : (∀ i, (s.own i).answer.isSome = true) →
    (∀ name, name ∉ s.shared.tablet.tableMap → entries s.shared name = 0) ∧ SameTables s.shared

/-- No request looks up a name while another is between its lookup of the name and its insertion;
a request counts when each of its columns has its three parts. -/
def LooksUpAlone (env : Env) (statements : ι → Bytes) (i : ι) (s : Creates ι) : Prop :=
  s.own i = .lookUp → HasParts env (columns env (statements i)) → ∀ j,
    HasParts env (columns env (statements j)) →
    nameOf env (statements j) = nameOf env (statements i) → (s.own j).building = none

structure CreateInv (env : Env) (statements : ι → Bytes) (c₀ : Call) (s : Creates ι) : Prop where
  same : SameTables s.shared
  kept : ∀ name ∈ c₀.tablet.tableMap, name ∈ s.shared.tablet.tableMap
  source : ∀ name ∈ s.shared.tablet.tableMap, name ∈ c₀.tablet.tableMap ∨
    ∃ i, nameOf env (statements i) = some name ∧ s.own i = .finished (.ok true)
  phase : ∀ i, PhaseInv env (statements i) c₀ s.shared (s.own i)

/-- What holds when each lookup is alone: no two requests lay claim to one name. -/
structure AloneInv (env : Env) (statements : ι → Bytes) (s : Creates ι) : Prop where
  unique : ∀ i j name, Claims env (statements i) (s.own i) name →
    Claims env (statements j) (s.own j) name → i = j
  absent : ∀ i name, Claims env (statements i) (s.own i) name →
    (s.own i).building = some name → name ∉ s.shared.tablet.tableMap
  entry : ∀ name ∈ s.shared.tablet.tableMap, entries s.shared name = 1
  pending : ∀ i name, (s.own i).inserting = some name → entries s.shared name = 1
  none : ∀ name, name ∉ s.shared.tablet.tableMap → (∀ i, (s.own i).inserting ≠ some name) →
    entries s.shared name = 0

theorem AloneInv.oneTable (h : AloneInv env statements s) (hinv : CreateInv env statements c₀ s) :
    OneTable env statements s := by
  have hclaims : ∀ k name, nameOf env (statements k) = some name →
      (s.own k).answer = some (.ok true) → Claims env (statements k) (s.own k) name := by
    intro k name hk hanswer
    have hfinished : s.own k = .finished (.ok true) := by
      cases hown : s.own k <;> simp_all [CreatePhase.answer]
    exact ⟨hk, (hinv.phase k).parts (.inr (.inr hfinished)), .inr hfinished⟩
  constructor
  · intro i j name hi hj hanswer hanswer'
    exact h.unique i j name (hclaims i name hi hanswer) (hclaims j name hj hanswer')
  · exact h.entry
  · intro hall
    refine ⟨fun name hname => h.none name hname fun i hi => ?_, hinv.same⟩
    have hanswered := hall i
    cases hown : s.own i <;> simp_all [CreatePhase.answer, CreatePhase.inserting]

theorem CreateInv.init (h : OneEntry c₀) :
    CreateInv env statements c₀ (Creates.start c₀) := by
  refine ⟨h.same, fun _ hname => hname, fun _ hname => .inl hname, fun i => ?_⟩
  constructor <;> simp [Creates.start, CreatePhase.building, CreatePhase.adding,
    CreatePhase.inserting]

theorem AloneInv.init (h : OneEntry c₀) : AloneInv env statements (Creates.start c₀) := by
  have hnot : ∀ i name, ¬ Claims env (statements i) ((Creates.start c₀).own i) name := by
    intro i name hclaims
    have hmade := hclaims.made
    simp [Creates.start, CreatePhase.building] at hmade
  constructor
  · exact fun i j name hi => absurd hi (hnot i name)
  · exact fun i name hi => absurd hi (hnot i name)
  · exact h.one
  · intro i name hi
    cases hi
  · exact fun name hname _ => h.none name hname

variable [DecidableEq ι]

def step (env : Env) (statements : ι → Bytes) : ι → Creates ι → Option (Creates ι) :=
  Clients.step fun i => CreatePhase.step env (statements i)

theorem moves_of_step (h : step env statements i s = some t) :
    Moves env (statements i) (s.own i) s.shared (t.own i) t.shared := by
  obtain ⟨own, shared, hnext, rfl⟩ := Clients.step_eq_some.mp h
  have hmoves := CreatePhase.moves_of_step hnext
  rwa [← Function.update_self i own s.own] at hmoves

theorem CreateInv.step (h : CreateInv env statements c₀ s)
    (hstep : Creates.step env statements i s = some t) : CreateInv env statements c₀ t := by
  have hmoves := moves_of_step hstep
  have hmem := hmoves.mem_tableMap
  have hgrows : ∀ name ∈ s.shared.tablet.tableMap, name ∈ t.shared.tablet.tableMap :=
    fun name hname => (hmem name).mpr (.inl hname)
  constructor
  · exact hmoves.sameTables h.same
  · exact fun name hname => hgrows name (h.kept name hname)
  · intro name hname
    rcases (hmem name).mp hname with hname | hinsert
    · rcases h.source name hname with hname | ⟨j, hj, hown⟩
      · exact .inl hname
      · have hne : j ≠ i := by
          rintro rfl
          rw [hown] at hmoves
          cases hmoves
        exact .inr ⟨j, hj, (Clients.own_of_ne hstep hne).trans hown⟩
    · have hclaims := Claims.of_inserting (h.phase i) hinsert
      exact .inr ⟨i, hclaims.named, hmoves.finished hinsert⟩
  · intro j
    by_cases hj : j = i
    · subst hj
      exact hmoves.phaseInv (h.phase j) h.kept
    · rw [Clients.own_of_ne hstep hj]
      exact (h.phase j).mono hgrows

theorem AloneInv.unique_step (h : AloneInv env statements s)
    (hinv : CreateInv env statements c₀ s) (halone : LooksUpAlone env statements i s)
    (hstep : Creates.step env statements i s = some t) {j k : ι} {name : Bytes}
    (hj : Claims env (statements j) (t.own j) name)
    (hk : Claims env (statements k) (t.own k) name) : j = k := by
  have hmoves := moves_of_step hstep
  -- a claim against one that this step makes
  have hnew : ∀ k ≠ i, Claims env (statements k) (t.own k) name → s.own i = .lookUp →
      name ∉ s.shared.tablet.tableMap → Claims env (statements i) (t.own i) name → False := by
    intro k hki hk hlook hmem hi
    rw [Clients.own_of_ne hstep hki] at hk
    rcases hk.made with hbuilding | hfinished
    · have hnone := halone hlook hi.parts k hk.parts (hk.named.trans hi.named.symm)
      rw [hnone] at hbuilding
      cases hbuilding
    · exact hmem ((hinv.phase k).inserted hfinished name hk.named)
  have hold : ∀ k, Claims env (statements k) (t.own k) name →
      Claims env (statements k) (s.own k) name ∨
        k = i ∧ s.own i = .lookUp ∧ name ∉ s.shared.tablet.tableMap := by
    intro k hk
    by_cases hki : k = i
    · subst hki
      exact (hmoves.claims (hinv.phase k) hk).imp_right fun hw => ⟨rfl, hw⟩
    · rw [Clients.own_of_ne hstep hki] at hk
      exact .inl hk
  by_contra hne
  rcases hold j hj with hjs | ⟨rfl, hlook, hmem⟩
  · rcases hold k hk with hks | ⟨rfl, hlook, hmem⟩
    · exact hne (h.unique j k name hjs hks)
    · exact hnew j hne hj hlook hmem hk
  · exact hnew k (Ne.symm hne) hk hlook hmem hj

theorem AloneInv.step (h : AloneInv env statements s) (hinv : CreateInv env statements c₀ s)
    (halone : LooksUpAlone env statements i s)
    (hstep : Creates.step env statements i s = some t) : AloneInv env statements t := by
  have hmoves := moves_of_step hstep
  have hmem := hmoves.mem_tableMap
  have hcount := hmoves.entries (hinv.phase i)
  have hunique : ∀ j k name, Claims env (statements j) (t.own j) name →
      Claims env (statements k) (t.own k) name → j = k :=
    fun j k name => h.unique_step hinv halone hstep
  -- before the entry of a name is added there is none
  have hzero : ∀ name, (s.own i).adding = some name → entries s.shared name = 0 := by
    intro name hadd
    have hclaims := Claims.of_adding (hinv.phase i) hadd
    obtain ⟨hbuilding, hnone⟩ := building_of_adding hadd
    refine h.none name (h.absent i name hclaims hbuilding) fun j hj => ?_
    obtain rfl := h.unique i j name hclaims (Claims.of_inserting (hinv.phase j) hj)
    rw [hnone] at hj
    cases hj
  constructor
  · exact hunique
  · intro j name hj hbuilding hname
    rcases (hmem name).mp hname with hname | hinsert
    · by_cases hji : j = i
      · subst hji
        rcases hmoves.claims (hinv.phase j) hj with hjs | ⟨-, hnot⟩
        · have hjb := hjs.made.resolve_right (hmoves.not_finished _)
          exact h.absent j name hjs hjb hname
        · exact hnot hname
      · rw [Clients.own_of_ne hstep hji] at hj hbuilding
        exact h.absent j name hj hbuilding hname
    · have hi := hmoves.keeps_claims (Claims.of_inserting (hinv.phase i) hinsert)
      obtain rfl := hunique j i name hj hi
      rw [hmoves.finished hinsert] at hbuilding
      cases hbuilding
  · intro name hname
    rcases (hmem name).mp hname with hname | hinsert
    · have hone := h.entry name hname
      have hadd : (s.own i).adding ≠ some name := by
        intro hadd
        rw [hzero name hadd] at hone
        cases hone
      rw [hcount, hone, if_neg hadd]
    · have hadd : (s.own i).adding ≠ some name := by
        intro hadd
        rw [(building_of_adding hadd).2] at hinsert
        cases hinsert
      rw [hcount, h.pending i name hinsert, if_neg hadd]
  · intro j name hj
    by_cases hji : j = i
    · subst hji
      have hadd := hmoves.inserting_iff_adding.mp hj
      rw [hcount, hzero name hadd, if_pos hadd]
    · rw [Clients.own_of_ne hstep hji] at hj
      have hone := h.pending j name hj
      have hadd : (s.own i).adding ≠ some name := by
        intro hadd
        rw [hzero name hadd] at hone
        cases hone
      rw [hcount, hone, if_neg hadd]
  · intro name hname hnone
    have hadd : (s.own i).adding ≠ some name :=
      fun hadd => hnone i (hmoves.inserting_iff_adding.mpr hadd)
    have hold : name ∉ s.shared.tablet.tableMap := fun hold => hname ((hmem name).mpr (.inl hold))
    rw [hcount, if_neg hadd, Nat.add_zero]
    refine h.none name hold fun j hj => ?_
    by_cases hji : j = i
    · subst hji
      exact hname ((hmem name).mpr (.inr hj))
    · rw [← Clients.own_of_ne hstep hji] at hj
      exact hnone j hj

theorem CreateInv.of_run (h : OneEntry c₀) {es : List ι}
    (hrun : run (Creates.step env statements) es (Creates.start c₀) = some s) :
    CreateInv env statements c₀ s :=
  Run.induct (P := fun _ s => CreateInv env statements c₀ s) (.init h)
    (fun _ _ _ _ ht hstep => ht.step hstep) hrun

/-- A request that lays claim to a name is answered `true` in the end. -/
theorem answered_of_claims {es : List ι} {name : Bytes}
    (hrun : run (Creates.step env statements) es s = some t)
    (hclaims : Claims env (statements i) (s.own i) name)
    (hanswered : (t.own i).answer.isSome = true) : (t.own i).answer = some (.ok true) := by
  have hkept : Claims env (statements i) (t.own i) name := by
    refine Clients.own_of_run (P := fun phase => Claims env (statements i) phase name)
      (fun own shared own' shared' hown hnext => ?_) hrun hclaims
    exact (CreatePhase.moves_of_step hnext).keeps_claims hown
  rcases hkept.made with hbuilding | hfinished
  · cases hown : t.own i <;> simp_all [CreatePhase.building, CreatePhase.answer]
  · rw [hfinished]
    rfl

theorem OneTable.along (h : OneEntry c₀) {es : List ι}
    (hrun : run (Creates.step env statements) es (Creates.start c₀) = some s)
    (hall : ∀ i, (s.own i).answer.isSome = true) (htable : OneTable env statements s) :
    Run.Along (Creates.step env statements) (LooksUpAlone env statements) es
      (Creates.start c₀) := by
  intro pre i post t hes ht hlook hparts j hpartsj hname
  subst hes
  by_contra hbuilding
  obtain ⟨name, hbuilding⟩ := Option.ne_none_iff_exists'.mp hbuilding
  have hinv := CreateInv.of_run h ht
  obtain ⟨hnamej, hfresh⟩ := (hinv.phase j).named name hbuilding
  rw [Run.run_append, ht, Option.bind_some] at hrun
  have hj := answered_of_claims hrun ⟨hnamej, hpartsj, .inl hbuilding⟩ (hall j)
  obtain ⟨u, hu, hrest⟩ := Option.bind_eq_some_iff.mp hrun
  have hmoves := moves_of_step hu
  rw [hlook] at hmoves
  have hnamei := hname.symm.trans hnamej
  rcases hmoves.of_lookUp hnamei hparts with hmem | hclaims
  · rcases hinv.source name hmem with hold | ⟨k, hnamek, hfinished⟩
    · exact hfresh hold
    · have hpartsk := (hinv.phase k).parts (.inr (.inr hfinished))
      have hk := answered_of_claims hrun ⟨hnamek, hpartsk, .inr hfinished⟩ (hall k)
      obtain rfl := htable.once j k name hnamej hnamek hj hk
      rw [hfinished] at hbuilding
      cases hbuilding
  · have hi := answered_of_claims hrest hclaims (hall i)
    obtain rfl := htable.once i j name hnamei hnamej hi hj
    rw [hlook] at hbuilding
    cases hbuilding

/-- In a run in which each lookup is alone, one table is made of each name in every state; and a run
to the end in which one table was made of each name is such a run. -/
theorem oneTable_run (hreach : Reachable env c₀) (es : List ι) :
    (Run.Along (Creates.step env statements) (LooksUpAlone env statements) es (Creates.start c₀) →
      Run.Always (Creates.step env statements) (OneTable env statements) es
        (Creates.start c₀)) ∧
    ∀ s, run (Creates.step env statements) es (Creates.start c₀) = some s →
      (∀ i, (s.own i).answer.isSome = true) → OneTable env statements s →
      Run.Along (Creates.step env statements) (LooksUpAlone env statements) es
        (Creates.start c₀) := by
  have hone := hreach.oneEntry
  constructor
  · intro halong
    have hboth := Run.always_of_along
      (P := fun s => CreateInv env statements c₀ s ∧ AloneInv env statements s)
      ⟨.init hone, .init hone⟩
      (fun i t u ht halone hstep => ⟨ht.1.step hstep, ht.2.step ht.1 halone hstep⟩) halong
    intro pre t hpre ht
    obtain ⟨hinv, halone⟩ := hboth pre t hpre ht
    exact halone.oneTable hinv
  · intro s hrun hall htable
    exact htable.along hone hrun hall

theorem reachable_newNode : Reachable Env.default newNode :=
  ⟨_, _, _, _, [], rfl⟩

theorem oneTable_run_two :
    let statements : Bool → Bytes := fun _ => ascii "create t c,string,true"
    (Run.Along (Creates.step Env.default statements) (LooksUpAlone Env.default statements)
        [true, true, true, true, false] (Creates.start newNode) →
      Run.Always (Creates.step Env.default statements) (OneTable Env.default statements)
        [true, true, true, true, false] (Creates.start newNode)) ∧
    ∀ s, run (Creates.step Env.default statements) [true, true, true, true, false]
        (Creates.start newNode) = some s →
      (∀ i, (s.own i).answer.isSome = true) → OneTable Env.default statements s →
      Run.Along (Creates.step Env.default statements) (LooksUpAlone Env.default statements)
        [true, true, true, true, false] (Creates.start newNode) :=
  oneTable_run reachable_newNode [true, true, true, true, false]

/-- Both requests have looked the name up before either inserts it. -/
theorem two_tables_of_one_name :
    let statements : Bool → Bytes := fun _ => ascii "create t c,string,true"
    ∃ s, run (Creates.step Env.default statements)
        [true, false, true, true, true, false, false, false] (Creates.start newNode) = some s ∧
      (∀ i, (s.own i).answer = some (.ok true)) ∧ entries s.shared (ascii "t") = 2 ∧
      ¬ OneTable Env.default statements s := by
  intro statements
  have hend : (run (Creates.step Env.default statements)
      [true, false, true, true, true, false, false, false] (Creates.start newNode)).map
        (fun s => ((s.own true).answer, (s.own false).answer, entries s.shared (ascii "t"))) =
      some (some (.ok true), some (.ok true), 2) := by
    decide +kernel
  obtain ⟨s, hs, hvalues⟩ := Option.map_eq_some_iff.mp hend
  obtain ⟨htrue, hrest⟩ := Prod.mk.inj hvalues
  obtain ⟨hfalse, hcount⟩ := Prod.mk.inj hrest
  have hall : ∀ i, (s.own i).answer = some (.ok true) := by
    intro i
    cases i with
    | true => exact htrue
    | false => exact hfalse
  refine ⟨s, hs, hall, hcount, fun htable => ?_⟩
  have hname : nameOf Env.default (ascii "create t c,string,true") = some (ascii "t") := by
    decide +kernel
  cases htable.once true false (ascii "t") hname hname htrue hfalse

end Creates
end Ibdb.Cluster
