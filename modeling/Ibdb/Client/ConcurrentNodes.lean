import Ibdb.Client.Znodes

/-! Clients that create nodes side by side, with the parents they need. -/
namespace Ibdb.Client
open Ibdb.Base Std

/-- `Init` has returned true, and the client has not been closed. -/
structure ZkClient.Ready (c : ZkClient) : Prop where
  connected : c.notConnected = false
  openAcl : c.aclMap[0]? = some .openAclUnsafe
  readAcl : c.aclMap[1]? = some .readAclUnsafe

theorem ZkClient.init_ready {zk : Zookeeper} {servers : Bytes} {sessionTimeout : ℕ}
    {events : List ZkEvent} {s : ZkState}
    (h : ZkClient.init zk ⟨.new servers sessionTimeout, events⟩ = (.ok true, s)) :
    s.client.Ready := by
  cases hzh : zk.zookeeperInit events servers sessionTimeout with
  | none =>
    simp [ZkClient.init, zookeeperInit, ZkClient.update, ZkClient.new, Exec.bind_apply, hzh] at h
  | some zh =>
    simp [ZkClient.init, zookeeperInit, ZkClient.update, ZkClient.new, Exec.bind_apply, hzh] at h
    subst h
    constructor
    · rfl
    · simp only [Std.ExtTreeMap.getElem?_insertIfNew]
      simp
    · simp only [Std.ExtTreeMap.getElem?_insertIfNew]
      simp

/-- `CreateNode` of a path with its parents, or `CreateParent`. -/
inductive Creation
  | node (path : List Bytes) (name data : Bytes) (mode acl : ℕ)
  | parent (names : List Bytes)

namespace Creation

def calls (env : Env) (c : ZkClient) : Creation → Calls ZooRequest ZooAnswer Bool
  | node path name data mode acl =>
    createNodeCalls env c (nodePath (path ++ [name])) data mode acl true
  | parent names => createParentCalls env (nodePath names)

def names : Creation → List Bytes
  | node path name _ _ _ => path ++ [name]
  | parent names => names

/-- The nodes below which it creates others. -/
def above : Creation → List (List Bytes)
  | node path _ _ _ _ => path.inits
  | parent names => names.dropLast.inits

/-- What it leaves at a path where nothing is. -/
def written : Creation → List Bytes → Option Znode
  | node path name data mode acl, q =>
    if q = path ++ [name] then some ⟨data, acl = 0 ∧ mode = 0⟩
    else if q ≠ [] ∧ q <+: path then some ⟨q.getLastD [], true⟩
    else none
  | parent names, q => if q ≠ [] ∧ q <+: names then some ⟨q.getLastD [], true⟩ else none

/-- The service takes its requests. -/
def Accepted (maxRequest : ℕ) : Creation → Prop
  | node path name data mode acl => (∀ e ∈ path ++ [name], NodeName e) ∧
    (nodePath (path ++ [name])).length + data.length ≤ maxRequest ∧
    2 * (nodePath path).length ≤ maxRequest ∧ mode ≤ 1 ∧ acl ≤ 1
  | parent names => (∀ e ∈ names, NodeName e) ∧ 2 * (nodePath names).length ≤ maxRequest

/-- What is at its path is not what it would leave there. -/
def Fresh (nodes : List Bytes → Option Znode) : Creation → Prop
  | node path name data _ _ => (nodes (path ++ [name])).map Znode.data ≠ some data
  | parent _ => True

/-- Whether the call returns true, from the nodes there are in the end. -/
def answer (nodes : List Bytes → Option Znode) : Creation → Bool
  | node path name data _ _ => (nodes (path ++ [name])).map Znode.data = some data
  | parent _ => true

end Creation

/-- The calls of one client, one after another, with what each returned. -/
def creationsCalls (env : Env) (c : ZkClient) :
    List Creation → Calls ZooRequest ZooAnswer (List Bool)
  | [] => .done []
  | x :: xs => (x.calls env c).bind fun made =>
    (creationsCalls env c xs).bind fun rest => .done (made :: rest)

/-- Nodes stay as they are, and new ones are as `A` says. -/
def Grows (A : List Bytes → Znode → Prop) (old new : List Bytes → Option Znode) : Prop :=
  (∀ q z, old q = some z → new q = some z) ∧ ∀ q z, new q = some z → old q = some z ∨ A q z

namespace Grows
variable {A B : List Bytes → Znode → Prop} {old mid new : List Bytes → Option Znode}

theorem refl (A : List Bytes → Znode → Prop) (nodes : List Bytes → Option Znode) :
    Grows A nodes nodes :=
  ⟨fun _ _ h => h, fun _ _ h => Or.inl h⟩

theorem trans (h : Grows A old mid) (h' : Grows A mid new) : Grows A old new := by
  refine ⟨fun q z hq => h'.1 q z (h.1 q z hq), fun q z hq => ?_⟩
  rcases h'.2 q z hq with hq | hq
  · exact h.2 q z hq
  · exact Or.inr hq

theorem mono (hA : ∀ q z, A q z → B q z) (h : Grows A old new) : Grows B old new :=
  ⟨h.1, fun q z hq => (h.2 q z hq).imp_right (hA q z)⟩

theorem ne_none {q : List Bytes} (h : Grows A old new) (hq : old q ≠ none) : new q ≠ none := by
  obtain ⟨z, hz⟩ := Option.ne_none_iff_exists'.mp hq
  rw [h.1 q z hz]
  exact Option.some_ne_none z

theorem update {q : List Bytes} {z : Znode} (h : old q = none) :
    Grows (fun p w => p = q ∧ w = z) old (Function.update old q (some z)) := by
  constructor
  · intro p w hp
    have hne : p ≠ q := by
      intro heq
      rw [heq, h] at hp
      cases hp
    rwa [Function.update_of_ne hne]
  · intro p w hp
    by_cases hpq : p = q
    · subst hpq
      rw [Function.update_self] at hp
      exact Or.inr ⟨rfl, (Option.some.inj hp).symm⟩
    · rw [Function.update_of_ne hpq] at hp
      exact Or.inl hp

end Grows

section Create
variable {ι σ : Type} {S : NodeService ι σ} {s : σ}

/-- A request to create a node below one that is shared: it creates the node, or finds one. -/
theorem NodeService.Creates.create (hS : S.Creates) (i : ι) (value : Bytes) {path : List Bytes}
    {name : Bytes} {acl : Acl} {flags : ℕ} {z : Znode} (hnames : ∀ e ∈ path ++ [name], NodeName e)
    (hfits : (nodePath (path ++ [name])).length + value.length ≤ S.maxRequest)
    (hacl : acl ≠ .creatorAllAcl) (hflags : flags ≤ 1) (hpath : S.node s path = some z)
    (hshared : z.shared = true) :
    let answered := S.serve i (.zooCreate (nodePath (path ++ [name])) value acl flags) s
    Grows (fun q w => q = path ++ [name] ∧ w = ⟨value, acl = .openAclUnsafe ∧ flags = 0⟩)
        (S.node s) (S.node answered.2) ∧
      (answered.1.result = zok ∧ S.node answered.2 (path ++ [name]) =
          some ⟨value, acl = .openAclUnsafe ∧ flags = 0⟩ ∨
        answered.1.result = znodeexists ∧ S.node answered.2 = S.node s ∧
          ∃ w, S.node s (path ++ [name]) = some w) := by
  intro answered
  rcases hnode : S.node s (path ++ [name]) with _ | w
  · obtain ⟨hresult, hnodes⟩ :=
      hS.absent i s path name value acl flags z hnames hfits hacl hflags hpath hshared hnode
    rw [hnodes]
    exact ⟨Grows.update hnode, Or.inl ⟨hresult, Function.update_self _ _ _⟩⟩
  · obtain ⟨hresult, hnodes⟩ :=
      hS.present i s path name value acl flags z hnames hfits hacl hflags hpath hshared
        (by rw [hnode]; exact Option.some_ne_none w)
    refine ⟨?_, Or.inr ⟨hresult, hnodes, w, rfl⟩⟩
    rw [hnodes]
    exact Grows.refl _ _

end Create

section Session
variable {ι σ : Type} {S : NodeService ι σ} {s : σ} {todo : ι → List Creation}

def WrittenBy (todo : ι → List Creation) (i : ι) (q : List Bytes) (z : Znode) : Prop :=
  ∃ d ∈ todo i, d.written q = some z

/-- There is a root, and whoever comes by a node may create others below it. -/
def Passable (S : NodeService ι σ) (todo : ι → List Creation) (s : σ) : Prop :=
  S.node s [] ≠ none ∧ ∀ i, ∀ c ∈ todo i, ∀ q ∈ c.above, ∀ z, S.node s q = some z → z.shared = true

/-- One creation writes nothing where the other tells its node by the data. -/
def Creation.Apart (d : Creation) : Creation → Prop
  | .node path name data _ _ => (d.written (path ++ [name])).map Znode.data ≠ some data
  | .parent _ => True

/-- What clients may do side by side on the nodes that there are. -/
structure Plan (S : NodeService ι σ) (s : σ) (todo : ι → List Creation) : Prop where
  accepted : ∀ i, ∀ c ∈ todo i, c.Accepted S.maxRequest
  passable : Passable S todo s
  shared : ∀ i j, ∀ c ∈ todo i, ∀ d ∈ todo j, ∀ q ∈ c.above, ∀ z, d.written q = some z →
    z.shared = true
  fresh : ∀ i, ∀ c ∈ todo i, c.Fresh (S.node s)
  apart : ∀ i j, i ≠ j → ∀ c ∈ todo i, ∀ d ∈ todo j, d.Apart c
  own : ∀ i, (todo i).Pairwise fun c d => c.Apart d

theorem Passable.grows {t : σ} {A : List Bytes → Znode → Prop} (h : Passable S todo s)
    (hgrows : Grows A (S.node s) (S.node t))
    (hA : ∀ q z, A q z → ∀ i, ∀ c ∈ todo i, q ∈ c.above → z.shared = true) :
    Passable S todo t := by
  refine ⟨fun hroot => ?_, fun i c hc q hq z hz => ?_⟩
  · obtain ⟨z, hz⟩ := Option.ne_none_iff_exists'.mp h.1
    rw [hgrows.1 [] z hz] at hroot
    cases hroot
  · rcases hgrows.2 q z hz with hold | hnew
    · exact h.2 i c hc q hq z hold
    · exact hA q z hnew i c hc hq

theorem Creation.Fresh.grows {t : σ} {A : List Bytes → Znode → Prop} {c : Creation}
    (h : c.Fresh (S.node s)) (hgrows : Grows A (S.node s) (S.node t))
    (hA : ∀ q z, A q z → ∃ d : Creation, d.written q = some z ∧ d.Apart c) :
    c.Fresh (S.node t) := by
  cases c with
  | parent names => trivial
  | node path name data mode acl =>
    intro hdata
    obtain ⟨z, hz, hzdata⟩ := Option.map_eq_some_iff.mp hdata
    rcases hgrows.2 _ z hz with hold | hnew
    · exact h (by rw [hold, Option.map_some, hzdata])
    · obtain ⟨d, hd, hapart⟩ := hA _ z hnew
      exact hapart (by rw [hd, Option.map_some, hzdata])

/-- The answer is settled when something is at the path. -/
theorem Creation.answer_grows {t : σ} {A : List Bytes → Znode → Prop} {c : Creation}
    (hgrows : Grows A (S.node s) (S.node t)) (h : S.node s c.names ≠ none) :
    c.answer (S.node t) = c.answer (S.node s) := by
  cases c with
  | parent names => rfl
  | node path name data mode acl =>
    obtain ⟨z, hz⟩ := Option.ne_none_iff_exists'.mp h
    change S.node s (path ++ [name]) = some z at hz
    simp only [answer, hz, hgrows.1 _ z hz]

/-- What the others of the client `i` may do, what all may do, and what one creation does. -/
def OthersWrite (S : NodeService ι σ) (todo : ι → List Creation) (i : ι) (s t : σ) : Prop :=
  Grows (fun q z => ∃ j, j ≠ i ∧ WrittenBy todo j q z) (S.node s) (S.node t)

def AllWrite (S : NodeService ι σ) (todo : ι → List Creation) (s t : σ) : Prop :=
  Grows (fun q z => ∃ i, WrittenBy todo i q z) (S.node s) (S.node t)

def Writes (S : NodeService ι σ) (c : Creation) (s t : σ) : Prop :=
  Grows (fun q z => c.written q = some z) (S.node s) (S.node t)

theorem OthersWrite.refl (i : ι) (s : σ) : OthersWrite S todo i s s := Grows.refl _ _

theorem OthersWrite.trans {i : ι} {t u : σ} (hst : OthersWrite S todo i s t)
    (htu : OthersWrite S todo i t u) : OthersWrite S todo i s u := Grows.trans hst htu

def Before (S : NodeService ι σ) (todo : ι → List Creation) (rest : List Creation) (s : σ) : Prop :=
  Passable S todo s ∧ ∀ d ∈ rest, d.Fresh (S.node s)

section Plan
variable {start : σ} {i : ι} {rest : List Creation} {t : σ}

/-- Neither the others nor a creation that is apart disturb what a client has yet to create. -/
theorem Plan.before (hplan : Plan S start todo) (hrest : ∀ d ∈ rest, d ∈ todo i) {c : Creation}
    (hshared : ∀ q z, c.written q = some z → ∀ j, ∀ d ∈ todo j, q ∈ d.above → z.shared = true)
    (hapart : ∀ d ∈ rest, c.Apart d) (hst : OthersWrite S todo i s t ∨ Writes S c s t)
    (h : Before S todo rest s) : Before S todo rest t := by
  obtain ⟨hpassable, hfresh⟩ := h
  rcases hst with hothers | hwrites
  · refine ⟨hpassable.grows hothers ?_, fun d hd => (hfresh d hd).grows hothers ?_⟩
    · rintro q z ⟨j, -, d, hd, hz⟩ k c hc hq
      exact hplan.shared k j c hc d hd q hq z hz
    · rintro q z ⟨j, hj, e, he, hz⟩
      exact ⟨e, hz, hplan.apart i j (Ne.symm hj) d (hrest d hd) e he⟩
  · refine ⟨hpassable.grows hwrites ?_, fun d hd => (hfresh d hd).grows hwrites ?_⟩
    · intro q z hz k d hd hq
      exact hshared q z hz k d hd hq
    · exact fun q z hz => ⟨c, hz, hapart d hd⟩

theorem Creation.parent_written {way : List Bytes} {q : List Bytes} {z : Znode}
    (h : (Creation.parent way).written q = some z) : z = ⟨q.getLastD [], true⟩ := by
  rw [written] at h
  split_ifs at h
  exact (Option.some.inj h).symm

/-- The parents of a path: in the end none is missing. -/
theorem Plan.ensures_parents (hS : S.Creates) (hplan : Plan S start todo) {way : List Bytes}
    (hrest : ∀ d ∈ rest, d ∈ todo i) (hapart : ∀ d ∈ rest, (Creation.parent way).Apart d)
    (hnames : ∀ e ∈ way, NodeName e) (hfits : 2 * (nodePath way).length ≤ S.maxRequest)
    (habove : ∀ q name, q ++ [name] <+: way → ∃ d ∈ todo i, q ∈ d.above)
    (hbefore : Before S todo rest s) :
    (Calls.makeAll parentRequest madeOrFound [] way).Ensures (S.serve i) (OthersWrite S todo i)
      (Writes S (.parent way)) (fun made t => made = true ∧ Before S todo rest t ∧
        ∀ q, q <+: way → S.node t q ≠ none) s := by
  refine Calls.ensures_makeAll ?_ ?_ ?_ (List.nil_append way) hbefore ?_
  · intro s t hst h
    refine hplan.before hrest ?_ hapart hst h
    intro q z hz j d hd hq
    rw [Creation.parent_written hz]
  · exact fun q s t hst h =>
      hst.elim (fun hst => Grows.ne_none hst h) fun hst => Grows.ne_none hst h
  · intro q name t hq hbase hthere
    obtain ⟨z, hz⟩ := Option.ne_none_iff_exists'.mp hthere
    obtain ⟨d, hd, hmem⟩ := habove q name hq
    have hlength := length_nodePath_le hq
    have hname := length_getLastD_le (q ++ [name])
    have hopen : Acl.openAclUnsafe ≠ .creatorAllAcl := by decide
    obtain ⟨hgrows, hanswer⟩ := hS.create i ((q ++ [name]).getLastD [])
      (fun e he => hnames e (hq.subset he)) (by omega) hopen (Nat.zero_le 1) hz
      (hbase.1.2 i d hd q hmem z hz)
    refine ⟨?_, ?_, hgrows.mono fun p w hw => ?_⟩
    · rcases hanswer with ⟨hok, -⟩ | ⟨hexists, -⟩
      · exact decide_eq_true (Or.inr hok)
      · exact decide_eq_true (Or.inl hexists)
    · rcases hanswer with ⟨-, hmade⟩ | ⟨-, hsame, w, hfound⟩
      · exact ne_of_eq_of_ne hmade (Option.some_ne_none _)
      · rw [parentRequest, hsame, hfound]
        exact Option.some_ne_none w
    · obtain ⟨rfl, rfl⟩ := hw
      rw [Creation.written, if_pos ⟨by simp, hq⟩]
      rfl
  · intro p hp
    rw [List.prefix_nil.mp hp]
    exact hbefore.1.1

theorem Creation.written_of_parent {path : List Bytes} {name data : Bytes} {mode acl : ℕ}
    {q : List Bytes} {z : Znode} (h : (Creation.parent path).written q = some z) :
    (Creation.node path name data mode acl).written q = some z := by
  rw [written] at h
  split_ifs at h with hq
  rw [written, if_neg, if_pos hq, h]
  intro heq
  have hlength := hq.2.length_le
  rw [heq, List.length_append, List.length_singleton] at hlength
  omega

theorem Creation.Apart.parent {path : List Bytes} {name data : Bytes} {mode acl : ℕ}
    {d : Creation} (h : (Creation.node path name data mode acl).Apart d) :
    (Creation.parent path).Apart d := by
  cases d with
  | parent names => trivial
  | node path' name' data' mode' acl' =>
    intro hdata
    obtain ⟨z, hz, hzdata⟩ := Option.map_eq_some_iff.mp hdata
    exact h (by rw [written_of_parent hz, Option.map_some, hzdata])

/-- The parents of a node are made apart from the node. -/
theorem Creation.apart_parent (path : List Bytes) (name data : Bytes) (mode acl : ℕ) :
    (Creation.parent path).Apart (.node path name data mode acl) := by
  have hnone : (Creation.parent path).written (path ++ [name]) = none := by
    rw [written, if_neg]
    intro hw
    have hlength := hw.2.length_le
    rw [List.length_append, List.length_singleton] at hlength
    omega
  rw [Apart, hnone]
  exact (Option.some_ne_none data).symm

/-- The two lists of access rights that a creation can name. -/
theorem ZkClient.Ready.vector {client : ZkClient} (h : client.Ready) {acl : ℕ} (hacl : acl ≤ 1) :
    ∃ vector, client.aclMap[acl]? = some vector ∧ (vector = .openAclUnsafe ↔ acl = 0) ∧
      vector ≠ .creatorAllAcl := by
  rcases Nat.le_one_iff_eq_zero_or_eq_one.mp hacl with rfl | rfl
  · exact ⟨_, h.openAcl, by simp, by decide⟩
  · exact ⟨_, h.readAcl, by simp, by decide⟩

/-- The request for the node itself: afterwards there is one, and the answer says whose. -/
theorem NodeService.Creates.own (hS : S.Creates) (i : ι) {path : List Bytes} {name data : Bytes}
    {mode acl : ℕ} {vector : Acl} {z : Znode}
    (haccepted : (Creation.node path name data mode acl).Accepted S.maxRequest)
    (hopen : vector = .openAclUnsafe ↔ acl = 0) (hcreator : vector ≠ .creatorAllAcl)
    (hpath : S.node s path = some z) (hshared : z.shared = true)
    (hfresh : (Creation.node path name data mode acl).Fresh (S.node s)) :
    let answered := S.serve i (.zooCreate (nodePath (path ++ [name])) data vector mode) s
    Writes S (.node path name data mode acl) s answered.2 ∧
      S.node answered.2 (path ++ [name]) ≠ none ∧
      decide (answered.1.result = zok) =
        (Creation.node path name data mode acl).answer (S.node answered.2) := by
  obtain ⟨hnames, hfits, -, hmode, -⟩ := haccepted
  obtain ⟨hgrows, hanswer⟩ := hS.create i data hnames hfits hcreator hmode hpath hshared
  refine ⟨hgrows.mono fun q w hw => ?_, ?_, ?_⟩
  · obtain ⟨rfl, rfl⟩ := hw
    simp [Creation.written, hopen]
  · rcases hanswer with ⟨-, hmade⟩ | ⟨-, hsame, w, hw⟩
    · rw [hmade]
      exact Option.some_ne_none _
    · rw [hsame, hw]
      exact Option.some_ne_none w
  · rcases hanswer with ⟨hok, hmade⟩ | ⟨hexists, hsame, w, hw⟩
    · simp [Creation.answer, hmade, hok]
    · rw [Creation.Fresh, hw] at hfresh
      simp only [Creation.answer, hexists, hsame, hw, decide_eq_false hfresh]
      rfl

/-- One call: it returns true when the node is its own in the end, and leaves all its parents. -/
theorem Plan.ensures_creation {env : Env} (hsplit : env.split = boostSplit) {client : ZkClient}
    (hready : client.Ready) (hS : S.Creates) (hplan : Plan S start todo) {c : Creation}
    (hc : c ∈ todo i) (hrest : ∀ d ∈ rest, d ∈ todo i) (hapart : ∀ d ∈ rest, c.Apart d)
    (hbefore : Before S todo (c :: rest) s) :
    (c.calls env client).Ensures (S.serve i) (OthersWrite S todo i) (Writes S c)
      (fun made t => made = c.answer (S.node t) ∧ Before S todo rest t ∧
        ∀ q, q <+: c.names → S.node t q ≠ none) s := by
  have haccepted := hplan.accepted i c hc
  cases c with
  | parent names =>
    obtain ⟨hnames, hfits⟩ := haccepted
    rw [Creation.calls, createParentCalls_nodePath hsplit hnames]
    refine (hplan.ensures_parents hS hrest hapart hnames hfits ?_
      ⟨hbefore.1, fun d hd => hbefore.2 d (List.mem_cons_of_mem _ hd)⟩).mono (fun _ _ h => h) ?_
    · intro q name hq
      refine ⟨_, hc, (List.mem_inits _ _).mpr ?_⟩
      obtain ⟨below, rfl⟩ := hq
      rw [List.append_assoc, List.dropLast_append_of_ne_nil (by simp)]
      exact List.prefix_append _ _
    · exact fun made t h => h
  | node path name data mode acl =>
    obtain ⟨hnames, -, hfits, -, hacl⟩ := hplan.accepted i _ hc
    obtain ⟨vector, hvector, hopen, hcreator⟩ := hready.vector hacl
    have hslash : 47 ∉ name := (hnames name (by simp)).slash_not_mem
    have hnames' : ∀ e ∈ path, NodeName e := fun e he => hnames e (List.mem_append_left _ he)
    rw [Creation.calls, createNodeCalls, hready.connected, if_neg Bool.false_ne_true, hvector]
    simp only [if_true]
    rw [parentOf_nodePath hslash, createParentCalls_nodePath hsplit hnames']
    have hall : ∀ d ∈ Creation.node path name data mode acl :: rest, d ∈ todo i :=
      List.forall_mem_cons.mpr ⟨hc, hrest⟩
    have hfirst : ∀ d ∈ Creation.node path name data mode acl :: rest,
        (Creation.parent path).Apart d :=
      List.forall_mem_cons.mpr ⟨Creation.apart_parent _ _ _ _ _, fun d hd => (hapart d hd).parent⟩
    have hparents := hplan.ensures_parents hS hall hfirst hnames' hfits
      (fun q e hq => ⟨_, hc, (List.mem_inits _ _).mpr ((List.prefix_append _ _).trans hq)⟩) hbefore
    refine (hparents.mono ?_ fun made t h => h).bind (OthersWrite.refl i) ?_
    · exact fun u v huv => huv.mono fun q z hz => Creation.written_of_parent hz
    · rintro made u ⟨rfl, hu, hthere⟩ v huv
      -- its own node, below parents that no one takes away
      have hv : Before S todo (.node path name data mode acl :: rest) v :=
        hplan.before hall (fun q z hz _ _ _ _ => by rw [Creation.parent_written hz]) hfirst
          (Or.inl huv) hu
      have hstays : ∀ q, q <+: path → S.node v q ≠ none :=
        fun q hq => Grows.ne_none huv (hthere q hq)
      obtain ⟨z, hz⟩ := Option.ne_none_iff_exists'.mp (hstays path List.prefix_rfl)
      have hshared := hv.1.2 i _ hc path ((List.mem_inits _ _).mpr List.prefix_rfl) z hz
      obtain ⟨hwrites, hfound, hanswer⟩ :=
        hS.own i haccepted hopen hcreator hz hshared (hv.2 _ List.mem_cons_self)
      refine ⟨hwrites, fun w hw => ⟨?_, ?_, fun q hq => Grows.ne_none hw ?_⟩⟩
      · rwa [Creation.answer_grows (c := .node path name data mode acl) hw hfound]
      · refine hplan.before hrest (c := .node path name data mode acl) ?_ hapart (Or.inl hw)
          (hplan.before hrest (c := .node path name data mode acl) ?_ hapart (Or.inr hwrites)
            ⟨hv.1, fun d hd => hv.2 d (List.mem_cons_of_mem _ hd)⟩)
        all_goals exact fun q z hz j d hd hq => hplan.shared j i d hd _ hc q hq z hz
      · rcases List.prefix_concat_iff.mp hq with rfl | hq
        · exact hfound
        · exact Grows.ne_none hwrites (hstays q hq)

theorem Plan.ensures_creations {env : Env} (hsplit : env.split = boostSplit) {client : ZkClient}
    (hready : client.Ready) (hS : S.Creates) (hplan : Plan S start todo)
    (hrest : ∀ d ∈ rest, d ∈ todo i) (hown : rest.Pairwise fun c d => c.Apart d)
    (hbefore : Before S todo rest s) :
    (creationsCalls env client rest).Ensures (S.serve i) (OthersWrite S todo i)
      (fun s t => Grows (WrittenBy todo i) (S.node s) (S.node t))
      (fun results t => results = rest.map (fun c => c.answer (S.node t)) ∧
        ∀ c ∈ rest, ∀ q, q <+: c.names → S.node t q ≠ none) s := by
  induction rest generalizing s with
  | nil => exact fun t hst => ⟨rfl, List.forall_mem_nil _⟩
  | cons c rest ih =>
    obtain ⟨hapart, hown'⟩ := List.pairwise_cons.mp hown
    have hc := hrest c List.mem_cons_self
    have hrest' : ∀ d ∈ rest, d ∈ todo i := fun d hd => hrest d (List.mem_cons_of_mem _ hd)
    have hfirst := hplan.ensures_creation hsplit hready hS hc hrest' hapart hbefore
    refine (hfirst.mono ?_ fun made t h => h).bind (OthersWrite.refl i) ?_
    · exact fun u v huv => huv.mono fun q z hz => ⟨c, hc, hz⟩
    · rintro made u ⟨hmade, hu, hthere⟩
      -- what the first call was told stays so, whatever the calls after it create
      have hstays : ∀ v w,
          OthersWrite S todo i v w ∨ Grows (WrittenBy todo i) (S.node v) (S.node w) →
          (made = c.answer (S.node v) ∧ ∀ q, q <+: c.names → S.node v q ≠ none) →
          made = c.answer (S.node w) ∧ ∀ q, q <+: c.names → S.node w q ≠ none := by
        rintro v w hvw ⟨hmade, hthere⟩
        obtain ⟨A, hA⟩ : ∃ A, Grows A (S.node v) (S.node w) :=
          hvw.elim (fun h => ⟨_, h⟩) fun h => ⟨_, h⟩
        refine ⟨?_, fun q hq => hA.ne_none (hthere q hq)⟩
        rw [Creation.answer_grows hA (hthere _ List.prefix_rfl), hmade]
      refine ((ih hrest' hown' hu).frame hstays ⟨hmade, hthere⟩).map ?_
      rintro results v ⟨⟨hresults, hthere'⟩, hmade', hthere⟩
      exact ⟨by rw [hresults, hmade', List.map_cons], List.forall_mem_cons.mpr ⟨hthere, hthere'⟩⟩

/-- A client's calls are those that the client makes, whatever the library answers. -/
theorem Creation.calls_eq (env : Env) (zk : Zookeeper) (s : ZkState) (path : List Bytes)
    (name data : Bytes) (mode acl : ℕ) (names : List Bytes) :
    ZkClient.createNode env zk (nodePath (path ++ [name])) data mode acl true s =
        ((node path name data mode acl).calls env s.client).exec (zoo zk s.client.zh) s ∧
      ZkClient.createParent env zk (nodePath names) s =
        ((parent names).calls env s.client).exec (zoo zk s.client.zh) s :=
  ⟨createNode_eq _ _ _ _ _ s, createParent_eq _ s⟩

/-- Clients that create nodes side by side, in whatever order the service takes their requests.
Nodes stay as they are, new ones are as some client writes them, and no client is refused because
of another: it has all parents in the end, and `CreateNode` has returned true exactly when the
node has the data of that call. -/
theorem creations_concurrent [DecidableEq ι] {env : Env} (hsplit : env.split = boostSplit)
    {clients : ι → ZkClient} (hready : ∀ i, (clients i).Ready) (hS : S.Creates)
    (hplan : Plan S start todo) {es : List ι} {t : Clients ι (Calls ZooRequest ZooAnswer _) σ}
    (hrun : run (Clients.step (Calls.next S.serve)) es
      ⟨start, fun i => creationsCalls env (clients i) (todo i)⟩ = some t) :
    Grows (fun q z => ∃ i, ∃ c ∈ todo i, c.written q = some z) (S.node start) (S.node t.shared) ∧
      ∀ i results, t.own i = .done results →
        results = (todo i).map (fun c => c.answer (S.node t.shared)) ∧
          ∀ c ∈ todo i, ∀ q, q <+: c.names → S.node t.shared q ≠ none := by
  have hstart : ∀ i, (creationsCalls env (clients i) (todo i)).Ensures (S.serve i)
      (OthersWrite S todo i) (fun s t => Grows (WrittenBy todo i) (S.node s) (S.node t))
      (fun results t => results = (todo i).map (fun c => c.answer (S.node t)) ∧
        ∀ c ∈ todo i, ∀ q, q <+: c.names → S.node t q ≠ none) start :=
    fun i => hplan.ensures_creations hsplit (hready i) hS (fun _ h => h) (hplan.own i)
      ⟨hplan.passable, hplan.fresh i⟩
  have hcompatible : ∀ i j s t, i ≠ j → Grows (WrittenBy todo i) (S.node s) (S.node t) →
      OthersWrite S todo j s t :=
    fun i j s t hij h => h.mono fun q z hz => ⟨i, hij, hz⟩
  constructor
  · have hrefl : ∀ s, AllWrite S todo s s := fun s => Grows.refl _ _
    have htrans : ∀ s t u, AllWrite S todo s t → AllWrite S todo t u → AllWrite S todo s u :=
      fun s t u => Grows.trans
    have hkeeps : ∀ i s t, Grows (WrittenBy todo i) (S.node s) (S.node t) → AllWrite S todo s t :=
      fun i s t h => h.mono fun q z hz => ⟨i, hz⟩
    exact Calls.kept_of_run hrefl htrans OthersWrite.refl (fun _ _ _ _ => OthersWrite.trans)
      hcompatible hkeeps hstart hrun
  · intro i results hdone
    have hensures := Calls.ensures_of_run OthersWrite.refl (fun _ _ _ _ => OthersWrite.trans)
      hcompatible hstart hrun i
    rw [hdone] at hensures
    exact hensures t.shared (OthersWrite.refl i t.shared)

end Plan
end Session

section Example

instance (maxRequest : ℕ) : DecidablePred (Creation.Accepted maxRequest)
  | .node .. | .parent .. => inferInstanceAs (Decidable (_ ∧ _))

instance (nodes : List Bytes → Option Znode) : DecidablePred (Creation.Fresh nodes)
  | .node .. => inferInstanceAs (Decidable (¬ _ = _))
  | .parent .. => inferInstanceAs (Decidable True)

instance (d : Creation) : DecidablePred d.Apart
  | .node .. => inferInstanceAs (Decidable (¬ _ = _))
  | .parent .. => inferInstanceAs (Decidable True)

/-- Two clients that enter themselves in a list, and both want to be the leader. -/
def twoEntries (i : Fin 2) : List Creation :=
  let endpoint := if i = 0 then ascii "1990" else ascii "1991"
  [.node [ascii "list"] endpoint endpoint 1 0, .node [] (ascii "leader") endpoint 1 0]

def onlyRoot : List (List Bytes × Znode) := [([], ⟨[], true⟩)]

def readyClient : ZkClient where
  servers := ascii "127.0.0.1:2181"
  sessionTimeout := 2000
  zh := some 1
  connected := true
  aclMap := ((∅ : ExtTreeMap ℕ Acl compare).insertIfNew 0 .openAclUnsafe).insertIfNew 1 .readAclUnsafe

theorem readyClient_ready : readyClient.Ready where
  connected := rfl
  openAcl := by
    simp only [readyClient, ExtTreeMap.getElem?_insertIfNew]
    simp
  readAcl := by
    simp only [readyClient, ExtTreeMap.getElem?_insertIfNew]
    simp

theorem twoEntries_plan : Plan (treeService (Fin 2)) onlyRoot twoEntries where
  accepted := by decide +kernel
  passable := by
    refine ⟨by decide +kernel, fun i c hc q hq z hz => ?_⟩
    have hz' : onlyRoot.lookup q = some z := hz
    obtain ⟨_, _, hsplit, -⟩ := List.lookup_eq_some_iff.mp hz'
    have hmem : (q, z) ∈ onlyRoot := by rw [hsplit]; simp
    obtain ⟨-, rfl⟩ := Prod.mk.inj (List.mem_singleton.mp hmem)
    rfl
  shared := by
    have hall : ∀ i j, ∀ c ∈ twoEntries i, ∀ d ∈ twoEntries j, ∀ q ∈ c.above,
        (d.written q).all Znode.shared = true := by decide +kernel
    intro i j c hc d hd q hq z hz
    have hq' := hall i j c hc d hd q hq
    rwa [hz] at hq'
  fresh := by decide +kernel
  apart := by decide +kernel
  own := by decide +kernel

/-- Both enter themselves, and the second is the leader. -/
theorem creations_concurrent_two : ∃ t : Clients (Fin 2) (Calls ZooRequest ZooAnswer _) _,
    run (Clients.step (Calls.next (treeService (Fin 2)).serve)) [0, 1, 1, 1, 0, 0]
        ⟨onlyRoot, fun i => creationsCalls .default readyClient (twoEntries i)⟩ = some t ∧
      [true, false] = (twoEntries 0).map (fun c => c.answer fun q => t.shared.lookup q) ∧
      [true, true] = (twoEntries 1).map (fun c => c.answer fun q => t.shared.lookup q) := by
  have hruns : ((run (Clients.step (Calls.next (treeService (Fin 2)).serve))
      [0, 1, 1, 1, 0, 0] ⟨onlyRoot, fun i => creationsCalls .default readyClient (twoEntries i)⟩).map
        fun t => ((t.own 0).result?, (t.own 1).result?)) =
      some (some [true, false], some [true, true]) := by decide +kernel
  obtain ⟨t, ht, hresults⟩ := Option.map_eq_some_iff.mp hruns
  obtain ⟨hfirst, hsecond⟩ := Prod.mk.inj hresults
  have hall := creations_concurrent rfl (fun _ => readyClient_ready) (treeService_creates _)
    twoEntries_plan ht
  exact ⟨t, ht, (hall.2 0 _ (Calls.result?_eq_some.mp hfirst)).1,
    (hall.2 1 _ (Calls.result?_eq_some.mp hsecond)).1⟩

end Example
end Ibdb.Client
