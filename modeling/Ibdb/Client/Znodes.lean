import Ibdb.Base.Splitting
import Ibdb.Client.Zk
import Ibdb.Lib.RelyGuarantee

/-! The nodes that a ZooKeeper service keeps, and the requests that the client's calls make. -/
namespace Ibdb.Client
open Ibdb.Base

def nodePath (names : List Bytes) : Bytes := names.flatMap fun name => ascii "/" ++ name

/-- A name for a node: printable characters without a slash, and not one or two dots. -/
def NodeName (name : Bytes) : Prop :=
  name ≠ [] ∧ name ≠ ascii "." ∧ name ≠ ascii ".." ∧ ∀ b ∈ name, 32 < b ∧ b < 127 ∧ b ≠ 47

instance : DecidablePred NodeName := fun _ => inferInstanceAs (Decidable (_ ∧ _))

/-- A node, and whether every client may list its children, add to them and delete them. -/
structure Znode where
  data : Bytes
  shared : Bool
  deriving DecidableEq

/-- The service that the clients `ι` share, with the nodes it keeps. -/
structure NodeService (ι σ : Type) where
  serve : ι → ZooRequest → σ → ZooAnswer × σ
  node : σ → List Bytes → Option Znode
  /-- How long the path and the data of a request may be. -/
  maxRequest : ℕ

/-- How a service creates nodes below one that is shared. -/
structure NodeService.Creates {ι σ : Type} (S : NodeService ι σ) : Prop where
  absent : ∀ i s path name value acl flags z, (∀ e ∈ path ++ [name], NodeName e) →
    (nodePath (path ++ [name])).length + value.length ≤ S.maxRequest → acl ≠ .creatorAllAcl →
    flags ≤ 1 → S.node s path = some z → z.shared = true → S.node s (path ++ [name]) = none →
    let answered := S.serve i (.zooCreate (nodePath (path ++ [name])) value acl flags) s
    answered.1.result = zok ∧ S.node answered.2 = Function.update (S.node s) (path ++ [name])
      (some ⟨value, acl = .openAclUnsafe ∧ flags = 0⟩)
  present : ∀ i s path name value acl flags z, (∀ e ∈ path ++ [name], NodeName e) →
    (nodePath (path ++ [name])).length + value.length ≤ S.maxRequest → acl ≠ .creatorAllAcl →
    flags ≤ 1 → S.node s path = some z → z.shared = true → S.node s (path ++ [name]) ≠ none →
    let answered := S.serve i (.zooCreate (nodePath (path ++ [name])) value acl flags) s
    answered.1.result = znodeexists ∧ S.node answered.2 = S.node s

/-- How a service lists and deletes nodes below one that is shared. -/
structure NodeService.Deletes {ι σ : Type} (S : NodeService ι σ) : Prop where
  children : ∀ i s path z, path ≠ [] → (∀ e ∈ path, NodeName e) → S.node s path = some z →
    z.shared = true →
    let answered := S.serve i (.zooGetChildren2 (nodePath path)) s
    answered.1.result = zok ∧ S.node answered.2 = S.node s ∧
      ∀ name, name ∈ answered.1.strings ↔ S.node s (path ++ [name]) ≠ none
  leaf : ∀ i s path name z, (∀ e ∈ path ++ [name], NodeName e) → S.node s path = some z →
    z.shared = true → S.node s (path ++ [name]) ≠ none →
    (∀ child, S.node s (path ++ [name, child]) = none) →
    let answered := S.serve i (.zooDelete (nodePath (path ++ [name])) (-1)) s
    answered.1.result = zok ∧ S.node answered.2 = Function.update (S.node s) (path ++ [name]) none
  kept : ∀ i s path name z, (∀ e ∈ path ++ [name], NodeName e) → S.node s path = some z →
    z.shared = true →
    (S.node s (path ++ [name]) = none ∨ ∃ child, S.node s (path ++ [name, child]) ≠ none) →
    let answered := S.serve i (.zooDelete (nodePath (path ++ [name])) (-1)) s
    answered.1.result ≠ zok ∧ S.node answered.2 = S.node s

/-- A request that is answered so that `CreateParent` goes on. -/
def madeOrFound (answer : ZooAnswer) : Bool := answer.result = znodeexists ∨ answer.result = zok

def parentRequest (path : List Bytes) : ZooRequest :=
  .zooCreate (nodePath path) (path.getLastD []) .openAclUnsafe 0

def createNodesCalls (path : Bytes) : List Bytes → Calls ZooRequest ZooAnswer Bool
  | [] => .done true
  | e :: nodes =>
    if e = [] then createNodesCalls path nodes
    else .call (.zooCreate (path ++ ascii "/" ++ e) e .openAclUnsafe 0) fun answer =>
      if madeOrFound answer then createNodesCalls (path ++ ascii "/" ++ e) nodes else .done false

def createParentCalls (env : Env) (parentPath : Bytes) : Calls ZooRequest ZooAnswer Bool :=
  createNodesCalls [] (splitString env parentPath (ascii "/"))

def createNodeCalls (env : Env) (c : ZkClient) (path data : Bytes) (mode acl : ℕ)
    (withParent : Bool) : Calls ZooRequest ZooAnswer Bool :=
  if c.notConnected then .done false
  else
    match c.aclMap[acl]? with
    | none => .done false
    | some vector =>
      (if withParent then createParentCalls env (ZkClient.parentOf path) else .done true).bind
        fun made =>
          if !made then .done false
          else .call (.zooCreate path data vector mode) fun answer => .done (answer.result = zok)

section Exec
variable {env : Env} {zk : Zookeeper}

theorem zoo_answered (zh : Option Handle) (request : ZooRequest) (s : ZkState) :
    zoo zk zh request s =
      (.ok (zk.zoo s.events zh request), ⟨s.client, s.events ++ [.zoo zh request]⟩) := rfl

/-- Calls to the service leave the client as it is. -/
theorem exec_client {β : Type} (zh : Option Handle) (calls : Calls ZooRequest ZooAnswer β)
    (s : ZkState) : ((calls.exec (zoo zk zh)) s).2.client = s.client := by
  induction calls generalizing s with
  | done result => rfl
  | call request next ih =>
    rw [Calls.exec, Exec.bind_ok (zoo_answered zh request s)]
    exact ih _ _

theorem createNodes_eq (path : Bytes) (nodes : List Bytes) (s : ZkState) :
    ZkClient.createNodes zk path nodes s =
      (createNodesCalls path nodes).exec (zoo zk s.client.zh) s := by
  induction nodes generalizing path s with
  | nil => rfl
  | cons e nodes ih =>
    rw [ZkClient.createNodes, createNodesCalls]
    split_ifs with he
    · exact ih path s
    · rw [Exec.bind_ok (Exec.get_apply s), Exec.bind_ok (zoo_answered _ _ s), Calls.exec,
        Exec.bind_ok (zoo_answered _ _ s)]
      generalize zk.zoo s.events _ _ = answer
      by_cases hexists : answer.result = znodeexists
      · simp only [madeOrFound, hexists, true_or, decide_true, if_true]
        exact ih _ _
      · by_cases hok : answer.result = zok
        · simp only [madeOrFound, hok, or_true, decide_true, if_true, ne_eq, not_true_eq_false,
            if_false, if_neg (show ¬ zok = znodeexists by decide)]
          exact ih _ _
        · simp only [madeOrFound, hexists, hok, or_self, decide_false, if_false, ne_eq,
            not_false_eq_true, if_true, Bool.false_eq_true]
          rfl

theorem createParent_eq (parentPath : Bytes) (s : ZkState) :
    ZkClient.createParent env zk parentPath s =
      (createParentCalls env parentPath).exec (zoo zk s.client.zh) s :=
  createNodes_eq _ _ s

/-- `CreateNode` is its calls, whatever the library answers. -/
theorem createNode_eq (path data : Bytes) (mode acl : ℕ) (withParent : Bool) (s : ZkState) :
    ZkClient.createNode env zk path data mode acl withParent s =
      (createNodeCalls env s.client path data mode acl withParent).exec (zoo zk s.client.zh) s := by
  rw [ZkClient.createNode, createNodeCalls, Exec.bind_ok (Exec.get_apply s)]
  by_cases hconnected : s.client.notConnected
  · rw [if_pos hconnected, if_pos hconnected]
    rfl
  · rw [if_neg hconnected, if_neg hconnected]
    cases s.client.aclMap[acl]? with
    | none => rfl
    | some vector =>
      cases withParent with
      | false => rfl
      | true =>
        simp only [if_true]
        rw [Calls.exec_bind, Exec.bind_apply, Exec.bind_apply, createParent_eq]
        have hclient : ((createParentCalls env (ZkClient.parentOf path)).exec
            (zoo zk s.client.zh) s).2.client = s.client := exec_client _ _ s
        revert hclient
        rcases Calls.exec (zoo zk s.client.zh) _ s with ⟨_ | made, t⟩
        · intro _
          rfl
        · intro hclient
          change t.client = s.client at hclient
          cases made with
          | false => rfl
          | true =>
            simp only [Bool.not_true, Bool.false_eq_true, if_false]
            rw [Exec.bind_ok (Exec.get_apply t), Exec.bind_ok (zoo_answered _ _ t), Calls.exec,
              Exec.bind_ok (zoo_answered _ _ t), hclient]
            rfl

end Exec

section Paths

theorem NodeName.slash_not_mem {name : Bytes} (h : NodeName name) : 47 ∉ name :=
  fun hmem => (h.2.2.2 47 hmem).2.2 rfl

theorem nodePath_concat (path : List Bytes) (name : Bytes) :
    nodePath (path ++ [name]) = nodePath path ++ ascii "/" ++ name := by
  simp [nodePath]

theorem nodePath_eq_intercalate {names : List Bytes} (h : names ≠ []) :
    nodePath names = [47].intercalate ([] :: names) := by
  induction names with
  | nil => exact absurd rfl h
  | cons name names ih =>
    rw [List.intercalate_cons_cons]
    rcases names with _ | ⟨next, names⟩
    · simp [nodePath, ascii]
    · have hrest := ih (List.cons_ne_nil _ _)
      rw [List.intercalate_cons_cons] at hrest ⊢
      simp only [nodePath, List.flatMap_cons] at hrest ⊢
      rw [hrest]
      simp [ascii]

theorem length_nodePath_le {p q : List Bytes} (h : p <+: q) :
    (nodePath p).length ≤ (nodePath q).length := by
  obtain ⟨rest, rfl⟩ := h
  rw [nodePath, nodePath, List.flatMap_append, List.length_append]
  exact Nat.le_add_right _ _

theorem length_getLastD_le (path : List Bytes) :
    (path.getLastD []).length ≤ (nodePath path).length := by
  rcases List.eq_nil_or_concat path with rfl | ⟨path, name, rfl⟩
  · rfl
  · rw [List.concat_eq_append, List.getLastD_concat, nodePath_concat, List.length_append]
    exact Nat.le_add_left _ _

theorem rdropWhile_append_of_all {p : UInt8 → Bool} {l name : Bytes} (h : ∀ b ∈ name, p b) :
    (l ++ name).rdropWhile p = l.rdropWhile p := by
  induction name using List.reverseRecOn with
  | nil => rw [List.append_nil]
  | append_singleton name b ih =>
    rw [← List.append_assoc, List.rdropWhile_concat_pos _ _ _ (h b (by simp))]
    exact ih fun b hb => h b (by simp [hb])

/-- The parent of a path, when the last name has no slash. -/
theorem parentOf_nodePath {path : List Bytes} {name : Bytes} (h : 47 ∉ name) :
    ZkClient.parentOf (nodePath (path ++ [name])) = nodePath path := by
  have hdrop : (nodePath (path ++ [name])).rdropWhile (fun b => !(ascii "/").contains b) =
      nodePath path ++ ascii "/" := by
    rw [nodePath_concat, rdropWhile_append_of_all]
    · exact List.rdropWhile_concat_neg _ _ _ (by decide)
    · intro b hb
      have hne : b ≠ 47 := fun heq => h (heq ▸ hb)
      simpa [ascii] using hne
  rw [ZkClient.parentOf, hdrop, if_neg (by simp [ascii])]
  simp [ascii]

theorem createNodesCalls_nodePath {path names : List Bytes} (h : ∀ e ∈ names, e ≠ []) :
    createNodesCalls (nodePath path) names =
      Calls.makeAll parentRequest madeOrFound path names := by
  induction names generalizing path with
  | nil => rfl
  | cons e names ih =>
    have hrest : createNodesCalls (nodePath (path ++ [e])) names =
        Calls.makeAll parentRequest madeOrFound (path ++ [e]) names :=
      ih fun e he => h e (List.mem_cons_of_mem _ he)
    rw [createNodesCalls, if_neg (h e List.mem_cons_self), Calls.makeAll, ← nodePath_concat, hrest]
    simp [parentRequest]

/-- `CreateParent` makes every node on the way, the upper ones first. -/
theorem createParentCalls_nodePath {env : Env} (hsplit : env.split = boostSplit)
    {names : List Bytes} (h : ∀ e ∈ names, NodeName e) :
    createParentCalls env (nodePath names) = Calls.makeAll parentRequest madeOrFound [] names := by
  have hcalls : createNodesCalls (nodePath []) names =
      Calls.makeAll parentRequest madeOrFound [] names :=
    createNodesCalls_nodePath fun e he => (h e he).1
  rcases names with _ | ⟨name, names⟩
  · rfl
  · have hne : name :: names ≠ [] := List.cons_ne_nil _ _
    rw [createParentCalls, nodePath_eq_intercalate hne, splitString_intercalate hsplit (by decide)]
    · exact hcalls
    · simp [List.intercalate_cons_cons]
    · intro w hw
      rcases List.mem_cons.mp hw with rfl | hw
      · exact List.not_mem_nil
      · exact (h w hw).slash_not_mem

end Paths

/-! A service that keeps a list of its nodes. -/

section Tree

def znonode : ℤ := -101
def znoauth : ℤ := -102
def znotempty : ℤ := -111

def pathNames (path : Bytes) : List Bytes := (path.splitOnP fun b => b = 47).tail

theorem pathNames_nodePath {names : List Bytes} (h : ∀ e ∈ names, NodeName e) :
    pathNames (nodePath names) = names := by
  rcases names with _ | ⟨name, names⟩
  · rfl
  · rw [pathNames, nodePath_eq_intercalate (List.cons_ne_nil _ _), splitOnP_intercalate (by decide)]
    · rfl
    · exact List.cons_ne_nil _ _
    · intro w hw b hb
      rcases List.mem_cons.mp hw with rfl | hw
      · cases hb
      · exact decide_eq_false fun hslash => (h w hw).slash_not_mem (hslash ▸ hb)

def isChild (path : List Bytes) (entry : List Bytes × Znode) : Bool :=
  entry.1 ≠ [] ∧ entry.1.dropLast = path

def treeServe : ZooRequest → List (List Bytes × Znode) → ZooAnswer × List (List Bytes × Znode)
  | .zooCreate path value acl flags, nodes =>
    match nodes.lookup (pathNames path).dropLast with
    | none => (⟨znonode, [], none⟩, nodes)
    | some parent =>
      if !parent.shared then (⟨znoauth, [], none⟩, nodes)
      else if nodes.lookup (pathNames path) ≠ none then (⟨znodeexists, [], none⟩, nodes)
      else (⟨zok, [], none⟩, (pathNames path, ⟨value, acl = .openAclUnsafe ∧ flags = 0⟩) :: nodes)
  | .zooDelete path _, nodes =>
    if nodes.lookup (pathNames path) = none then (⟨znonode, [], none⟩, nodes)
    else if nodes.any (isChild (pathNames path)) then (⟨znotempty, [], none⟩, nodes)
    else (⟨zok, [], none⟩, nodes.filter fun entry => entry.1 ≠ pathNames path)
  | .zooGetChildren2 path, nodes =>
    (⟨if nodes.lookup (pathNames path) = none then znonode else zok,
      (nodes.filter (isChild (pathNames path))).map fun entry => entry.1.getLastD [], none⟩, nodes)
  | .zooGet path, nodes =>
    match nodes.lookup (pathNames path) with
    | none => (⟨znonode, [], none⟩, nodes)
    | some node => (⟨zok, [], some node.data⟩, nodes)
  | .zooSet2 path buffer _, nodes =>
    if nodes.lookup (pathNames path) = none then (⟨znonode, [], none⟩, nodes)
    else (⟨zok, [], none⟩, nodes.map fun entry =>
      if entry.1 = pathNames path then (entry.1, { entry.2 with data := buffer }) else entry)
  | .zooExists path, nodes =>
    (⟨if nodes.lookup (pathNames path) = none then znonode else zok, [], none⟩, nodes)

def treeService (ι : Type) : NodeService ι (List (List Bytes × Znode)) where
  serve _ := treeServe
  node nodes path := nodes.lookup path
  maxRequest := 2 ^ 20

theorem lookup_cons_eq_update (nodes : List (List Bytes × Znode)) (path : List Bytes) (z : Znode) :
    (fun q => ((path, z) :: nodes).lookup q) =
      Function.update (fun q => nodes.lookup q) path (some z) := by
  funext q
  rw [List.lookup_cons]
  by_cases hq : q = path
  · rw [hq, Function.update_self, beq_self_eq_true]
  · rw [Function.update_of_ne hq, beq_false_of_ne hq]

theorem lookup_filter_ne (nodes : List (List Bytes × Znode)) (path : List Bytes) :
    (fun q => (nodes.filter fun entry => entry.1 ≠ path).lookup q) =
      Function.update (fun q => nodes.lookup q) path none := by
  funext q
  rw [Function.update_apply]
  induction nodes with
  | nil => simp
  | cons entry nodes ih =>
    obtain ⟨key, z⟩ := entry
    rw [List.filter_cons, List.lookup_cons]
    by_cases hkey : key = path
    · rw [if_neg (by simpa using hkey), ih]
      split_ifs with hq
      · rfl
      · rw [beq_false_of_ne fun heq => hq (heq.trans hkey)]
    · rw [if_pos (by simpa using hkey), List.lookup_cons, ih]
      split_ifs with hq
      · rw [beq_false_of_ne fun heq => hkey (heq.symm.trans hq)]
      · rfl

theorem lookup_ne_none {nodes : List (List Bytes × Znode)} {q : List Bytes} :
    nodes.lookup q ≠ none ↔ ∃ z, (q, z) ∈ nodes := by
  rw [ne_eq, List.lookup_eq_none_iff]
  simp

theorem isChild_iff {path : List Bytes} {entry : List Bytes × Znode} :
    isChild path entry = true ↔ entry.1 = path ++ [entry.1.getLastD []] := by
  rw [isChild, decide_eq_true_iff]
  rcases List.eq_nil_or_concat entry.1 with hnil | ⟨init, last, hlast⟩
  · simp [hnil]
  · rw [hlast, List.concat_eq_append, List.dropLast_concat, List.getLastD_concat]
    simp

theorem any_isChild {nodes : List (List Bytes × Znode)} {path : List Bytes} :
    nodes.any (isChild path) = true ↔ ∃ name, nodes.lookup (path ++ [name]) ≠ none := by
  rw [List.any_eq_true]
  constructor
  · rintro ⟨⟨key, z⟩, hmem, hchild⟩
    have hkey : key = path ++ [key.getLastD []] := isChild_iff.mp hchild
    exact ⟨_, lookup_ne_none.mpr ⟨z, hkey ▸ hmem⟩⟩
  · rintro ⟨name, hname⟩
    obtain ⟨z, hz⟩ := lookup_ne_none.mp hname
    exact ⟨_, hz, isChild_iff.mpr (by simp)⟩

theorem treeService_creates (ι : Type) : (treeService ι).Creates := by
  constructor
  · intro i nodes path name value acl flags z hnames _ _ _ hpath hshared hnone
    change nodes.lookup path = some z at hpath
    change nodes.lookup (path ++ [name]) = none at hnone
    simp only [treeService, treeServe, pathNames_nodePath hnames, List.dropLast_concat, hpath,
      hshared, hnone, ne_eq, not_true_eq_false, Bool.not_true, Bool.false_eq_true, if_false]
    exact ⟨trivial, lookup_cons_eq_update _ _ _⟩
  · intro i nodes path name value acl flags z hnames _ _ _ hpath hshared hsome
    change nodes.lookup path = some z at hpath
    change nodes.lookup (path ++ [name]) ≠ none at hsome
    simp only [treeService, treeServe, pathNames_nodePath hnames, List.dropLast_concat, hpath,
      hshared, hsome, ne_eq, not_false_eq_true, Bool.not_true, Bool.false_eq_true, if_false,
      if_true]
    exact ⟨trivial, trivial⟩

theorem treeService_deletes (ι : Type) : (treeService ι).Deletes := by
  constructor
  · intro i nodes path z hne hnames hpath _
    change nodes.lookup path = some z at hpath
    simp only [treeService, treeServe, pathNames_nodePath hnames, hpath]
    refine ⟨rfl, trivial, fun name => ?_⟩
    rw [lookup_ne_none, List.mem_map]
    constructor
    · rintro ⟨⟨key, w⟩, hmem, rfl⟩
      obtain ⟨hmem, hchild⟩ := List.mem_filter.mp hmem
      have hkey : key = path ++ [key.getLastD []] := isChild_iff.mp hchild
      exact ⟨w, hkey ▸ hmem⟩
    · rintro ⟨w, hw⟩
      exact ⟨_, List.mem_filter.mpr ⟨hw, isChild_iff.mpr (by simp)⟩, by simp⟩
  · intro i nodes path name z hnames hpath _ hsome hleaf
    change nodes.lookup (path ++ [name]) ≠ none at hsome
    have hnone : ¬ nodes.any (isChild (path ++ [name])) = true := by
      rw [any_isChild]
      rintro ⟨child, hchild⟩
      rw [List.append_assoc] at hchild
      exact hchild (hleaf child)
    simp only [treeService, treeServe, pathNames_nodePath hnames, hsome, hnone, if_false,
      Bool.false_eq_true]
    exact ⟨trivial, lookup_filter_ne _ _⟩
  · intro i nodes path name z hnames hpath _ hkept
    change nodes.lookup (path ++ [name]) = none ∨
      ∃ child, nodes.lookup (path ++ [name, child]) ≠ none
      at hkept
    by_cases hnode : nodes.lookup (path ++ [name]) = none
    · simp only [treeService, treeServe, pathNames_nodePath hnames, hnode, if_true]
      exact ⟨by decide, trivial⟩
    · have hany : nodes.any (isChild (path ++ [name])) = true := by
        obtain ⟨child, hchild⟩ := hkept.resolve_left hnode
        exact any_isChild.mpr ⟨child, by simpa using hchild⟩
      simp only [treeService, treeServe, pathNames_nodePath hnames, hnode, hany, if_false, if_true]
      exact ⟨by decide, trivial⟩

end Tree
end Ibdb.Client
