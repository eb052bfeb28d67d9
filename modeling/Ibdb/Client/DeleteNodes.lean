import Ibdb.Client.Znodes

/-! What `DeleteAllOfNodes` deletes. -/
namespace Ibdb.Client
open Ibdb.Base

def deleteNodesCalls (path : Bytes) : List Bytes → Calls ZooRequest ZooAnswer Unit
  | [] => .done ()
  | e :: children => .call (.zooDelete (path ++ ascii "/" ++ e) (-1)) fun _ =>
    deleteNodesCalls path children

def deleteAllOfNodesCalls (c : ZkClient) (path : Bytes) : Calls ZooRequest ZooAnswer Bool :=
  if c.notConnected then .done false
  else .call (.zooGetChildren2 path) fun answer =>
    if answer.result = zok then
      (deleteNodesCalls path answer.strings.mergeSort).bind fun _ => .done true
    else .done false

section Exec
variable {zk : Zookeeper} {s : ZkState}

theorem deleteNode_answered (path : Bytes) (h : s.client.notConnected = false) :
    ZkClient.deleteNode zk path s =
      (.ok (decide ((zk.zoo s.events s.client.zh (.zooDelete path (-1))).result = zok)),
        ⟨s.client, s.events ++ [.zoo s.client.zh (.zooDelete path (-1))]⟩) := by
  rw [ZkClient.deleteNode, Exec.bind_ok (Exec.get_apply s), h, if_neg Bool.false_ne_true,
    Exec.bind_ok (zoo_answered _ _ s)]
  rfl

theorem getChildren_answered (path : Bytes) (h : s.client.notConnected = false) :
    ZkClient.getChildren zk path [] s =
      (.ok (if (zk.zoo s.events s.client.zh (.zooGetChildren2 path)).result = zok then
          (true, (zk.zoo s.events s.client.zh (.zooGetChildren2 path)).strings.mergeSort)
        else (false, [])), ⟨s.client, s.events ++ [.zoo s.client.zh (.zooGetChildren2 path)]⟩) := by
  rw [ZkClient.getChildren, Exec.bind_ok (Exec.get_apply s), h, if_neg Bool.false_ne_true,
    Exec.bind_ok (zoo_answered _ _ s), List.nil_append]
  split_ifs <;> rfl

theorem deleteNodes_eq (path : Bytes) (children : List Bytes)
    (h : s.client.notConnected = false) :
    ZkClient.deleteNodes zk path children s =
      (deleteNodesCalls path children).exec (zoo zk s.client.zh) s := by
  induction children generalizing s with
  | nil => rfl
  | cons e children ih =>
    rw [ZkClient.deleteNodes, deleteNodesCalls, Exec.bind_ok (deleteNode_answered _ h), Calls.exec,
      Exec.bind_ok (zoo_answered _ _ s)]
    exact ih h

/-- `DeleteAllOfNodes` is its calls, whatever the library answers. -/
theorem deleteAllOfNodes_eq (path : Bytes) :
    ZkClient.deleteAllOfNodes zk path s =
      (deleteAllOfNodesCalls s.client path).exec (zoo zk s.client.zh) s := by
  rw [ZkClient.deleteAllOfNodes, deleteAllOfNodesCalls, Exec.bind_ok (Exec.get_apply s)]
  cases hconnected : s.client.notConnected with
  | true =>
    rw [if_pos rfl, if_pos rfl]
    rfl
  | false =>
    rw [if_neg Bool.false_ne_true, if_neg Bool.false_ne_true, Calls.exec,
      Exec.bind_ok (getChildren_answered path hconnected), Exec.bind_ok (zoo_answered _ _ s)]
    generalize zk.zoo s.events s.client.zh _ = answer
    by_cases hok : answer.result = zok
    · have hdelete : ∀ children events, ZkClient.deleteNodes zk path children ⟨s.client, events⟩ =
          (deleteNodesCalls path children).exec (zoo zk s.client.zh) ⟨s.client, events⟩ :=
        fun children events => deleteNodes_eq path children hconnected
      simp only [hok, if_true, Bool.not_true, Bool.false_eq_true, if_false]
      rw [Calls.exec_bind, Exec.bind_apply, Exec.bind_apply, hdelete]
      rfl
    · simp only [hok, if_false, Bool.not_false, if_true]
      rfl

end Exec

section Deletes
variable {ι σ : Type} {S : NodeService ι σ} {path : List Bytes} {start s t : σ}

def Undisturbed (S : NodeService ι σ) (path : List Bytes) (s t : σ) : Prop :=
  ∀ q, path <+: q → S.node t q = S.node s q

def Childless (S : NodeService ι σ) (path : List Bytes) (s : σ) (name : Bytes) : Prop :=
  ∀ child, S.node s (path ++ [name, child]) = none

/-- Before the loop comes to `names`: the other childless children are gone, and what is not a
childless child is as it was. -/
structure Deleted (S : NodeService ι σ) (path : List Bytes) (start : σ) (names : List Bytes)
    (s : σ) : Prop where
  gone : ∀ name, name ∉ names → Childless S path start name → S.node s (path ++ [name]) = none
  kept : ∀ q, path <+: q → (∀ name, q = path ++ [name] → ¬ Childless S path start name) →
    S.node s q = S.node start q

theorem Deleted.undisturbed {names : List Bytes} (h : Deleted S path start names s)
    (hst : Undisturbed S path s t) : Deleted S path start names t where
  gone name hname hleaf := (hst _ (List.prefix_append _ _)).trans (h.gone name hname hleaf)
  kept q hq hkept := (hst q hq).trans (h.kept q hq hkept)

theorem Deleted.self {names : List Bytes} (h : Deleted S path start names s) :
    S.node s path = S.node start path :=
  h.kept path List.prefix_rfl fun name heq => by simp at heq

theorem Deleted.grandchild {names : List Bytes} (h : Deleted S path start names s)
    (name child : Bytes) :
    S.node s (path ++ [name, child]) = S.node start (path ++ [name, child]) :=
  h.kept _ (List.prefix_append _ _) fun other heq => by simp at heq

theorem Deleted.delete {e : Bytes} {names : List Bytes} {i : ι} {z : Znode} (hS : S.Deletes)
    (hnames : ∀ n ∈ path ++ [e], NodeName n) (hnode : S.node start path = some z)
    (hshared : z.shared = true) (h : Deleted S path start (e :: names) s) :
    Deleted S path start names
      (S.serve i (.zooDelete (nodePath (path ++ [e])) (-1)) s).2 := by
  have hpath : S.node s path = some z := h.self.trans hnode
  by_cases hkept : S.node s (path ++ [e]) = none ∨ ∃ child, S.node s (path ++ [e, child]) ≠ none
  · obtain ⟨-, hsame⟩ := hS.kept i s path e z hnames hpath hshared hkept
    refine ⟨fun name hname hleaf => ?_, fun q hq hq' => ?_⟩
    · rw [hsame]
      by_cases hne : name = e
      · subst hne
        rcases hkept with hnone | ⟨child, hchild⟩
        · exact hnone
        · exact absurd ((h.grandchild name child).trans (hleaf child)) hchild
      · exact h.gone name (by simp [hne, hname]) hleaf
    · rw [hsame]
      exact h.kept q hq hq'
  · obtain ⟨hsome, hnochild⟩ := not_or.mp hkept
    have hchildless : ∀ child, S.node s (path ++ [e, child]) = none :=
      fun child => not_not.mp fun hchild => hnochild ⟨child, hchild⟩
    have hleaf : Childless S path start e :=
      fun child => (h.grandchild e child).symm.trans (hchildless child)
    obtain ⟨-, hupdate⟩ := hS.leaf i s path e z hnames hpath hshared hsome hchildless
    refine ⟨fun name hname hname' => ?_, fun q hq hq' => ?_⟩
    · rw [hupdate]
      by_cases hne : name = e
      · rw [hne, Function.update_self]
      · rw [Function.update_of_ne (by simpa using hne)]
        exact h.gone name (by simp [hne, hname]) hname'
    · rw [hupdate, Function.update_of_ne]
      · exact h.kept q hq hq'
      · exact fun heq => hq' e heq hleaf

theorem ensures_deleteNodes {i : ι} {z : Znode} {children : List Bytes} (hS : S.Deletes)
    (hpath : ∀ n ∈ path, NodeName n) (hnames : ∀ n ∈ children, NodeName n)
    (hnode : S.node start path = some z) (hshared : z.shared = true)
    (h : Deleted S path start children s) :
    (deleteNodesCalls (nodePath path) children).Ensures (S.serve i) (Undisturbed S path)
      (fun _ _ => True) (fun _ t => Deleted S path start [] t) s := by
  induction children generalizing s with
  | nil => exact fun t hst => h.undisturbed hst
  | cons e children ih =>
    have hall : ∀ n ∈ path ++ [e], NodeName n := by
      intro n hn
      rcases List.mem_append.mp hn with hn | hn
      · exact hpath n hn
      · exact hnames n (List.mem_singleton.mp hn ▸ List.mem_cons_self)
    rw [deleteNodesCalls, ← nodePath_concat]
    intro t hst
    exact ⟨trivial, ih (fun n hn => hnames n (List.mem_cons_of_mem _ hn))
      ((h.undisturbed hst).delete hS hall hnode hshared)⟩

theorem ensures_deleteAllOfNodes {i : ι} {client : ZkClient} {z : Znode}
    (hconnected : client.notConnected = false) (hS : S.Deletes) (hne : path ≠ [])
    (hpath : ∀ n ∈ path, NodeName n)
    (hnames : ∀ name, S.node start (path ++ [name]) ≠ none → NodeName name)
    (hnode : S.node start path = some z) (hshared : z.shared = true) :
    (deleteAllOfNodesCalls client (nodePath path)).Ensures (S.serve i) (Undisturbed S path)
      (fun _ _ => True) (fun deleted t => deleted = true ∧ Deleted S path start [] t) start := by
  rw [deleteAllOfNodesCalls, hconnected, if_neg Bool.false_ne_true]
  intro t hst
  obtain ⟨hok, hsame, hchildren⟩ :=
    hS.children i t path z hne hpath ((hst path List.prefix_rfl).trans hnode) hshared
  refine ⟨trivial, ?_⟩
  simp only [hok, if_true]
  refine (ensures_deleteNodes hS hpath ?_ hnode hshared ?_).map fun _ u hu => ⟨rfl, hu⟩
  · intro name hname
    have hthere := (hchildren name).mp (List.mem_mergeSort.mp hname)
    exact hnames name (by rwa [hst _ (List.prefix_append _ _)] at hthere)
  · refine ⟨fun name hname _ => ?_, fun q hq _ => ?_⟩
    · rw [hsame]
      by_contra hthere
      exact hname (List.mem_mergeSort.mpr ((hchildren name).mpr hthere))
    · rw [hsame, hst q hq]

/-- While no one else touches its path or the nodes below, `DeleteAllOfNodes` returns true, but of
all these nodes it deletes the children without children and nothing else. -/
theorem deleteAllOfNodes_childless [DecidableEq ι] {i : ι} {client : ZkClient} {z : Znode}
    {es : List ι} {s t : Clients ι (Calls ZooRequest ZooAnswer Bool) σ} {deleted : Bool}
    (hconnected : client.notConnected = false) (hS : S.Deletes) (hne : path ≠ [])
    (hpath : ∀ n ∈ path, NodeName n)
    (hnames : ∀ name, S.node s.shared (path ++ [name]) ≠ none → NodeName name)
    (hnode : S.node s.shared path = some z) (hshared : z.shared = true)
    (hown : s.own i = deleteAllOfNodesCalls client (nodePath path))
    (hothers : Run.Along (Clients.step (Calls.next S.serve)) (fun e u => e ≠ i →
      ∀ v, Clients.step (Calls.next S.serve) e u = some v → Undisturbed S path u.shared v.shared)
      es s)
    (hrun : run (Clients.step (Calls.next S.serve)) es s = some t)
    (hdone : t.own i = .done deleted) :
    deleted = true ∧
      (∀ name, Childless S path s.shared name → S.node t.shared (path ++ [name]) = none) ∧
      ∀ q, path <+: q → (∀ name, q = path ++ [name] → ¬ Childless S path s.shared name) →
        S.node t.shared q = S.node s.shared q := by
  have hrefl : ∀ s, Undisturbed S path s s := fun s q hq => rfl
  have htrans : ∀ s t u, Undisturbed S path s t → Undisturbed S path t u → Undisturbed S path s u :=
    fun s t u hst htu q hq => (htu q hq).trans (hst q hq)
  have hstart : (s.own i).Ensures (S.serve i) (Undisturbed S path) (fun _ _ => True)
      (fun deleted t => deleted = true ∧ Deleted S path s.shared [] t) s.shared := by
    rw [hown]
    exact ensures_deleteAllOfNodes hconnected hS hne hpath hnames hnode hshared
  have hensures := Calls.ensures_among hrefl htrans hothers hstart hrun
  rw [hdone] at hensures
  obtain ⟨htrue, hgone, hkept⟩ := hensures t.shared (hrefl t.shared)
  exact ⟨htrue, fun name hleaf => hgone name List.not_mem_nil hleaf, hkept⟩

end Deletes

def twoChildren : List (List Bytes × Znode) :=
  [[], [ascii "list"], [ascii "list", ascii "one"], [ascii "list", ascii "two"],
    [ascii "list", ascii "one", ascii "lock"]].map fun q => (q, ⟨[], true⟩)

def openClient : ZkClient :=
  { ZkClient.new (ascii "127.0.0.1:2181") 2000 with zh := some 1, connected := true }

/-- It returns true, and the child with the child is still there. -/
theorem deleteAllOfNodes_childless_two : ∃ t : Clients Unit (Calls ZooRequest ZooAnswer Bool) _,
    run (Clients.step (Calls.next (treeService Unit).serve)) [(), (), ()]
        ⟨twoChildren, fun _ => deleteAllOfNodesCalls openClient (nodePath [ascii "list"])⟩ = some t ∧
      t.own () = .done true ∧ t.shared.lookup [ascii "list", ascii "two"] = none ∧
      t.shared.lookup [ascii "list", ascii "one"] = some ⟨[], true⟩ := by
  have hsort : [ascii "one", ascii "two"].mergeSort = [ascii "one", ascii "two"] :=
    List.mergeSort_of_pairwise (by decide)
  have hfirst : Clients.step (Calls.next (treeService Unit).serve) ()
      ⟨twoChildren, fun _ => deleteAllOfNodesCalls openClient (nodePath [ascii "list"])⟩ =
      some ⟨twoChildren, fun _ => (deleteNodesCalls (nodePath [ascii "list"])
        [ascii "one", ascii "two"].mergeSort).bind fun _ => .done true⟩ :=
    Clients.step_eq_some.mpr ⟨_, _, rfl, rfl⟩
  have hlater : ((run (Clients.step (Calls.next (treeService Unit).serve)) [(), ()]
      ⟨twoChildren, fun _ => (deleteNodesCalls (nodePath [ascii "list"])
        [ascii "one", ascii "two"]).bind fun _ => .done true⟩).map
        fun t => (t.own ()).result?) = some (some true) := by decide +kernel
  rw [hsort] at hfirst
  obtain ⟨t, ht, hresult⟩ := Option.map_eq_some_iff.mp hlater
  have hrun : run (Clients.step (Calls.next (treeService Unit).serve)) [(), (), ()]
      ⟨twoChildren, fun _ => deleteAllOfNodesCalls openClient (nodePath [ascii "list"])⟩ = some t := by
    rw [run, hfirst, Option.bind_some, ht]
  have hdone := Calls.result?_eq_some.mp hresult
  have hnames : ∀ name, twoChildren.lookup [ascii "list", name] ≠ none → NodeName name := by
    intro name hname
    obtain ⟨z, hz⟩ := lookup_ne_none.mp hname
    have hmem : name = ascii "one" ∧ z = ⟨[], true⟩ ∨ name = ascii "two" ∧ z = ⟨[], true⟩ := by
      simpa [twoChildren] using hz
    rcases hmem with ⟨rfl, -⟩ | ⟨rfl, -⟩ <;> decide +kernel
  have hleaf : ∀ child, twoChildren.lookup [ascii "list", ascii "two", child] = none := by
    intro child
    by_contra hchild
    obtain ⟨z, hz⟩ := lookup_ne_none.mp hchild
    simp [twoChildren, ascii] at hz
  have hconnected : openClient.notConnected = false := rfl
  have hpath : ∀ n ∈ [ascii "list"], NodeName n := by decide +kernel
  have hone : ∀ name, [ascii "list", ascii "one"] = [ascii "list"] ++ [name] →
      ¬ Childless (treeService Unit) [ascii "list"] twoChildren name := by
    intro name heq hchildless
    obtain rfl : ascii "one" = name := by simpa using heq
    exact absurd (hchildless (ascii "lock")) (by decide +kernel)
  obtain ⟨-, hgone, hkept⟩ := deleteAllOfNodes_childless (z := ⟨[], true⟩)
    (s := ⟨twoChildren, fun _ => deleteAllOfNodesCalls openClient (nodePath [ascii "list"])⟩)
    hconnected (treeService_deletes Unit) (List.cons_ne_nil _ _) hpath hnames rfl rfl rfl
    (fun _ _ _ _ _ _ hne => absurd rfl hne) hrun hdone
  exact ⟨t, hrun, hdone, hgone _ hleaf,
    (hkept _ (by decide +kernel) hone).trans (by decide +kernel)⟩

end Ibdb.Client
