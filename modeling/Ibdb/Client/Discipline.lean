import Ibdb.Client.Zk
import Ibdb.Lib.Handles
import Ibdb.Lib.Run

/-! What the client does with its handles. -/
namespace Ibdb.Client
open Ibdb.Base

/-- What a call does to the handle it is made on. A close that fails is a call like any other. -/
def ZkEvent.handleEvent : ZkEvent → Option (HandleEvent Handle)
  | zookeeperInit _ _ (some h) => some (.obtained h)
  | zookeeperClose (some h) result => some (if result = zok then .closed h else .called h)
  | zoo (some h) _ => some (.called h)
  | zookeeperInit _ _ none | zookeeperClose none _ | zoo none _ => none

namespace ZkState

def new (servers : Bytes) (sessionTimeout : ℕ) : ZkState := ⟨.new servers sessionTimeout, []⟩

def handleEvents (s : ZkState) : List (HandleEvent Handle) := s.events.filterMap ZkEvent.handleEvent

/-- Each handle was closed at most once, none but `zh_` was left open, and no call was made on a
closed one. -/
def Disciplined (s : ZkState) : Prop := Handles.Disciplined s.client.zh s.handleEvents

/-- The invariant: `connected_` says whether `zh_` is open. -/
def Inv (s : ZkState) : Prop := Handles.Holds s.client.zh s.client.connected s.handleEvents

def destroyed (zk : Zookeeper) (s : ZkState) : ZkState := (ZkClient.destroy zk s).2

def emit (requests : List ZooRequest) (s : ZkState) : ZkState :=
  { s with events := s.events ++ requests.map (.zoo s.client.zh) }

end ZkState

namespace ClientCall

def step (env : Env) (zk : Zookeeper) (c : ClientCall) (s : ZkState) : Option ZkState :=
  some (c.perform env zk s)

def Opens : ClientCall → Prop
  | init | connectZK => True
  | _ => False

/-- The calls that use `zh_` and look at neither field. `CreateParent` makes no node for a path of
slashes. -/
def Unchecked (env : Env) : ClientCall → Prop
  | createParent path => ∃ e ∈ splitString env path (ascii "/"), e ≠ []
  | isExistedPath _ => True
  | _ => False

/-- The handle is not opened again while it is open, and not used unchecked once it is closed. -/
def Allowed (env : Env) (c : ClientCall) (s : ZkState) : Prop :=
  (c.Opens → s.client.zh = none ∨ s.client.connected = false) ∧
    (c.Unchecked env → s.client.zh = none ∨ s.client.connected = true)

end ClientCall

section Discipline
variable {env : Env} {zk : Zookeeper} {s t : ZkState} {c : ClientCall}

@[simp] theorem ZkState.emit_client (requests : List ZooRequest) (s : ZkState) :
    (s.emit requests).client = s.client := rfl

@[simp] theorem ZkState.emit_nil (s : ZkState) : s.emit [] = s := by simp [emit]

theorem ZkState.emit_emit (r r' : List ZooRequest) (s : ZkState) :
    (s.emit r).emit r' = s.emit (r ++ r') := by simp [emit]

theorem zoo_apply (zk : Zookeeper) (request : ZooRequest) (s : ZkState) :
    zoo zk s.client.zh request s =
      (.ok (zk.zoo s.events s.client.zh request), s.emit [request]) := rfl

theorem ZkClient.notConnected_eq_false {c : ZkClient} :
    c.notConnected = false ↔ c.zh ≠ none ∧ c.connected = true := by
  cases h : c.zh <;> simp [notConnected, h]

/-- What a call does: it sets `zh_`, closes it after a look at both fields, or makes calls on it. -/
inductive ClientCall.Does (env : Env) (c : ClientCall) (s : ZkState) : ZkState → Prop
  | opens (client : ZkClient) (timeout : ℕ) (servers : Bytes) (hopens : c.Opens)
      (hchecked : ¬ c.Unchecked env)
      (hconnected : client.connected = (client.zh.isSome || s.client.connected))
      (hfresh : ∀ h, client.zh = some h → h ∉ s.events.filterMap ZkEvent.obtained) :
      Does env c s ⟨client, s.events ++ [.zookeeperInit servers timeout client.zh]⟩
  | closes (result : ℤ) (hopens : ¬ c.Opens) (hchecked : ¬ c.Unchecked env)
      (hopen : s.client.zh ≠ none ∧ s.client.connected = true) :
      Does env c s ⟨{ s.client with connected := !decide (result = zok) },
        s.events ++ [.zookeeperClose s.client.zh result]⟩
  | calls (requests : List ZooRequest) (hopens : ¬ c.Opens)
      (hnonempty : c.Unchecked env → requests ≠ [])
      (hopen : requests ≠ [] → c.Unchecked env ∨ s.client.zh ≠ none ∧ s.client.connected = true) :
      Does env c s (s.emit requests)

theorem ClientCall.init_does : ClientCall.init.Does env s (ClientCall.init.perform env zk s) := by
  have hfresh := zk.fresh s.events s.client.servers s.client.sessionTimeout
  cases hzh : zk.zookeeperInit s.events s.client.servers s.client.sessionTimeout with
  | none =>
    have hperform : init.perform env zk s = ⟨{ s.client with
        zh := none
        aclMap := ((s.client.aclMap.insertIfNew 0 .openAclUnsafe).insertIfNew 1
          .readAclUnsafe).insertIfNew 2 .creatorAllAcl },
        s.events ++ [.zookeeperInit s.client.servers s.client.sessionTimeout none]⟩ := by
      simp [perform, ZkClient.init, zookeeperInit, ZkClient.update, Exec.bind_apply, hzh]
    rw [hperform]
    exact .opens _ _ _ trivial id rfl nofun
  | some h =>
    have hperform : init.perform env zk s = ⟨{ s.client with
        zh := some h
        connected := true
        aclMap := ((s.client.aclMap.insertIfNew 0 .openAclUnsafe).insertIfNew 1
          .readAclUnsafe).insertIfNew 2 .creatorAllAcl },
        s.events ++ [.zookeeperInit s.client.servers s.client.sessionTimeout (some h)]⟩ := by
      simp [perform, ZkClient.init, zookeeperInit, ZkClient.update, Exec.bind_apply, hzh]
    rw [hperform]
    refine .opens _ _ _ trivial id rfl fun h' hh' => ?_
    cases hh'
    exact hfresh h hzh

theorem ClientCall.connectZK_does :
    ClientCall.connectZK.Does env s (ClientCall.connectZK.perform env zk s) := by
  have hfresh := zk.fresh s.events s.client.servers s.client.sessionTimeout
  cases hzh : zk.zookeeperInit s.events s.client.servers s.client.sessionTimeout with
  | none =>
    have hperform : connectZK.perform env zk s = ⟨{ s.client with zh := none },
        s.events ++ [.zookeeperInit s.client.servers s.client.sessionTimeout none]⟩ := by
      simp [perform, ZkClient.connectZK, zookeeperInit, ZkClient.update, Exec.bind_apply, hzh]
    rw [hperform]
    exact .opens _ _ _ trivial id rfl nofun
  | some h =>
    have hperform : connectZK.perform env zk s =
        ⟨{ s.client with zh := some h, connected := true },
        s.events ++ [.zookeeperInit s.client.servers s.client.sessionTimeout (some h)]⟩ := by
      simp [perform, ZkClient.connectZK, zookeeperInit, ZkClient.update, Exec.bind_apply, hzh]
    rw [hperform]
    refine .opens _ _ _ trivial id rfl fun h' hh' => ?_
    cases hh'
    exact hfresh h hzh

theorem ClientCall.closeZK_does :
    ClientCall.closeZK.Does env s (ClientCall.closeZK.perform env zk s) := by
  cases hconnected : s.client.notConnected with
  | true =>
    have hperform : closeZK.perform env zk s = s.emit [] := by
      simp [perform, ZkClient.closeZK, Exec.bind_apply, hconnected]
    rw [hperform]
    exact .calls [] id False.elim (absurd rfl)
  | false =>
    have hopen := ZkClient.notConnected_eq_false.mp hconnected
    have hperform : closeZK.perform env zk s = ⟨{ s.client with
        connected := !decide (zk.zookeeperClose s.events s.client.zh = zok) },
        s.events ++ [.zookeeperClose s.client.zh (zk.zookeeperClose s.events s.client.zh)]⟩ := by
      by_cases hok : zk.zookeeperClose s.events s.client.zh = zok
      · simp [perform, ZkClient.closeZK, zookeeperClose, ZkClient.update, Exec.bind_apply,
          hconnected, hok]
      · have hsame : s.client = { s.client with connected := true } := by rw [← hopen.2]
        simpa [perform, ZkClient.closeZK, zookeeperClose, Exec.bind_apply, hconnected, hok]
          using hsame
    rw [hperform]
    exact .closes _ id id hopen

/-- Every node that is not empty costs a call, up to a call that fails. -/
theorem ZkClient.createNodes_emits (zk : Zookeeper) (path : Bytes) (nodes : List Bytes)
    (s : ZkState) :
    ∃ requests, (createNodes zk path nodes s).2 = s.emit requests ∧
      ((∃ e ∈ nodes, e ≠ []) → requests ≠ []) ∧ (requests ≠ [] → ∃ e ∈ nodes, e ≠ []) := by
  induction nodes generalizing path s with
  | nil => exact ⟨[], by simp [createNodes], by simp, by simp⟩
  | cons e nodes ih =>
    by_cases he : e = []
    · obtain ⟨requests, hstate, hcalls⟩ := ih path s
      refine ⟨requests, ?_, ?_⟩
      · rw [createNodes, if_pos he]
        exact hstate
      · simpa [he] using hcalls
    · let path' := path ++ ascii "/" ++ e
      let r := ZooRequest.zooCreate path' e .openAclUnsafe 0
      obtain ⟨requests, hstate, -⟩ := ih path' (s.emit [r])
      have hnode : ∃ e' ∈ e :: nodes, e' ≠ [] := ⟨e, List.mem_cons_self, he⟩
      rw [createNodes, if_neg he, Exec.bind_ok (Exec.get_apply s), Exec.bind_ok (zoo_apply zk r s)]
      split_ifs
      · exact ⟨r :: requests, by rw [hstate, ZkState.emit_emit]; rfl, by simp, fun _ => hnode⟩
      · exact ⟨[r], rfl, by simp, fun _ => hnode⟩
      · exact ⟨r :: requests, by rw [hstate, ZkState.emit_emit]; rfl, by simp, fun _ => hnode⟩

theorem ClientCall.createParent_does (path : Bytes) :
    (ClientCall.createParent path).Does env s ((ClientCall.createParent path).perform env zk s) := by
  obtain ⟨requests, hstate, hsome, hnodes⟩ :=
    ZkClient.createNodes_emits zk [] (splitString env path (ascii "/")) s
  have hperform : (ClientCall.createParent path).perform env zk s = s.emit requests := hstate
  rw [hperform]
  exact .calls requests id hsome fun hcalls => .inl (hnodes hcalls)

theorem ClientCall.isExistedPath_does (path : Bytes) :
    (ClientCall.isExistedPath path).Does env s
      ((ClientCall.isExistedPath path).perform env zk s) := by
  have hperform : (ClientCall.isExistedPath path).perform env zk s =
      s.emit [.zooExists path] := rfl
  rw [hperform]
  exact .calls _ id (fun _ => by simp) fun _ => .inl trivial

def Emits {α : Type} (x : ZkM α) : Prop := ∀ s, ∃ requests, (x s).2 = s.emit requests

theorem Emits.pure {α : Type} (a : α) : Emits (Pure.pure a : ZkM α) :=
  fun s => ⟨[], s.emit_nil.symm⟩

theorem Emits.throw {α : Type} (e : ZkFault) : Emits (Exec.throw e : ZkM α) :=
  fun s => ⟨[], s.emit_nil.symm⟩

theorem Emits.bind {α β : Type} {x : ZkM α} {f : α → ZkM β} (hx : Emits x)
    (hf : ∀ a, Emits (f a)) : Emits (x >>= f) := by
  intro s
  obtain ⟨requests, hstate⟩ := hx s
  rcases hxs : x s with ⟨e | a, t⟩ <;> rw [hxs] at hstate <;> obtain rfl : t = _ := hstate
  · exact ⟨requests, by rw [Exec.bind_error hxs]⟩
  · obtain ⟨requests', hstate'⟩ := hf a (s.emit requests)
    exact ⟨requests ++ requests', by rw [Exec.bind_ok hxs, hstate', ZkState.emit_emit]⟩

theorem zoo_emits {β : Type} {f : ZooAnswer → ZkM β} (request : ZooRequest)
    (hf : ∀ a, Emits (f a)) (s : ZkState) :
    ∃ requests, ((zoo zk s.client.zh request >>= f) s).2 = s.emit requests := by
  obtain ⟨requests, hstate⟩ := hf (zk.zoo s.events s.client.zh request) (s.emit [request])
  refine ⟨request :: requests, ?_⟩
  rw [Exec.bind_ok (zoo_apply zk request s), hstate, ZkState.emit_emit]
  rfl

/-- A look at both fields, and calls only when the handle is there and open. -/
theorem Emits.guarded {α : Type} {result : α} {k : ZkState → ZkM α}
    (hk : ∀ s, ∃ requests, (k s s).2 = s.emit requests) :
    Emits (Exec.get >>= fun s => if s.client.notConnected then Pure.pure result else k s) := by
  intro s
  rw [Exec.bind_ok (Exec.get_apply s)]
  split_ifs
  · exact ⟨[], s.emit_nil.symm⟩
  · exact hk s

theorem ClientCall.guarded_does (hopens : ¬ c.Opens) (hchecked : ¬ c.Unchecked env)
    (hsame : s.client.notConnected = true → c.perform env zk s = s)
    (hemits : ∃ requests, c.perform env zk s = s.emit requests) :
    c.Does env s (c.perform env zk s) := by
  cases hconnected : s.client.notConnected with
  | true =>
    have hdoes : Does env c s (s.emit []) := .calls [] hopens (absurd · hchecked) (absurd rfl)
    rw [ZkState.emit_nil] at hdoes
    rw [hsame hconnected]
    exact hdoes
  | false =>
    obtain ⟨requests, hstate⟩ := hemits
    have hopen := ZkClient.notConnected_eq_false.mp hconnected
    rw [hstate]
    exact .calls requests hopens (absurd · hchecked) fun _ => .inr hopen

namespace ZkClient

theorem createParent_emits (path : Bytes) : Emits (createParent env zk path) := by
  intro s
  obtain ⟨requests, hstate, -⟩ :=
    createNodes_emits zk [] (splitString env path (ascii "/")) s
  exact ⟨requests, hstate⟩

theorem createNode_emits (path data : Bytes) (mode acl : ℕ) (withParent : Bool) :
    Emits (createNode env zk path data mode acl withParent) := by
  refine Emits.guarded fun s => ?_
  cases s.client.aclMap[acl]? with
  | none => exact ⟨[], s.emit_nil.symm⟩
  | some vector =>
    have hlast : Emits (Exec.get >>= fun s : ZkState =>
        zoo zk s.client.zh (.zooCreate path data vector mode) >>= fun answer =>
          return decide (answer.result = zok)) :=
      fun s => zoo_emits _ (fun a => .pure (decide (a.result = zok))) s
    cases withParent with
    | false => exact hlast s
    | true =>
      refine (createParent_emits (parentOf path)).bind (fun made => ?_) s
      cases made with
      | false => exact .pure _
      | true => exact hlast

theorem deleteNode_emits (path : Bytes) : Emits (deleteNode zk path) :=
  Emits.guarded fun s => zoo_emits _ (fun _ => .pure _) s

theorem getChildren_emits (path : Bytes) (children : List Bytes) :
    Emits (getChildren zk path children) := by
  refine Emits.guarded fun s => zoo_emits _ (fun a => ?_) s
  split_ifs
  · exact .pure _
  · exact .pure _

theorem getData_emits (path data : Bytes) : Emits (getData zk path data) := by
  refine Emits.guarded fun s => zoo_emits _ (fun a => ?_) s
  split_ifs
  · cases a.buffer with
    | none => exact .throw .lengthError
    | some buffer => exact .pure _
  · exact .pure _

theorem setData_emits (path data : Bytes) : Emits (setData zk path data) :=
  Emits.guarded fun s => zoo_emits _ (fun _ => .pure _) s

theorem checkNodeExisted_emits (path : Bytes) : Emits (checkNodeExisted zk path) :=
  Emits.guarded fun s => zoo_emits _ (fun _ => .pure _) s

theorem deleteNodes_emits (path : Bytes) (children : List Bytes) :
    Emits (deleteNodes zk path children) := by
  induction children with
  | nil => exact .pure ()
  | cons e children ih => exact (deleteNode_emits _).bind fun _ => ih

theorem deleteAllOfNodes_emits (path : Bytes) : Emits (deleteAllOfNodes zk path) := by
  refine Emits.guarded fun s => (getChildren_emits path []).bind (fun a => ?_) s
  obtain ⟨result, children⟩ := a
  cases result with
  | false => exact .pure false
  | true => exact (deleteNodes_emits path children).bind fun _ => .pure true

end ZkClient

theorem ClientCall.does (c : ClientCall) (s : ZkState) : c.Does env s (c.perform env zk s) := by
  cases c with
  | init => exact init_does
  | connectZK => exact connectZK_does
  | closeZK => exact closeZK_does
  | createParent path => exact createParent_does path
  | isExistedPath path => exact isExistedPath_does path
  | createNode path data mode acl withParent =>
    refine guarded_does id id (fun h => ?_) (ZkClient.createNode_emits path data mode acl _ s)
    simp [perform, ZkClient.createNode, Exec.bind_apply, h]
  | deleteNode path =>
    refine guarded_does id id (fun h => ?_) (ZkClient.deleteNode_emits path s)
    simp [perform, ZkClient.deleteNode, Exec.bind_apply, h]
  | getChildren path children =>
    refine guarded_does id id (fun h => ?_) (ZkClient.getChildren_emits path children s)
    simp [perform, ZkClient.getChildren, Exec.bind_apply, h]
  | getData path data =>
    refine guarded_does id id (fun h => ?_) (ZkClient.getData_emits path data s)
    simp [perform, ZkClient.getData, Exec.bind_apply, h]
  | setData path data =>
    refine guarded_does id id (fun h => ?_) (ZkClient.setData_emits path data s)
    simp [perform, ZkClient.setData, Exec.bind_apply, h]
  | checkNodeExisted path =>
    refine guarded_does id id (fun h => ?_) (ZkClient.checkNodeExisted_emits path s)
    simp [perform, ZkClient.checkNodeExisted, Exec.bind_apply, h]
  | deleteAllOfNodes path =>
    refine guarded_does id id (fun h => ?_) (ZkClient.deleteAllOfNodes_emits path s)
    simp [perform, ZkClient.deleteAllOfNodes, Exec.bind_apply, h]

theorem handleEvents_concat (client : ZkClient) (e : ZkEvent) :
    ZkState.handleEvents ⟨client, s.events ++ [e]⟩ = s.handleEvents ++ e.handleEvent.toList := by
  rw [ZkState.handleEvents, List.filterMap_append, ZkState.handleEvents]
  cases h : e.handleEvent <;> simp [h]

theorem obtained_handleEvents (s : ZkState) :
    Handles.obtained s.handleEvents = s.events.filterMap ZkEvent.obtained := by
  rw [Handles.obtained, ZkState.handleEvents, List.filterMap_filterMap]
  congr 1
  funext e
  rcases e with ⟨_, _, _ | h⟩ | ⟨_ | h, result⟩ | ⟨_ | h, request⟩ <;> try rfl
  change (some (if result = zok then HandleEvent.closed h else .called h)).bind Handles.obtainedBy = _
  split_ifs <;> rfl

theorem ZkState.Inv.new (servers : Bytes) (sessionTimeout : ℕ) :
    (ZkState.new servers sessionTimeout).Inv := Handles.Holds.nil false

theorem ZkState.Inv.emit (hs : s.Inv) (requests : List ZooRequest)
    (hopen : s.client.zh = none ∨ s.client.connected = true) : (s.emit requests).Inv := by
  induction requests generalizing s with
  | nil =>
    rw [emit_nil]
    exact hs
  | cons r requests ih =>
    have hsplit : s.emit (r :: requests) = (s.emit [r]).emit requests := by rw [emit_emit]; rfl
    rw [hsplit]
    refine ih ?_ hopen
    unfold Inv at hs ⊢
    rw [emit_client, emit, List.map_singleton, handleEvents_concat]
    cases hzh : s.client.zh with
    | none =>
      rw [hzh] at hs
      simpa [ZkEvent.handleEvent] using hs
    | some h =>
      have hconnected : s.client.connected = true := hopen.resolve_left (by simp [hzh])
      rw [hzh, hconnected] at hs
      rw [hconnected]
      exact hs.called

theorem ClientCall.perform_inv (hs : s.Inv) (hallowed : c.Allowed env s) :
    (c.perform env zk s).Inv := by
  have hdoes : c.Does env s (c.perform env zk s) := c.does s
  generalize c.perform env zk s = t at hdoes ⊢
  cases hdoes with
  | opens client timeout servers hopens hchecked hconnected hfresh =>
    have hdropped := hs.dropped (hallowed.1 hopens) client.connected
    unfold ZkState.Inv
    rw [handleEvents_concat]
    cases hzh : client.zh with
    | none => simpa [ZkEvent.handleEvent] using hdropped
    | some h =>
      have hfresh' : h ∉ Handles.obtained s.handleEvents := by
        rw [obtained_handleEvents]
        exact hfresh h hzh
      have hopen : client.connected = true := by simp [hconnected, hzh]
      rw [hopen]
      exact hdropped.obtained hfresh'
  | closes result hopens hchecked hopen =>
    obtain ⟨h, hzh⟩ := Option.ne_none_iff_exists'.mp hopen.1
    unfold ZkState.Inv at hs ⊢
    rw [hzh, hopen.2] at hs
    rw [handleEvents_concat, hzh]
    by_cases hok : result = zok
    · simpa [ZkEvent.handleEvent, hok] using hs.closed
    · simpa [ZkEvent.handleEvent, hok] using hs.called
  | calls requests hopens hnonempty hopen =>
    by_cases hnone : requests = []
    · rw [hnone, ZkState.emit_nil]
      exact hs
    · refine hs.emit requests ?_
      rcases hopen hnone with hunchecked | ⟨-, hconnected⟩
      · exact hallowed.2 hunchecked
      · exact .inr hconnected

/-- A call on a handle that is closed already. -/
theorem not_disciplined_of_closed {held : Option Handle} {es : List (HandleEvent Handle)}
    {e : HandleEvent Handle} {rest : List (HandleEvent Handle)} {h : Handle}
    (hclosed : h ∈ Handles.closed es) (hon : Handles.calledOn e = some h) :
    ¬ Handles.Disciplined held (es ++ e :: rest) := by
  intro hd
  exact hd.callsOpen es e rest h rfl hon hclosed

theorem ZkState.Inv.closed (hs : s.Inv)
    (hclosed : ¬ (s.client.zh = none ∨ s.client.connected = true)) :
    ∃ h, s.client.zh = some h ∧ h ∈ Handles.closed s.handleEvents := by
  obtain ⟨hzh, hconnected⟩ := not_or.mp hclosed
  obtain ⟨h, hh⟩ := Option.ne_none_iff_exists'.mp hzh
  exact ⟨h, hh, (hs.heldOpen h hh).mpr (Bool.eq_false_iff.mpr hconnected)⟩

theorem ClientCall.perform_loses (hs : s.Inv) (hmisses : ¬ c.Allowed env s) :
    ¬ (c.perform env zk s).Disciplined := by
  have hdoes : c.Does env s (c.perform env zk s) := c.does s
  generalize c.perform env zk s = t at hdoes ⊢
  cases hdoes with
  | opens client timeout servers hopens hchecked hconnected hfresh =>
    have hheld : ¬ (s.client.zh = none ∨ s.client.connected = false) := by
      intro h
      exact hmisses ⟨fun _ => h, fun hc => absurd hc hchecked⟩
    obtain ⟨hzh, hopen⟩ := not_or.mp hheld
    obtain ⟨h, hh⟩ := Option.ne_none_iff_exists'.mp hzh
    have hobtained := hs.heldObtained h hh
    intro hd
    -- The old handle is neither the new one nor closed.
    unfold ZkState.Disciplined at hd
    rw [handleEvents_concat] at hd
    have hkept : h ∈ Handles.obtained (s.handleEvents ++
        (ZkEvent.zookeeperInit servers timeout client.zh).handleEvent.toList) := by
      rw [Handles.obtained, List.filterMap_append]
      exact List.mem_append_left _ hobtained
    rcases hd.kept h hkept with hnew | hclosed
    · rw [obtained_handleEvents] at hobtained
      exact hfresh h hnew hobtained
    · rw [Handles.closed, List.filterMap_append] at hclosed
      have hnone : (ZkEvent.zookeeperInit servers timeout client.zh).handleEvent.toList.filterMap
          Handles.closedBy = [] := by
        cases client.zh <;> rfl
      rw [hnone, List.append_nil] at hclosed
      exact hopen ((hs.heldOpen h hh).mp hclosed)
  | closes result hopens hchecked hopen =>
    exact absurd ⟨fun h => absurd h hopens, fun h => absurd h hchecked⟩ hmisses
  | calls requests hopens hnonempty hopen =>
    have hunchecked : c.Unchecked env := by
      by_contra hno
      exact hmisses ⟨fun h => absurd h hopens, fun h => absurd h hno⟩
    obtain ⟨h, hzh, hclosed⟩ := hs.closed fun h =>
      hmisses ⟨fun h => absurd h hopens, fun _ => h⟩
    obtain ⟨r, requests, rfl⟩ := List.exists_cons_of_ne_nil (hnonempty hunchecked)
    have hevents : (s.emit (r :: requests)).handleEvents = s.handleEvents ++
        .called h :: (requests.map (.zoo s.client.zh)).filterMap ZkEvent.handleEvent := by
      rw [ZkState.emit, ZkState.handleEvents, List.filterMap_append, hzh]
      rfl
    unfold ZkState.Disciplined
    rw [hevents]
    exact not_disciplined_of_closed hclosed rfl

theorem ZkState.destroyed_disciplined (hs : s.Inv) :
    (s.destroyed zk).Disciplined ↔ s.client.zh = none ∨ s.client.connected = true := by
  have hdestroy : ZkClient.destroy zk s = if s.client.zh = none then (.ok (), s) else
      (.ok (), ⟨s.client, s.events ++
        [.zookeeperClose s.client.zh (zk.zookeeperClose s.events s.client.zh)]⟩) := by
    rw [ZkClient.destroy, Exec.bind_ok (Exec.get_apply s)]
    by_cases hzh : s.client.zh = none
    · rw [if_neg (not_not.mpr hzh), if_pos hzh]
      rfl
    · rw [if_pos hzh, if_neg hzh]
      rfl
  unfold destroyed
  rw [hdestroy]
  cases hzh : s.client.zh with
  | none => simpa [Disciplined, hzh] using hs.toDisciplined
  | some h =>
    simp only [reduceCtorEq, if_false, false_or]
    unfold Disciplined
    rw [handleEvents_concat]
    constructor
    · intro hd
      by_contra hno
      have hclosed := (hs.heldOpen h hzh).mpr (Bool.eq_false_iff.mpr hno)
      by_cases hok : zk.zookeeperClose s.events (some h) = zok
      · exact not_disciplined_of_closed (e := .closed h) hclosed rfl
          (by simpa [ZkEvent.handleEvent, hok] using hd)
      · exact not_disciplined_of_closed (e := .called h) hclosed rfl
          (by simpa [ZkEvent.handleEvent, hok] using hd)
    · intro hconnected
      unfold Inv at hs
      rw [hzh, hconnected] at hs
      by_cases hok : zk.zookeeperClose s.events (some h) = zok
      · simpa [ZkEvent.handleEvent, hok, hzh] using hs.closed.toDisciplined
      · simpa [ZkEvent.handleEvent, hok, hzh] using hs.called.toDisciplined

/-- In every state of a run, and after the destructor, the handles are dealt with properly exactly
when no call opens a handle over an open one or uses a closed one unchecked. -/
theorem handles_disciplined_iff (env : Env) (zk : Zookeeper) (servers : Bytes)
    (sessionTimeout : ℕ) {calls : List ClientCall}
    (hrun : run (ClientCall.step env zk) calls (.new servers sessionTimeout) = some s) :
    Run.Always (ClientCall.step env zk) ZkState.Disciplined calls (.new servers sessionTimeout) ∧
        (s.destroyed zk).Disciplined ↔
      Run.Along (ClientCall.step env zk) (ClientCall.Allowed env) calls
        (.new servers sessionTimeout) ∧ (s.client.zh = none ∨ s.client.connected = true) := by
  have hkeeps : ∀ (c : ClientCall) (t u : ZkState), t.Inv → c.Allowed env t →
      c.step env zk t = some u → u.Inv := by
    intro c t u ht hallowed hstep
    cases hstep
    exact c.perform_inv ht hallowed
  rw [Run.always_iff_along (P := ZkState.Inv) (Q := ZkState.Disciplined)
    (.new servers sessionTimeout) (fun _ ht => ht.toDisciplined) hkeeps
    fun c t ht hmisses => ⟨_, rfl, c.perform_loses ht hmisses⟩]
  refine and_congr_right fun halong => ?_
  have hs : s.Inv := Run.always_of_along (.new servers sessionTimeout) hkeeps halong calls s
    List.prefix_rfl hrun
  exact s.destroyed_disciplined hs

/-- A service that is up: each handle is a new one, and every call succeeds. -/
def upService : Zookeeper where
  zookeeperInit events _ _ := some ((events.filterMap ZkEvent.obtained).sum + 1)
  zookeeperClose _ _ := zok
  zoo _ _ _ := ⟨zok, [], some []⟩
  fresh := by
    rintro events _ _ zh heq hmem
    cases heq
    exact absurd (List.le_sum_of_mem hmem) (Nat.not_succ_le_self _)

/-- A client that is closed and connected again. -/
theorem handles_disciplined_iff_reconnect :
    ∃ s, run (ClientCall.step .default upService)
        [.init, .deleteNode (ascii "/ibdb"), .closeZK, .connectZK]
        (.new (ascii "127.0.0.1:2181") 3000) = some s ∧
      Run.Always (ClientCall.step .default upService) ZkState.Disciplined
        [.init, .deleteNode (ascii "/ibdb"), .closeZK, .connectZK]
        (.new (ascii "127.0.0.1:2181") 3000) ∧ (s.destroyed upService).Disciplined := by
  refine ⟨_, rfl, (handles_disciplined_iff .default upService (ascii "127.0.0.1:2181") 3000
    rfl).mpr ⟨?_, .inr rfl⟩⟩
  refine Run.along_cons.mpr ⟨⟨fun _ => .inl rfl, False.elim⟩, fun s hs => ?_⟩
  cases hs
  refine Run.along_cons.mpr ⟨⟨False.elim, False.elim⟩, fun s hs => ?_⟩
  cases hs
  refine Run.along_cons.mpr ⟨⟨False.elim, False.elim⟩, fun s hs => ?_⟩
  cases hs
  exact Run.along_cons.mpr ⟨⟨fun _ => .inr rfl, False.elim⟩, fun s _ => Run.along_nil _ s⟩

/-- `zookeeper_close` in the destructor, after a call that has closed the handle. -/
theorem closed_twice : ∃ s, run (ClientCall.step .default upService) [.init, .closeZK]
    (.new (ascii "127.0.0.1:2181") 3000) = some s ∧ ¬ (s.destroyed upService).Disciplined := by
  refine ⟨_, rfl, fun hd => absurd hd.closedOnce ?_⟩
  decide

end Discipline
end Ibdb.Client
