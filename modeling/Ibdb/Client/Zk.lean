import Ibdb.Base.Utils
import Ibdb.Lib.Exec

/-! The client of a ZooKeeper service, and the calls it makes to the C library. -/
namespace Ibdb.Client
open Ibdb.Base Std

/-- What a non-null `zhandle_t*` points at. -/
abbrev Handle := ℕ

def zok : ℤ := 0
def znodeexists : ℤ := -110

inductive Acl
  | openAclUnsafe
  | readAclUnsafe
  | creatorAllAcl
  deriving DecidableEq

inductive ZooRequest
  | zooCreate (path value : Bytes) (acl : Acl) (flags : ℕ)
  | zooDelete (path : Bytes) (version : ℤ)
  | zooGetChildren2 (path : Bytes)
  | zooGet (path : Bytes)
  | zooSet2 (path buffer : Bytes) (version : ℤ)
  | zooExists (path : Bytes)

/-- The code returned, and what the call filled in. `zoo_get` sets the length to -1 for a node
without data. -/
structure ZooAnswer where
  result : ℤ
  strings : List Bytes
  buffer : Option Bytes

/-- The calls to the library so far. `none` is the null pointer. -/
inductive ZkEvent
  | zookeeperInit (servers : Bytes) (recvTimeout : ℕ) (zh : Option Handle)
  | zookeeperClose (zh : Option Handle) (result : ℤ)
  | zoo (zh : Option Handle) (request : ZooRequest)

def ZkEvent.obtained : ZkEvent → Option Handle
  | zookeeperInit _ _ zh => zh
  | zookeeperClose .. | zoo .. => none

/-- The library: what it answers may depend on all calls so far, and a handle is never given out
twice. -/
structure Zookeeper where
  zookeeperInit : List ZkEvent → Bytes → ℕ → Option Handle
  zookeeperClose : List ZkEvent → Option Handle → ℤ
  zoo : List ZkEvent → Option Handle → ZooRequest → ZooAnswer
  fresh : ∀ events servers recvTimeout zh,
    zookeeperInit events servers recvTimeout = some zh → zh ∉ events.filterMap ZkEvent.obtained

structure ZkClient where
  servers : Bytes
  sessionTimeout : ℕ
  zh : Option Handle
  connected : Bool
  aclMap : ExtTreeMap ℕ Acl compare

def ZkClient.new (servers : Bytes) (sessionTimeout : ℕ) : ZkClient :=
  ⟨servers, sessionTimeout, none, false, ∅⟩

structure ZkState where
  client : ZkClient
  events : List ZkEvent

/-- `std::string::assign` throws `std::length_error`. -/
inductive ZkFault
  | lengthError

abbrev ZkM := Exec ZkFault ZkState

section Library
variable (zk : Zookeeper)

def zookeeperInit (servers : Bytes) (recvTimeout : ℕ) : ZkM (Option Handle) := do
  let s ← Exec.get
  let zh := zk.zookeeperInit s.events servers recvTimeout
  Exec.modify fun s => { s with events := s.events ++ [.zookeeperInit servers recvTimeout zh] }
  return zh

def zookeeperClose (zh : Option Handle) : ZkM ℤ := do
  let s ← Exec.get
  let result := zk.zookeeperClose s.events zh
  Exec.modify fun s => { s with events := s.events ++ [.zookeeperClose zh result] }
  return result

def zoo (zh : Option Handle) (request : ZooRequest) : ZkM ZooAnswer := do
  let s ← Exec.get
  let answer := zk.zoo s.events zh request
  Exec.modify fun s => { s with events := s.events ++ [.zoo zh request] }
  return answer

end Library

namespace ZkClient
variable (env : Env) (zk : Zookeeper)

def update (f : ZkClient → ZkClient) : ZkM Unit :=
  Exec.modify fun s => { s with client := f s.client }

def init : ZkM Bool := do
  let c := (← Exec.get).client
  let zh ← zookeeperInit zk c.servers c.sessionTimeout
  update fun c => { c with zh := zh }
  update fun c => { c with aclMap := c.aclMap.insertIfNew 0 .openAclUnsafe }
  update fun c => { c with aclMap := c.aclMap.insertIfNew 1 .readAclUnsafe }
  update fun c => { c with aclMap := c.aclMap.insertIfNew 2 .creatorAllAcl }
  if zh = none then return false
  else
    update fun c => { c with connected := true }
    return true

def connectZK : ZkM Bool := do
  let c := (← Exec.get).client
  let zh ← zookeeperInit zk c.servers c.sessionTimeout
  update fun c => { c with zh := zh }
  if zh = none then return false
  else
    update fun c => { c with connected := true }
    return true

/-- `zh_ == nullptr || !connected_` -/
def notConnected (c : ZkClient) : Bool := c.zh.isNone || !c.connected

def closeZK : ZkM Bool := do
  let c := (← Exec.get).client
  if c.notConnected then return false
  else
    let result ← zookeeperClose zk c.zh
    if result = zok then
      update fun c => { c with connected := false }
      return true
    else return false

def destroy : ZkM Unit := do
  let c := (← Exec.get).client
  if c.zh ≠ none then
    let _ ← zookeeperClose zk c.zh
    return ()
  else return ()

/-- The loop of `CreateParent`, from the path made so far. -/
def createNodes (path : Bytes) : List Bytes → ZkM Bool
  | [] => return true
  | e :: nodes => do
    if e = [] then createNodes path nodes
    else
      let path := path ++ ascii "/" ++ e
      let c := (← Exec.get).client
      let answer ← zoo zk c.zh (.zooCreate path e .openAclUnsafe 0)
      if answer.result = znodeexists then createNodes path nodes
      else if answer.result ≠ zok then return false
      else createNodes path nodes

def createParent (parentPath : Bytes) : ZkM Bool :=
  createNodes zk [] (splitString env parentPath (ascii "/"))

/-- `path.substr(0, path.find_last_of("/"))`, the whole path when there is no slash. -/
def parentOf (path : Bytes) : Bytes :=
  let upToSlash := path.rdropWhile fun b => !(ascii "/").contains b
  if upToSlash = [] then path else upToSlash.dropLast

def createNode (path data : Bytes) (mode acl : ℕ) (withParent : Bool) : ZkM Bool := do
  let c := (← Exec.get).client
  if c.notConnected then return false
  else
    match c.aclMap[acl]? with
    | none => return false
    | some vector =>
      let made ← if withParent then createParent env zk (parentOf path) else pure true
      if !made then return false
      else
        let c := (← Exec.get).client
        let answer ← zoo zk c.zh (.zooCreate path data vector mode)
        return answer.result = zok

def deleteNode (path : Bytes) : ZkM Bool := do
  let c := (← Exec.get).client
  if c.notConnected then return false
  else
    let answer ← zoo zk c.zh (.zooDelete path (-1))
    return answer.result = zok

/-- The names are added to the vector passed in. -/
def getChildren (path : Bytes) (children : List Bytes) : ZkM (Bool × List Bytes) := do
  let c := (← Exec.get).client
  if c.notConnected then return (false, children)
  else
    let answer ← zoo zk c.zh (.zooGetChildren2 path)
    if answer.result = zok then return (true, (children ++ answer.strings).mergeSort)
    else return (false, children)

/-- The pointer handed to `zoo_get` is not initialised; it is taken to point at enough memory. -/
def getData (path data : Bytes) : ZkM (Bool × Bytes) := do
  let c := (← Exec.get).client
  if c.notConnected then return (false, data)
  else
    let answer ← zoo zk c.zh (.zooGet path)
    if answer.result = zok then
      match answer.buffer with
      | some buffer => return (true, buffer)
      | none => Exec.throw .lengthError
    else return (false, data)

def setData (path data : Bytes) : ZkM Bool := do
  let c := (← Exec.get).client
  if c.notConnected then return false
  else
    let answer ← zoo zk c.zh (.zooSet2 path data (-1))
    return answer.result = zok

def checkNodeExisted (path : Bytes) : ZkM Bool := do
  let c := (← Exec.get).client
  if c.notConnected then return false
  else
    let answer ← zoo zk c.zh (.zooExists path)
    return answer.result = zok

/-- The loop of `DeleteAllOfNodes`. -/
def deleteNodes (path : Bytes) : List Bytes → ZkM Unit
  | [] => return ()
  | e :: children => do
    let _ ← deleteNode zk (path ++ ascii "/" ++ e)
    deleteNodes path children

def deleteAllOfNodes (path : Bytes) : ZkM Bool := do
  let c := (← Exec.get).client
  if c.notConnected then return false
  else
    let (result, children) ← getChildren zk path []
    if !result then return false
    else
      deleteNodes zk path children
      return true

def isExistedPath (path : Bytes) : ZkM Bool := do
  let c := (← Exec.get).client
  let answer ← zoo zk c.zh (.zooExists path)
  return answer.result = zok

end ZkClient

inductive ClientCall
  | init
  | connectZK
  | closeZK
  | createNode (path data : Bytes) (mode acl : ℕ) (withParent : Bool)
  | createParent (path : Bytes)
  | deleteNode (path : Bytes)
  | getChildren (path : Bytes) (children : List Bytes)
  | getData (path data : Bytes)
  | setData (path data : Bytes)
  | checkNodeExisted (path : Bytes)
  | deleteAllOfNodes (path : Bytes)
  | isExistedPath (path : Bytes)

/-- The state after a call, also when it throws. -/
def ClientCall.perform (env : Env) (zk : Zookeeper) : ClientCall → ZkState → ZkState
  | init, s => (ZkClient.init zk s).2
  | connectZK, s => (ZkClient.connectZK zk s).2
  | closeZK, s => (ZkClient.closeZK zk s).2
  | createNode path data mode acl withParent, s =>
    (ZkClient.createNode env zk path data mode acl withParent s).2
  | createParent path, s => (ZkClient.createParent env zk path s).2
  | deleteNode path, s => (ZkClient.deleteNode zk path s).2
  | getChildren path children, s => (ZkClient.getChildren zk path children s).2
  | getData path data, s => (ZkClient.getData zk path data s).2
  | setData path data, s => (ZkClient.setData zk path data s).2
  | checkNodeExisted path, s => (ZkClient.checkNodeExisted zk path s).2
  | deleteAllOfNodes path, s => (ZkClient.deleteAllOfNodes zk path s).2
  | isExistedPath path, s => (ZkClient.isExistedPath zk path s).2

end Ibdb.Client
