import MetadataService.Linearization
import MetadataService.LogAllocator
import MetadataService.RemoteIdentifiers

/-!
How the threads of the compute machines connect queue pairs with the memory nodes
(`QPManager::BuildQPConnection` and the control plane of `rlib`). A thread creates two queue pairs for every
node and sends the attributes of each to the node, over a TCP connection. The handler of the node looks for a
queue pair under the ids in the request, creates one when there is none, and replies with its attributes. What
is sent may get lost; the thread then asks again over a new connection.
-/

namespace MetadataService.QueuePairs

open Allocator MetaExchange Threads

structure QPIdx where
  nodeId : Int32
  workerId : Int32
  index : Int32
deriving DecidableEq

def createRcIdx (nid wid : Int32) : QPIdx := ⟨nid, wid, 0⟩

def encodeQp64bId (m idx : Int32) : UInt64 := m.toInt64.toUInt64 <<< 32 ||| idx.toInt64.toUInt64

def getRcKey (idx : QPIdx) : UInt64 := encodeQp64bId idx.nodeId idx.workerId

inductive ConnStatus
  | succ
  | timeout
  | wrongArg
  | err
  | notReady
  | unknown
deriving DecidableEq

structure Address where
  subnetPrefix : UInt64
  interfaceId : UInt64
  localId : UInt32
deriving DecidableEq

structure RNicHandler where
  addr : Address
  lid : UInt16
  portId : UInt16

structure QPAttr where
  addr : Address
  lid : UInt16
  qpn : UInt32
  psn : UInt32
  nodeId : UInt16
  portId : UInt16
deriving DecidableEq

structure Endpoint where
  subnetPrefix : UInt64
  interfaceId : UInt64
  lid : UInt16
  qpn : UInt32
deriving DecidableEq

def QPAttr.endpoint (a : QPAttr) : Endpoint := ⟨a.addr.subnetPrefix, a.addr.interfaceId, a.lid, a.qpn⟩

structure QPConnArg where
  fromNode : UInt16
  fromWorker : UInt32
  qpAttr : QPAttr

structure ConnReply where
  ack : ConnStatus
  qp : QPAttr

structure MemoryAttr where
  buf : UInt64
  key : UInt32
deriving DecidableEq

inductive Ctrl (H : Type)
  | compute (machineId : Int32)
  | memory (h : H)
deriving DecidableEq

inductive QPState
  | reset
  | init
  | rtr
  | rts
deriving DecidableEq

structure RCQP (H : Type) where
  ctrl : Ctrl H
  idx : QPIdx
  state : QPState
  dest : Option Endpoint
  remoteMr : Option MemoryAttr

namespace RCQP

variable {H : Type}

def ready2rcv (attr : QPAttr) (q : RCQP H) : Option (RCQP H) :=
  if q.state = .init then some { q with state := .rtr, dest := some attr.endpoint } else none

def ready2send (q : RCQP H) : Option (RCQP H) :=
  if q.state = .rtr then some { q with state := .rts } else none

def bindRemoteMr (attr : MemoryAttr) (q : RCQP H) : RCQP H := { q with remoteMr := some attr }

end RCQP

structure RemoteNode (H : Type) where
  nodeId : Int32
  host : H

structure System (H : Type) where
  rnic : Ctrl H → RNicHandler
  nodeId : H → Int32
  remoteNodes : Int32 → List (RemoteNode H)
  remoteHashMrs : Int32 → Int32 → MemoryAttr
  remoteLogMrs : Int32 → Int32 → MemoryAttr
  inRange : ∀ m, ∀ node ∈ remoteNodes m, NodeInRange node.nodeId
  distinct : ∀ m, ((remoteNodes m).map RemoteNode.nodeId).Nodup

structure Conn (H : Type) where
  host : H
  arg : QPConnArg
  reply : Option ConnReply

/-- The maps `qps_` of the controllers, the queue pairs themselves and all connections made so far. -/
structure Shared (H : Type) where
  qps : Ctrl H → UInt64 → Option Endpoint
  pairs : Endpoint → Option (RCQP H)
  conns : List (Conn H)

def Shared.new {H : Type} : Shared H := ⟨fun _ _ => none, fun _ => none, []⟩

inductive Kind
  | data
  | log
deriving DecidableEq

def workerId (globalTid : UInt32) : Kind → Int32
  | .data => globalTid.toInt32 * 2
  | .log => globalTid.toInt32 * 2 + 1

inductive Point
  | createData
  | createLog (dataQp : Endpoint)
  | connect (k : Kind) (dataQp logQp : Endpoint)
  | await (k : Kind) (dataQp logQp : Endpoint) (conn : ℕ)
  | done
  | fault
deriving DecidableEq

structure Local (c : Cluster) (H : Type) where
  thread : c.Thread
  todo : List (RemoteNode H)
  point : Point
  man : QPManager Endpoint

/-- What the machine decides in a step: the number of a new queue pair, whether it can be initialised, whether
messages arrive, and whether the queue pair can change its state. -/
structure Choice where
  qpn : UInt32
  init : Bool
  sent : Bool
  received : Bool
  rcv : Bool
  send : Bool

section Control

variable {H : Type} [DecidableEq H] (sys : System H)

def getAttr (ctrl : Ctrl H) (qpn : UInt32) : QPAttr where
  addr := (sys.rnic ctrl).addr
  lid := (sys.rnic ctrl).lid
  qpn := qpn
  psn := 3185
  nodeId := 0
  portId := (sys.rnic ctrl).portId

def Shared.modify (s : Shared H) (e : Endpoint) (f : RCQP H → Option (RCQP H)) : Option (Shared H) :=
  ((s.pairs e).bind f).map fun q => { s with pairs := Function.update s.pairs e (some q) }

/-- The driver refuses to create a queue pair under a number that is in use. -/
def createRcQp (s : Shared H) (ctrl : Ctrl H) (idx : QPIdx) (qpn : UInt32) (init : Bool) :
    Option (Endpoint × Shared H) :=
  match s.qps ctrl (getRcKey idx) with
  | some e => some (e, s)
  | none =>
    let e := (getAttr sys ctrl qpn).endpoint
    if (s.pairs e).isSome then none
    else some (e,
      { s with
        qps := Function.update s.qps ctrl (Function.update (s.qps ctrl) (getRcKey idx) (some e))
        pairs := Function.update s.pairs e (some ⟨ctrl, idx, if init then .init else .reset, none, none⟩) })

def QPConnArg.idx (arg : QPConnArg) : QPIdx :=
  createRcIdx arg.fromNode.toUInt32.toInt32 arg.fromWorker.toInt32

def handleQP (h : H) (qpn : UInt32) (arg : QPConnArg) (s : Shared H) : Option (ConnReply × Shared H) := do
  let reply (e : Endpoint) : ConnReply :=
    ⟨.succ, { getAttr sys (.memory h) e.qpn with nodeId := (sys.nodeId h).toInt16.toUInt16 }⟩
  match s.qps (.memory h) (getRcKey arg.idx) with
  | some e => return (reply e, s)
  | none =>
    let (e, s) ← createRcQp sys s (.memory h) arg.idx qpn true
    let s ← s.modify e (RCQP.ready2rcv arg.qpAttr)
    let s ← s.modify e RCQP.ready2send
    return (reply e, s)

def connectionHandler (h : H) (n : ℕ) (qpn : UInt32) (s : Shared H) : Option (Shared H) := do
  let conn ← s.conns[n]?
  if conn.host = h ∧ conn.reply.isNone then
    let (reply, s) ← handleQP sys h qpn conn.arg s
    return { s with conns := s.conns.set n { conn with reply := some reply } }
  else none

def cleanQP (h : H) (s : Shared H) : Shared H :=
  { s with qps := Function.update s.qps (.memory h) fun _ => none }

def connectArg (s : Shared H) (e : Endpoint) : ConnStatus ⊕ QPConnArg :=
  match s.pairs e with
  | some q =>
    match q.state with
    | .init =>
      .inr ⟨q.idx.nodeId.toInt16.toUInt16, q.idx.workerId.toUInt32, getAttr sys q.ctrl e.qpn⟩
    | .rts => .inl .succ
    | .reset => .inl .unknown
    | .rtr => .inl .unknown
  | none => .inl .unknown

def connectReply (x : Choice) (s : Shared H) (e : Endpoint) (reply : ConnReply) : ConnStatus × Shared H :=
  if reply.ack ≠ .succ then (.notReady, s)
  else
    match s.modify e fun q => if x.rcv then q.ready2rcv reply.qp else none with
    | none => (.err, s)
    | some s =>
      match s.modify e fun q => if x.send then q.ready2send else none with
      | none => (.err, s)
      | some s => (.succ, s)

end Control

section Threads

variable {H : Type} [DecidableEq H] {c : Cluster} (sys : System H)

def Kind.pick (k : Kind) (dataQp logQp : Endpoint) : Endpoint :=
  match k with
  | .data => dataQp
  | .log => logQp

def remoteMr (m : Int32) (k : Kind) (nodeId : Int32) : MemoryAttr :=
  match k with
  | .data => sys.remoteHashMrs m nodeId
  | .log => sys.remoteLogMrs m nodeId

def table (man : QPManager Endpoint) : Kind → Fin 100 → Option Endpoint
  | .data => man.dataQps
  | .log => man.logQps

def setQp (man : QPManager Endpoint) (k : Kind) (i : Fin 100) (e : Endpoint) : QPManager Endpoint :=
  match k with
  | .data => { man with dataQps := Function.update man.dataQps i (some e) }
  | .log => { man with logQps := Function.update man.logQps i (some e) }

def Local.idx (l : Local c H) (k : Kind) (node : RemoteNode H) : QPIdx :=
  createRcIdx node.nodeId (workerId l.thread.globalId k)

def Local.ctrl (l : Local c H) : Ctrl H := .compute l.thread.machineId

def Local.goto (l : Local c H) (p : Point) : Local c H := { l with point := p }

def connected (rc : ConnStatus) (k : Kind) (dataQp logQp : Endpoint) (node : RemoteNode H)
    (rest : List (RemoteNode H)) (s : Shared H) (l : Local c H) : Shared H × Local c H :=
  if rc ≠ .succ then (s, l.goto (.connect k dataQp logQp))
  else
    let e := k.pick dataQp logQp
    let mr := remoteMr sys l.thread.machineId k node.nodeId
    let s := { s with pairs := Function.update s.pairs e ((s.pairs e).map (RCQP.bindRemoteMr mr)) }
    match QPManager.slot node.nodeId with
    | .error _ => (s, l.goto .fault)
    | .ok i =>
      let l := { l with man := setQp l.man k i e }
      match k with
      | .data => (s, l.goto (.connect .log dataQp logQp))
      | .log => (s, { l with todo := rest, point := .createData })

def exec (x : Choice) (s : Shared H) (l : Local c H) : Shared H × Local c H :=
  match l.todo with
  | [] => (s, l.goto .done)
  | node :: rest =>
    match l.point with
    | .createData =>
      match createRcQp sys s l.ctrl (l.idx .data node) x.qpn x.init with
      | some (e, s) => (s, l.goto (.createLog e))
      | none => (s, l.goto .fault)
    | .createLog dataQp =>
      match createRcQp sys s l.ctrl (l.idx .log node) x.qpn x.init with
      | some (e, s) => (s, l.goto (.connect .data dataQp e))
      | none => (s, l.goto .fault)
    | .connect k dataQp logQp =>
      match connectArg sys s (k.pick dataQp logQp) with
      | .inl rc => connected sys rc k dataQp logQp node rest s l
      | .inr arg =>
        if x.sent then
          ({ s with conns := s.conns ++ [⟨node.host, arg, none⟩] }, l.goto (.await k dataQp logQp s.conns.length))
        else connected sys .err k dataQp logQp node rest s l
    | .await k dataQp logQp n =>
      if x.received then
        match (s.conns[n]?).bind Conn.reply with
        | some reply =>
          let (rc, s) := connectReply x s (k.pick dataQp logQp) reply
          connected sys rc k dataQp logQp node rest s l
        | none => (s, l)
      else connected sys .err k dataQp logQp node rest s l
    | .done => (s, l)
    | .fault => (s, l)

/-- The handler of a memory node, or the call of `CleanQP` there, can come between any two steps of the
threads. The handler serves one request at a time and shares its map with `CleanQP` only, so that nothing can
come between the statements of one request. -/
inductive Step : Shared H × Local c H → Shared H × Local c H → Prop
  | exec (s : Shared H) (l : Local c H) (x : Choice) : Step (s, l) ((exec sys x s l).1, (exec sys x s l).2)
  | serve (s s' : Shared H) (l : Local c H) (h : H) (n : ℕ) (qpn : UInt32)
    (hs : connectionHandler sys h n qpn s = some s') : Step (s, l) (s', l)
  | clean (s : Shared H) (l : Local c H) (h : H) : Step (s, l) (cleanQP h s, l)

def Local.new (t : c.Thread) : Local c H :=
  ⟨t, sys.remoteNodes t.machineId, .createData, ⟨fun _ => none, fun _ => none⟩⟩

def Run (d : Threads c.Thread (Shared H) (Local c H)) : Prop :=
  Reachable (Step sys) ⟨Shared.new, fun t => Local.new sys t⟩ d

inductive Action (H : Type)
  | exec (x : Choice)
  | serve (h : H) (n : ℕ) (qpn : UInt32)
  | clean (h : H)

def act : Action H → Shared H × Local c H → Option (Shared H × Local c H)
  | .exec x, (s, l) => some (exec sys x s l)
  | .serve h n qpn, (s, l) => (connectionHandler sys h n qpn s).map fun s => (s, l)
  | .clean h, (s, l) => some (cleanQP h s, l)

variable {sys}

theorem act_step (x : Action H) (p q : Shared H × Local c H) (h : act sys x p = some q) : Step sys p q := by
  obtain ⟨s, l⟩ := p
  cases x with
  | exec x =>
    cases h
    exact .exec s l x
  | serve m n qpn =>
    obtain ⟨s', hs, rfl⟩ := Option.map_eq_some_iff.mp h
    exact .serve s s' l m n qpn hs
  | clean m =>
    cases h
    exact .clean s l m

end Threads

end MetadataService.QueuePairs
