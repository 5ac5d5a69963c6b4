import MetadataService.Interleaving
import MetadataService.SplitRuns

/-!
The table `CT` of `util/ct.h`, called by any number of threads at once. Every atomic load, store and
exchange is one step of the thread that makes it. A node or a value gets its address when it becomes
visible to the other threads. Once it was handed to `ReclaimLater` it may be deleted at any time, and its
address be used again; `hazards` are the nodes that the hazard pointers of a call stand for.
-/

namespace MetadataService.CT

deriving instance DecidableEq for Op

/-- The memory that the threads share. The arrays of segments and buckets are named by the indices that
lead to them, from the top one. -/
structure Shared (A K V : Type) where
  powerOf2 : ℕ
  size : UInt64
  arrays : List (Fin 64) → Bool
  buckets : List (Fin 64) → Option A
  head : A
  nodes : A → Option (Node A K)
  values : A → Option V
  retired : A → Bool
  retiredValues : A → Bool

namespace Shared

variable {A K V : Type}

def route (b : UInt64) (n : ℕ) : List (Fin 64) := (List.range n).map fun i => Table.digits b (3 - i)

/-- Who calls `SearchNode`: `InsertDummyNode` for bucket `b`, with the buckets that wait for it, or the
call on a key, or `DeleteNode` after it failed to unlink the node that it marked. -/
inductive Task (A : Type)
  | dummy (b : UInt64) (waiting : List UInt64) (parentHead : A)
  | item (head : A)
  | cleanup (head : A)
  deriving DecidableEq

def Task.head : Task A → A
  | dummy _ _ parentHead => parentHead
  | item head => head
  | cleanup head => head

inductive SearchPoint (A : Type)
  | tryAgain
  | validate (prev : A) (cur : Link A)
  | readNext (prev cur : A)
  | unlink (prev cur : A) (next : Option A)
  | countDown (prev : A) (next : Option A)
  | revalidate (prev cur : A) (next : Option A)
  deriving DecidableEq

inductive Point (A V : Type)
  | loadPower
  | lookup (b : UInt64) (waiting : List UInt64) (depth : ℕ)
  | segment (b : UInt64) (waiting : List UInt64) (parentHead : A) (depth : ℕ)
  | allocate (b : UInt64) (waiting : List UInt64) (parentHead : A) (depth : ℕ)
  | search (task : Task A) (point : SearchPoint A)
  | link (task : Task A) (prev : A) (cur : Option A)
  | storeBucket (b : UInt64) (waiting : List UInt64) (head : A)
  | countUp
  | compareLoad (size : UInt64)
  | grow (power : ℕ)
  | checkBucketSize
  | exchange (cur : A)
  | readNext (head prev cur : A)
  | mark (head prev cur : A) (next : Option A)
  | unlink (head prev cur : A) (next : Option A)
  | countDown
  | loadValue (cur : A)
  | reloadValue (cur : A) (value : Option A)
  | copyValue (value : Option A)
  | finished (answer : Answer V)
  | fault
  deriving DecidableEq

/-- What is left open by the source: the addresses of a new node and of a new value, whether a weak
exchange fails although the pointers agree, and what is read from a value that was deleted. -/
structure Choice (A V : Type) where
  node : A
  value : A
  spurious : Bool
  garbage : V

def Choice.Fresh (ch : Choice A V) (s : Shared A K V) : Prop := s.nodes ch.node = none ∧ s.values ch.value = none

section Control

-- The head of a bucket is known: the call goes on, or the bucket that waits for it is made.
def resume : List UInt64 → A → Point A V
  | [], head => .search (.item head) .tryAgain
  | b :: waiting, head => .segment b waiting head 0

-- `InitializeBucket` begins with its parent; the parent of bucket 0 is not defined.
def initializeBucket (b : UInt64) (waiting : List UInt64) : Point A V :=
  if b = 0 then .fault else .lookup (getBucketParent b) (b :: waiting) 0

def onFound (op : Op K V) (task : Task A) (prev cur : A) : Point A V :=
  match task with
  | .dummy _ waiting _ => resume waiting cur
  | .cleanup _ => .finished (.deleted true)
  | .item head =>
    match op with
    | .insert _ _ => .exchange cur
    | .delete _ => .readNext head prev cur
    | .find _ => .loadValue cur

def onMissed (op : Op K V) (task : Task A) (prev : A) (cur : Option A) : Point A V :=
  match task with
  | .dummy _ _ _ => .link task prev cur
  | .cleanup _ => .finished (.deleted true)
  | .item _ =>
    match op with
    | .insert _ _ => .link task prev cur
    | .delete _ => .finished (.deleted false)
    | .find _ => .finished (.found none)

end Control

variable [DecidableEq A]

def putNode (s : Shared A K V) (a : A) (n : Node A K) : Shared A K V :=
  { s with nodes := Function.update s.nodes a (some n) }

def setNext (s : Shared A K V) (a : A) (n : Node A K) (l : Link A) : Shared A K V :=
  s.putNode a { n with next := l }

def putValue (s : Shared A K V) (a : A) (v : V) : Shared A K V :=
  { s with values := Function.update s.values a (some v) }

def retire (s : Shared A K V) (a : A) : Shared A K V := { s with retired := Function.update s.retired a true }

def retireValue (s : Shared A K V) (value : Option A) : Shared A K V :=
  { s with
    retiredValues :=
      match value with
      | some a => Function.update s.retiredValues a true
      | none => s.retiredValues }

def freeValue (s : Shared A K V) (a : A) : Shared A K V :=
  { s with
    values := Function.update s.values a none
    retiredValues := Function.update s.retiredValues a false }

def freeNode (s : Shared A K V) (a : A) : Shared A K V :=
  { s with
    nodes := Function.update s.nodes a none
    retired := Function.update s.retired a false
    values :=
      match (s.nodes a).bind Node.regular with
      | some (_, some value) => Function.update s.values value none
      | _ => s.values }

def lookupStep (s : Shared A K V) (b : UInt64) (waiting : List UInt64) (depth : ℕ) : Point A V :=
  if depth < 3 then
    if s.arrays (route b (depth + 1)) then .lookup b waiting (depth + 1) else initializeBucket b waiting
  else
    match s.buckets (route b 4) with
    | some head => resume waiting head
    | none => initializeBucket b waiting

def segmentStep (s : Shared A K V) (b : UInt64) (waiting : List UInt64) (parentHead : A) (depth : ℕ) :
    Point A V :=
  if depth < 3 then
    if s.arrays (route b (depth + 1)) then .segment b waiting parentHead (depth + 1)
    else .allocate b waiting parentHead depth
  else
    match s.buckets (route b 4) with
    | some head => resume waiting head
    | none => .search (.dummy b waiting parentHead) .tryAgain

variable [LinearOrder K] (hash : K → UInt64)

def opKey : Op K V → K
  | .insert k _ => k
  | .delete k => k
  | .find k => k

def searchNode (op : Op K V) : Task A → Node A K
  | .dummy b _ _ => dummyNode b
  | _ => regularNode (hash (opKey op)) (opKey op) none

def searchStep (s : Shared A K V) (op : Op K V) (task : Task A) : SearchPoint A → Shared A K V × Point A V
  | .tryAgain =>
    match s.nodes task.head with
    | some n => (s, .search task (.validate task.head n.next))
    | none => (s, .fault)
  | .validate prev cur =>
    match s.nodes prev with
    | some n =>
      if n.next ≠ cur then (s, .search task .tryAgain)
      else
        match cur with
        | ⟨none, false⟩ => (s, onMissed op task prev none)
        | ⟨some a, false⟩ => (s, .search task (.readNext prev a))
        -- a marked pointer would be dereferenced as it is
        | ⟨_, true⟩ => (s, .fault)
    | none => (s, .fault)
  | .readNext prev cur =>
    match s.nodes cur with
    | some n =>
      if n.next.marked then (s, .search task (.unlink prev cur n.next.ptr))
      else (s, .search task (.revalidate prev cur n.next.ptr))
    | none => (s, .fault)
  | .unlink prev cur next =>
    match s.nodes prev with
    | some n =>
      if n.next = .ref cur then ((s.setNext prev n ⟨next, false⟩).retire cur, .search task (.countDown prev next))
      else (s, .search task .tryAgain)
    | none => (s, .fault)
  | .countDown prev next => ({ s with size := s.size - 1 }, .search task (.validate prev ⟨next, false⟩))
  | .revalidate prev cur next =>
    match s.nodes prev, s.nodes cur with
    | some n, some m =>
      if n.next ≠ .ref cur then (s, .search task .tryAgain)
      else if m.greaterOrEquals (searchNode hash op task) then
        if m.equals (searchNode hash op task) then (s, onFound op task prev cur)
        else (s, onMissed op task prev (some cur))
      else (s, .search task (.validate cur ⟨next, false⟩))
    | _, _ => (s, .fault)

def linkStep (ch : Choice A V) (s : Shared A K V) (op : Op K V) (task : Task A) (prev : A) (cur : Option A) :
    Shared A K V × Point A V :=
  match s.nodes prev with
  | none => (s, .fault)
  | some n =>
    if n.next ≠ ⟨cur, false⟩ ∨ ch.spurious then (s, .search task .tryAgain)
    else
      match task, op with
      | .dummy b waiting _, _ =>
        ((s.putNode ch.node { dummyNode b with next := ⟨cur, false⟩ }).setNext prev n (.ref ch.node),
          .storeBucket b waiting ch.node)
      | .item _, .insert k v =>
        (((s.putValue ch.value v).putNode ch.node
            { regularNode (hash k) k (some ch.value) with next := ⟨cur, false⟩ }).setNext prev n (.ref ch.node),
          .countUp)
      | _, _ => (s, .fault)

def exec (ch : Choice A V) (s : Shared A K V) (op : Op K V) : Point A V → Shared A K V × Point A V
  | .loadPower => (s, .lookup (hash (opKey op) &&& (UInt64.ofNat (2 ^ s.powerOf2) - 1)) [] 0)
  | .lookup b waiting depth => (s, s.lookupStep b waiting depth)
  | .segment b waiting parentHead depth => (s, s.segmentStep b waiting parentHead depth)
  -- whoever wins the exchange, the array is there afterwards
  | .allocate b waiting parentHead depth =>
    ({ s with arrays := Function.update s.arrays (route b (depth + 1)) true },
      .segment b waiting parentHead (depth + 1))
  | .search task p => s.searchStep hash op task p
  | .link task prev cur => s.linkStep hash ch op task prev cur
  | .storeBucket b waiting head =>
    ({ s with buckets := Function.update s.buckets (route b 4) (some head) }, resume waiting head)
  | .countUp => ({ s with size := s.size + 1 }, .compareLoad (s.size + 1))
  | .compareLoad size =>
    (s, if 2 ^ s.powerOf2 < 2 * size.toNat then .grow s.powerOf2 else .finished (.inserted true))
  | .grow power =>
    if s.powerOf2 = power then ({ s with powerOf2 := power + 1 }, .checkBucketSize)
    else (s, .finished (.inserted true))
  | .checkBucketSize => (s, if 2 ^ s.powerOf2 ≤ kMaxBucketSize then .finished (.inserted true) else .fault)
  | .exchange cur =>
    match s.nodes cur, op with
    | some n, .insert _ v =>
      match n.regular with
      | some (key, old) =>
        (((s.putValue ch.value v).putNode cur { n with regular := some (key, some ch.value) }).retireValue old,
          .finished (.inserted false))
      | none => (s, .fault)
    | _, _ => (s, .fault)
  | .readNext head prev cur =>
    match s.nodes cur with
    | some n =>
      (s, if n.next.marked then .search (.item head) .tryAgain else .mark head prev cur n.next.ptr)
    | none => (s, .fault)
  | .mark head prev cur next =>
    match s.nodes cur with
    | some n =>
      if n.next ≠ ⟨next, false⟩ ∨ ch.spurious then (s, .search (.item head) .tryAgain)
      else (s.setNext cur n ⟨next, true⟩, .unlink head prev cur next)
    | none => (s, .fault)
  | .unlink head prev cur next =>
    match s.nodes prev with
    | some n =>
      if n.next = .ref cur then ((s.setNext prev n ⟨next, false⟩).retire cur, .countDown)
      else (s, .search (.cleanup head) .tryAgain)
    | none => (s, .fault)
  | .countDown => ({ s with size := s.size - 1 }, .finished (.deleted true))
  | .loadValue cur =>
    match (s.nodes cur).bind Node.regular with
    | some (_, value) => (s, .reloadValue cur value)
    | none => (s, .fault)
  | .reloadValue cur value =>
    match (s.nodes cur).bind Node.regular with
    | some (_, value') => (s, if value = value' then .copyValue value' else .loadValue cur)
    | none => (s, .fault)
  -- no hazard pointer stands for the value
  | .copyValue value =>
    match value with
    | some a => (s, .finished (.found (some ((s.values a).getD ch.garbage))))
    | none => (s, .fault)
  | .finished answer => (s, .finished answer)
  | .fault => (s, .fault)

inductive Control (A K V : Type)
  | idle (last : Option (Answer V))
  | running (op : Op K V) (point : Point A V)
  deriving DecidableEq

/-- One step of a thread. A reclaimer may delete what was handed to it at any time. A thread that failed
stays there. -/
inductive Step : Shared A K V × Control A K V → Shared A K V × Control A K V → Prop
  | call (s : Shared A K V) (last : Option (Answer V)) (op : Op K V) : Step (s, .idle last) (s, .running op .loadPower)
  | exec (s : Shared A K V) (op : Op K V) (p : Point A V) (ch : Choice A V) (h : ch.Fresh s) :
    Step (s, .running op p) ((s.exec hash ch op p).1, .running op (s.exec hash ch op p).2)
  | answer (s : Shared A K V) (op : Op K V) (a : Answer V) :
    Step (s, .running op (.finished a)) (s, .idle (some a))
  | freeNode (s : Shared A K V) (l : Control A K V) (a : A) (h : s.retired a = true) : Step (s, l) (s.freeNode a, l)
  | freeValue (s : Shared A K V) (l : Control A K V) (a : A) (h : s.retiredValues a = true) :
    Step (s, l) (s.freeValue a, l)

section Hazards

omit [DecidableEq A] [LinearOrder K]

/-- What `prev_hp` and `cur_hp` stand for once `prev->next` was seen to be `cur`. -/
def SearchPoint.hazards : SearchPoint A → List A
  | .tryAgain => []
  | .validate prev _ => [prev]
  | .readNext prev cur => [prev, cur]
  | .unlink prev cur _ => [prev, cur]
  | .countDown prev _ => [prev]
  | .revalidate prev cur _ => [prev, cur]

def Point.hazards : Point A V → List A
  | .search _ point => point.hazards
  | .link _ prev cur => prev :: cur.toList
  | .exchange cur => [cur]
  | .readNext _ prev cur => [prev, cur]
  | .mark _ prev cur _ => [prev, cur]
  | .unlink _ prev cur _ => [prev, cur]
  | .loadValue cur => [cur]
  | .reloadValue cur _ => [cur]
  | _ => []

def Control.hazards : Control A K V → List A
  | .idle _ => []
  | .running _ point => point.hazards

/-- A node that a hazard pointer of the call stands for is not deleted. -/
def Keeps (s s' : Shared A K V) (l : Control A K V) : Prop :=
  ∀ a ∈ l.hazards, (s.nodes a).isSome → (s'.nodes a).isSome

instance (s s' : Shared A K V) (l : Control A K V) : Decidable (Keeps s s' l) :=
  inferInstanceAs (Decidable (∀ a ∈ l.hazards, _))

end Hazards

def new (head : A) : Shared A K V where
  powerOf2 := 1
  size := 0
  arrays path := path = route 0 1 ∨ path = route 0 2 ∨ path = route 0 3
  buckets := Function.update (fun _ => none) (route 0 4) (some head)
  head := head
  nodes := Function.update (fun _ => none) head (some (dummyNode 0))
  values _ := none
  retired _ := false
  retiredValues _ := false

end Shared

end MetadataService.CT
