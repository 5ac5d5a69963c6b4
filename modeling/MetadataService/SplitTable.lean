import MetadataService.HazardPointer
import MetadataService.HeapCells
import MetadataService.RadixTree
import MetadataService.SplitOrder

namespace MetadataService.CT

open HeapCells

inductive Fault
  | dangling
  | assertion
  | bucketSize
  | undefined
  | fuel
  deriving DecidableEq

structure Link (A : Type) where
  ptr : Option A
  marked : Bool
  deriving DecidableEq

namespace Link

variable {A : Type}

def null : Link A := ⟨none, false⟩

def ref (a : A) : Link A := ⟨some a, false⟩

def getMarkedReference (l : Link A) : Link A := { l with marked := true }

def getUnmarkedReference (l : Link A) : Link A := { l with marked := false }

end Link

/-- A `RegularNode` with its key and its pointer to the value, or a `DummyNode`. -/
structure Node (A K : Type) where
  hash : UInt64
  reverseHash : UInt64
  next : Link A
  regular : Option (K × Option A)

inductive Obj (A K V : Type)
  | node (n : Node A K)
  | value (v : V)

inductive DeleteFunc
  | onDeleteNode
  | deleteValue
  deriving DecidableEq

structure Table (A K V : Type) where
  powerOf2 : ℕ
  size : ℕ
  segments : RadixTree 64 A 4
  heap : Heap A (Obj A K V)
  reclaimer : Reclaimer A DeleteFunc

def kMaxBucketSize : ℕ := 64 ^ 4

def dummyNode {A K : Type} (b : UInt64) : Node A K := ⟨b, dummyKey b, .null, none⟩

def regularNode {A K : Type} (hash : UInt64) (key : K) (value : Option A) : Node A K :=
  ⟨hash, regularKey hash, .null, some (key, value)⟩

namespace Node

variable {A K : Type} [LinearOrder K]

def isDummy (n : Node A K) : Bool := n.regular.isNone

def less (n₁ n₂ : Node A K) : Bool :=
  if n₁.reverseHash ≠ n₂.reverseHash then n₁.reverseHash < n₂.reverseHash
  else
    match n₁.regular, n₂.regular with
    | some (k₁, _), some (k₂, _) => k₁ < k₂
    | _, _ => false

def greaterOrEquals (n₁ n₂ : Node A K) : Bool := !less n₁ n₂

def equals (n₁ n₂ : Node A K) : Bool := !less n₁ n₂ && !less n₂ n₁

end Node

variable {A K V : Type} [DecidableEq A] [LinearOrder K]

section Memory

omit [LinearOrder K]

def nodeAt (h : Heap A (Obj A K V)) (a : A) : Except Fault (Node A K) :=
  match h.lookup a with
  | some (.node n) => .ok n
  | _ => .error .dangling

def valueAt (h : Heap A (Obj A K V)) (a : A) : Except Fault V :=
  match h.lookup a with
  | some (.value v) => .ok v
  | _ => .error .dangling

def setNode (h : Heap A (Obj A K V)) (a : A) (n : Node A K) : Heap A (Obj A K V) := h.insert a (.node n)

def deref : Option A → Except Fault A
  | some a => .ok a
  | none => .error .dangling

def deleteValue (h : Heap A (Obj A K V)) (a : A) : Except Fault (Heap A (Obj A K V)) := do
  let _ ← valueAt h a
  return h.erase a

-- The destructor of a regular node deletes its value unless the pointer is null.
def onDeleteNode (h : Heap A (Obj A K V)) (a : A) : Except Fault (Heap A (Obj A K V)) := do
  let n ← nodeAt h a
  match n.regular with
  | some (_, some va) =>
    let h ← deleteValue h va
    return h.erase a
  | _ => return h.erase a

def runDelete (h : Heap A (Obj A K V)) (e : A × DeleteFunc) : Except Fault (Heap A (Obj A K V)) :=
  match e.2 with
  | .onDeleteNode => onDeleteNode h e.1
  | .deleteValue => deleteValue h e.1

end Memory

namespace Table

def bucketSize (t : Table A K V) : ℕ := 2 ^ t.powerOf2

-- The indices of `bucket_index` in the arrays of segments and, last, of buckets.
def digits (b : UInt64) (i : ℕ) : Fin 64 := ⟨b.toNat / 64 ^ i % 64, Nat.mod_lt _ (by decide)⟩

section Reclaiming

omit [LinearOrder K]

def unMark (t : Table A K V) (hp : HazardPointer) : Except Fault (Table A K V) :=
  match hp.unMark t.reclaimer with
  | some r => .ok { t with reclaimer := r }
  | none => .error .assertion

-- The destructors of `cur_hp` and `prev_hp` at the end of their function.
def release (t : Table A K V) (prevHp curHp : HazardPointer) : Except Fault (Table A K V) := do
  let t ← t.unMark curHp
  t.unMark prevHp

def reclaimLater (t : Table A K V) (a : A) (f : DeleteFunc) : Table A K V :=
  { t with reclaimer := t.reclaimer.reclaimLater a f }

def reclaimNoHazardPointer (t : Table A K V) : Except Fault (Table A K V) := do
  let h ← t.reclaimer.reclaimNoHazardPointer.1.foldlM runDelete t.heap
  return { t with heap := h, reclaimer := t.reclaimer.reclaimNoHazardPointer.2 }

end Reclaiming

structure Cursor (A K V : Type) where
  table : Table A K V
  prev : A
  cur : Option A
  prevHp : HazardPointer
  curHp : HazardPointer

namespace Cursor

omit [LinearOrder K] in
/-- The label `try_again`. A marked pointer in `cur` would be dereferenced as it is. -/
def tryAgain (c : Cursor A K V) (head : A) : Except Fault (Cursor A K V) := do
  let n ← nodeAt c.table.heap head
  if n.next.marked then throw .dangling
  return { c with prev := head, cur := n.next.ptr }

omit [LinearOrder K] in
def mark (c : Cursor A K V) : Except Fault (Cursor A K V) := do
  let t ← c.table.unMark c.curHp
  let (r, hp) := HazardPointer.mark t.reclaimer c.cur
  return { c with table := { t with reclaimer := r }, curHp := hp }

omit [LinearOrder K] in
def adjacent (c : Cursor A K V) : Except Fault Bool := do
  let p ← nodeAt c.table.heap c.prev
  return p.next = ⟨c.cur, false⟩

omit [LinearOrder K] in
def exchangeNext (c : Cursor A K V) (new : Link A) : Except Fault (Bool × Cursor A K V) := do
  let p ← nodeAt c.table.heap c.prev
  if p.next = ⟨c.cur, false⟩ then
    return (true, { c with table :=
      { c.table with heap := setNode c.table.heap c.prev { p with next := new } } })
  else return (false, c)

omit [LinearOrder K] in
def unlinkMarked (c : Cursor A K V) (head a : A) (next : Link A) : Except Fault (Cursor A K V) := do
  let (done, c) ← c.exchangeNext next.getUnmarkedReference
  if done then
    let t ← (c.table.reclaimLater a .onDeleteNode).reclaimNoHazardPointer
    return { c with table := { t with size := t.size - 1 }, cur := next.ptr }
  else c.tryAgain head

omit [DecidableEq A] [LinearOrder K] in
def advance (c : Cursor A K V) (a : A) (next : Link A) : Cursor A K V :=
  let (tmp, _) := c.curHp.move
  let (curHp, _) := c.prevHp.move
  let (prevHp, _) := tmp.move
  { c with prev := a, cur := next.ptr, prevHp, curHp }

def step (head : A) (search : Node A K) (c : Cursor A K V) :
    Except Fault (Cursor A K V ⊕ (Cursor A K V × Bool)) := do
  let c ← c.mark
  if !(← c.adjacent) then return .inl (← c.tryAgain head)
  match c.cur with
  | none => return .inr (c, false)
  | some a =>
    let n ← nodeAt c.table.heap a
    if n.next.marked then return .inl (← c.unlinkMarked head a n.next)
    if !(← c.adjacent) then return .inl (← c.tryAgain head)
    if n.greaterOrEquals search then return .inr (c, n.equals search)
    return .inl (c.advance a n.next)

def loop (head : A) (search : Node A K) : ℕ → Cursor A K V → Except Fault (Cursor A K V × Bool)
  | 0, _ => .error .fuel
  | n + 1, c => do
    match ← c.step head search with
    | .inl c => loop head search n c
    | .inr r => return r

end Cursor

def searchNode (fuel : ℕ) (t : Table A K V) (head : A) (search : Node A K)
    (prevHp curHp : HazardPointer) : Except Fault (Cursor A K V × Bool) := do
  let c ← Cursor.tryAgain ⟨t, head, none, prevHp, curHp⟩ head
  c.loop head search fuel

-- The loop that `InsertDummyNode` and `InsertRegularNode` share: search, point the new node at `cur`
-- and exchange `prev->next`, until the exchange succeeds or the search finds the node.
def linkNode (fuel : ℕ) (head new : A) : ℕ → Table A K V → HazardPointer → HazardPointer →
    Except Fault (Cursor A K V × Bool)
  | 0, _, _, _ => .error .fuel
  | n + 1, t, prevHp, curHp => do
    let search ← nodeAt t.heap new
    let (c, found) ← t.searchNode fuel head search prevHp curHp
    if found then return (c, true)
    let fresh ← nodeAt c.table.heap new
    let t := { c.table with heap := setNode c.table.heap new { fresh with next := ⟨c.cur, false⟩ } }
    let (done, c) ← { c with table := t }.exchangeNext (.ref new)
    if done then return (c, false)
    linkNode fuel head new n c.table c.prevHp c.curHp

/-- `*real_head` when the search finds a node, and nothing when the new one is linked. -/
def insertDummyNode (fuel : ℕ) (t : Table A K V) (parentHead newHead : A) :
    Except Fault (Table A K V × Option A) := do
  let (c, found) ← linkNode fuel parentHead newHead fuel t .null .null
  let t ← c.table.release c.prevHp c.curHp
  return (t, if found then c.cur else none)

def getBucketHeadByIndex (t : Table A K V) (b : UInt64) : Option A := t.segments.get 4 (digits b)

-- `InitializeBucket` from where the head of the parent is known.
def makeBucket (alloc : Allocator A) (fuel : ℕ) (t : Table A K V) (b : UInt64) (parentHead : A) :
    Except Fault (Table A K V × A) :=
  let t := { t with segments := t.segments.alloc 4 (digits b) }
  match t.getBucketHeadByIndex b with
  | some a => .ok (t, a)
  | none => do
    let head := alloc.pick t.heap.keys
    let t := { t with heap := setNode t.heap head (dummyNode b) }
    let (t, realHead) ← t.insertDummyNode fuel parentHead head
    match realHead with
    | none => return ({ t with segments := t.segments.set 4 (digits b) head }, head)
    | some a =>
      let h ← onDeleteNode t.heap head
      return ({ t with heap := h }, a)

-- The number of leading zeros, and with it the parent of bucket 0, is not defined.
def initializeBucket (alloc : Allocator A) (fuel : ℕ) : ℕ → Table A K V → UInt64 →
    Except Fault (Table A K V × A)
  | 0, _, _ => .error .fuel
  | n + 1, t, b =>
    if b = 0 then .error .undefined
    else
      match t.getBucketHeadByIndex (getBucketParent b) with
      | some parentHead => makeBucket alloc fuel t b parentHead
      | none => do
        let (t, parentHead) ← initializeBucket alloc fuel n t (getBucketParent b)
        makeBucket alloc fuel t b parentHead

def getBucketHeadByHash (alloc : Allocator A) (fuel : ℕ) (t : Table A K V) (hash : UInt64) :
    Except Fault (Table A K V × A) :=
  let b := hash &&& (UInt64.ofNat t.bucketSize - 1)
  match t.getBucketHeadByIndex b with
  | some a => .ok (t, a)
  | none => initializeBucket alloc fuel fuel t b

-- `(1 << power) * kLoadFactor < size` with a load factor of one half, whose products are exact.
def grow (t : Table A K V) : Except Fault (Table A K V) := do
  let t := { t with size := t.size + 1 }
  if 2 ^ t.powerOf2 < 2 * t.size then
    let t := { t with powerOf2 := t.powerOf2 + 1 }
    if t.bucketSize ≤ kMaxBucketSize then return t else throw .bucketSize
  else return t

def updateNode (t : Table A K V) (cur new : A) : Except Fault (Table A K V) := do
  let n ← nodeAt t.heap cur
  let fresh ← nodeAt t.heap new
  match n.regular, fresh.regular with
  | some (key, oldValue), some (newKey, newValue) =>
    let t := { t with heap := setNode t.heap cur { n with regular := some (key, newValue) } }
    let old ← deref oldValue
    let t := t.reclaimLater old .deleteValue
    let t := { t with heap := setNode t.heap new { fresh with regular := some (newKey, none) } }
    let h ← onDeleteNode t.heap new
    return { t with heap := h }
  | _, _ => throw .dangling

def insertRegularNode (fuel : ℕ) (t : Table A K V) (head new : A) : Except Fault (Table A K V × Bool) := do
  let (c, found) ← linkNode fuel head new fuel t .null .null
  if found then
    let t ← c.table.updateNode (← deref c.cur) new
    let t ← t.release c.prevHp c.curHp
    return (t, false)
  else
    let t ← c.table.grow
    let t ← t.release c.prevHp c.curHp
    return (t, true)

-- The two loops of `DeleteNode`: the node that the search finds and that is then marked, with its
-- next pointer before that.
def markNode (fuel : ℕ) (head : A) (search : Node A K) : ℕ → Table A K V → HazardPointer →
    HazardPointer → Except Fault (Cursor A K V × Option (A × Link A))
  | 0, _, _, _ => .error .fuel
  | n + 1, t, prevHp, curHp => do
    let (c, found) ← t.searchNode fuel head search prevHp curHp
    if !found then return (c, none)
    let a ← deref c.cur
    let node ← nodeAt c.table.heap a
    if node.next.marked then markNode fuel head search n c.table c.prevHp c.curHp
    else
      let h := setNode c.table.heap a { node with next := node.next.getMarkedReference }
      return ({ c with table := { c.table with heap := h } }, some (a, node.next))

def deleteNode (fuel : ℕ) (t : Table A K V) (head : A) (search : Node A K) :
    Except Fault (Table A K V × Bool) := do
  let (c, marked) ← markNode fuel head search fuel t .null .null
  match marked with
  | none =>
    let t ← c.table.release c.prevHp c.curHp
    return (t, false)
  | some (a, next) =>
    let (done, c) ← c.exchangeNext next
    if done then
      let t := { c.table with size := c.table.size - 1 }
      let t ← (t.reclaimLater a .onDeleteNode).reclaimNoHazardPointer
      let t ← t.release c.prevHp c.curHp
      return (t, true)
    else
      let t ← c.table.unMark c.prevHp
      let t ← t.unMark c.curHp
      let (c, _) ← t.searchNode fuel head search c.prevHp c.curHp
      let t ← c.table.release c.prevHp c.curHp
      return (t, true)

-- The two loads of the value pointer agree, and it is read after the reclaimer has run.
def findNode (fuel : ℕ) (t : Table A K V) (head : A) (search : Node A K) :
    Except Fault (Table A K V × Option V) := do
  let (c, found) ← t.searchNode fuel head search .null .null
  if found then
    let n ← nodeAt c.table.heap (← deref c.cur)
    match n.regular with
    | some (_, value) =>
      let t ← c.table.reclaimNoHazardPointer
      let v ← valueAt t.heap (← deref value)
      let t ← t.release c.prevHp c.curHp
      return (t, some v)
    | none => throw .dangling
  else
    let t ← c.table.release c.prevHp c.curHp
    return (t, none)

variable (alloc : Allocator A) (hash : K → UInt64)

def insert (fuel : ℕ) (t : Table A K V) (key : K) (value : V) : Except Fault (Table A K V × Bool) := do
  let new := alloc.pick t.heap.keys
  let h := setNode t.heap new (regularNode (hash key) key none)
  let v := alloc.pick h.keys
  let h := setNode (h.insert v (.value value)) new (regularNode (hash key) key (some v))
  let (t, head) ← getBucketHeadByHash alloc fuel { t with heap := h } (hash key)
  t.insertRegularNode fuel head new

def delete (fuel : ℕ) (t : Table A K V) (key : K) : Except Fault (Table A K V × Bool) := do
  let (t, head) ← t.getBucketHeadByHash alloc fuel (hash key)
  t.deleteNode fuel head (regularNode (hash key) key none)

def find (fuel : ℕ) (t : Table A K V) (key : K) : Except Fault (Table A K V × Option V) := do
  let (t, head) ← t.getBucketHeadByHash alloc fuel (hash key)
  t.findNode fuel head (regularNode (hash key) key none)

def new (r : Reclaimer A DeleteFunc) : Table A K V :=
  let top : RadixTree 64 A 4 := some fun _ => RadixTree.null 3
  let head := alloc.pick ∅
  { powerOf2 := 1
    size := 0
    segments := (top.alloc 4 (digits 0)).set 4 (digits 0) head
    heap := setNode ∅ head (dummyNode 0)
    reclaimer := r }

end Table

end MetadataService.CT
