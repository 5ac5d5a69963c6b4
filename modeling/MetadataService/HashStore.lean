import MetadataService.DataItem
import MetadataService.LinkedChain
import MetadataService.MurmurHash

namespace MetadataService.MemStore

open ByteMemory LinkedChain Loops MurmurHash

inductive Fault
  | assertion
  | nullPointer
  | outOfFuel
deriving DecidableEq

theorem bind_ok {ε α β : Type} {x : Except ε α} {f : α → Except ε β} {b : β} :
    (x >>= f) = .ok b ↔ ∃ a, x = .ok a ∧ f a = .ok b := by
  cases x with
  | error e => simp [bind, Except.bind]
  | ok a => simp [bind, Except.bind]

def require (p : Prop) [Decidable p] : Except Fault Unit :=
  if p then .ok () else .error .assertion

def timed {σ ρ : Type} : σ ⊕ ρ → Except Fault ρ
  | .inl _ => .error .outOfFuel
  | .inr r => .ok r

structure MemStoreAllocParam where
  memRegionStart : UInt64
  memStoreStart : UInt64
  memStoreAllocOffset : Int64
  memStoreReserve : UInt64

structure MemStoreReserveParam where
  memStoreReserve : UInt64
  memStoreReserveOffset : Int64
  memStoreEnd : UInt64

structure HashStore where
  tableId : UInt64
  baseOff : Int64
  bucketNum : UInt64
  dataPtr : UInt64
  nodeNum : UInt64
  tableSize : UInt64
  regionStartPtr : UInt64

def hashStore (tableId bucketNum : UInt64) (param : MemStoreAllocParam) (m : Memory) :
    Except Fault (HashStore × MemStoreAllocParam × Memory) := do
  require (0 < bucketNum)
  let tableSize := bucketNum * 15848
  let off := param.memStoreAllocOffset.toUInt64
  require (param.memStoreStart + off + tableSize ≤ param.memStoreReserve)
  let dataPtr := param.memStoreStart + off
  let baseOff := (dataPtr - param.memRegionStart).toInt64
  require (0 ≤ baseOff)
  require (dataPtr ≠ 0)
  return ({ tableId, baseOff, bucketNum, dataPtr, nodeNum := 0, tableSize,
            regionStartPtr := param.memRegionStart },
    { param with memStoreAllocOffset := (off + tableSize).toInt64 },
    fill m dataPtr.toNat tableSize.toNat 0)

namespace HashStore

def getItemRemoteOffset (s : HashStore) (item : UInt64) : Int64 :=
  (item - s.regionStartPtr).toInt64

def getHash (s : HashStore) (key : UInt64) : UInt64 :=
  murmurHash64A key 0xdeadbeef % s.bucketNum

def bucket (s : HashStore) (hash : UInt64) : UInt64 := hash * 15848 + s.dataPtr

end HashStore

def nextOf (m : Memory) (node : UInt64) : UInt64 := readWord m (node.toNat + 15840)

def slotPtr (node : UInt64) (i : ℕ) : UInt64 := node + UInt64.ofNat (i * 720)

def slotsOf (node : UInt64) : List UInt64 := (List.range 22).map (slotPtr node)

def itemAt (m : Memory) (slot : UInt64) : DataItem := loadItem m slot.toNat

def findSlot (m : Memory) (test : DataItem → Bool) (node : UInt64) : Option UInt64 :=
  (slotsOf node).find? fun slot => test (itemAt m slot)

def holds (key : UInt64) (d : DataItem) : Bool := d.valid != 0 && d.key == key

def isFree (d : DataItem) : Bool := d.valid == 0

def searchBody (m : Memory) (key : UInt64) : UInt64 → UInt64 ⊕ Option UInt64 :=
  walkBody (nextOf m) 0 (fun node => (findSlot m (holds key) node).map some) none

def freeBody (m : Memory) : UInt64 → UInt64 ⊕ (UInt64 ⊕ UInt64) :=
  tailBody (nextOf m) 0 (findSlot m isFree)

def linkNode (m : Memory) (node new : UInt64) (d : DataItem) : Memory :=
  let m := fill m new.toNat 15848 0
  let m := setValid (storeItem m new.toNat d) new.toNat 1
  let m := writeWord m (new.toNat + 15840) 0
  writeWord m (node.toNat + 15840) new

structure Inserted where
  item : UInt64
  store : HashStore
  param : MemStoreReserveParam
  mem : Memory

namespace HashStore

def localGet (s : HashStore) (m : Memory) (key : UInt64) (fuel : ℕ) :
    Except Fault (Option UInt64) :=
  timed (run (searchBody m key) fuel (s.bucket (s.getHash key)))

def localInsert (s : HashStore) (m : Memory) (param : MemStoreReserveParam) (key : UInt64)
    (d : DataItem) (fuel : ℕ) : Except Fault Inserted := do
  match ← timed (run (freeBody m) fuel (s.bucket (s.getHash key))) with
  | .inl item =>
    return ⟨item, s, param, setValid (storeItem m item.toNat d) item.toNat 1⟩
  | .inr node =>
    let off := param.memStoreReserveOffset.toUInt64
    require (param.memStoreReserve + off ≤ param.memStoreEnd)
    let new := param.memStoreReserve + off
    let param := { param with memStoreReserveOffset := (off + 15848).toInt64 }
    if node = 0 then throw .nullPointer
    return ⟨slotPtr new 0, { s with nodeNum := s.nodeNum + 1 }, param, linkNode m node new d⟩

def localPut (s : HashStore) (m : Memory) (param : MemStoreReserveParam) (key : UInt64)
    (d : DataItem) (fuel : ℕ) : Except Fault Inserted := do
  match ← s.localGet m key fuel with
  | some res => return ⟨res, s, param, storeItem m res.toNat d⟩
  | none => s.localInsert m param key d fuel

def localDelete (s : HashStore) (m : Memory) (key : UInt64) (fuel : ℕ) :
    Except Fault (Bool × Memory) := do
  let node := s.bucket (s.getHash key)
  match findSlot m (holds key) node with
  | some item => return (true, setValid m item.toNat 0)
  | none =>
    match ← timed (run (searchBody m key) fuel (nextOf m node)) with
    | some item => return (true, setValid m item.toNat 0)
    | none => return (false, m)

def loadedItem (s : HashStore) (item tableId : UInt64) (val : List UInt8) (key : UInt64)
    (stack : Vector UInt8 664) : DataItem :=
  { ofLoad tableId val key stack with remoteOffset := s.getItemRemoteOffset item }

def loadRecord (s : HashStore) (m : Memory) (param : MemStoreReserveParam) (key : UInt64)
    (val : List UInt8) (tableId : UInt64) (stack : Vector UInt8 664) (fuel : ℕ) :
    Except Fault Inserted := do
  require (val.length ≤ 664)
  let r ← s.localInsert m param key (ofLoad tableId val key stack) fuel
  return { r with mem := setRemoteOffset r.mem r.item.toNat (r.store.getItemRemoteOffset r.item) }

end HashStore

end MetadataService.MemStore
