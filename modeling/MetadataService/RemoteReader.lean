import MetadataService.MetaExchange

namespace MetadataService.Dmc

open ByteMemory Loops LinkedChain MemStore MetaExchange MurmurHash

def notFound : UInt64 := 0xFFFFFFFFFFFFFFFF

structure Inode where
  permission : UInt64
  atime : UInt16
  ctime : UInt16
  mtime : UInt16
  isDir : Bool

structure InodeCacheItem where
  addr : UInt64
  inode : Inode

abbrev AddrCache := Int32 → UInt64 → Option InodeCacheItem

structure DataSetItem where
  item : DataItem
  isFetched : Bool
  offset : UInt64
  readWhichNode : Int32

structure DirectRead (n : ℕ) where
  qp : Int32
  item : Fin n
  buf : Memory
  remoteNode : Int32

structure HashRead (n : ℕ) where
  qp : Int32
  item : Fin n
  buf : Memory
  remoteNode : Int32
  table : HashMeta

structure Request (n : ℕ) where
  item : Fin n
  qp : Int32
  offset : UInt64
  size : ℕ
deriving DecidableEq

/-- What a coroutine finds around it: the metadata, the registered region of every memory node, and
whether its k-th read can be posted. -/
structure Cluster where
  manager : MetaManager
  region : Int32 → Memory
  regionStart : Int32 → UInt64
  accepts : ℕ → Bool

structure Client (n : ℕ) where
  readerSet : Fin n → DataSetItem
  addrCache : AddrCache
  posted : List (Request n)
  yields : ℕ

def getPrimaryNodeID (mgr : MetaManager) (tableId : UInt64) : Except Fault Int32 :=
  match mgr.primaryTableNodes tableId with
  | some node => .ok node
  | none => .error .assertion

def getPrimaryHashMeta (mgr : MetaManager) (tableId : UInt64) : Except Fault HashMeta :=
  match mgr.primaryHashMetas tableId with
  | some x => .ok x
  | none => .error .assertion

def bucketOff (table : HashMeta) (key : UInt64) : UInt64 :=
  murmurHash64A key 0xdeadbeef % table.bucketNum * table.nodeSize + table.baseOff.toUInt64

def nextOff (table : HashMeta) (next : UInt64) : UInt64 := next - table.dataPtr + table.baseOff.toUInt64

def Cluster.bytes (w : Cluster) (node : Int32) (offset : UInt64) : Memory := fun a =>
  w.region node ((w.regionStart node + offset).toNat + a)

variable {n : ℕ}

namespace Client

def set (c : Client n) (i : Fin n) (e : DataSetItem) : Client n :=
  { c with readerSet := Function.update c.readerSet i e }

def fetch (c : Client n) (i : Fin n) (d : DataItem) : Client n :=
  c.set i { c.readerSet i with item := d, isFetched := true }

def rdmaRead (w : Cluster) (c : Client n) (r : Request n) : Bool × Client n :=
  if w.accepts c.posted.length then (true, { c with posted := c.posted ++ [r] }) else (false, c)

def removeAddr (c : Client n) (node : Int32) (key : UInt64) : Client n :=
  { c with addrCache := Function.update c.addrCache node (Function.update (c.addrCache node) key none) }

end Client

structure Pending (n : ℕ) where
  direct : List (DirectRead n)
  hash : List (HashRead n)

def issueItem (w : Cluster) (i : Fin n) (c : Client n) (p : Pending n) :
    Except Fault (Bool × Client n × Pending n) :=
  if (c.readerSet i).isFetched then .ok (true, c, p)
  else do
    let it := (c.readerSet i).item
    let node ← getPrimaryNodeID w.manager it.tableId
    let c := c.set i { c.readerSet i with readWhichNode := node }
    let offset := (c.readerSet i).offset
    if offset ≠ notFound then
      let c := c.set i { c.readerSet i with item := { it with remoteOffset := offset.toInt64 } }
      let (ok, c) := c.rdmaRead w ⟨i, node, offset, 720⟩
      return (ok, c, { p with direct := p.direct ++ [⟨node, i, w.bytes node offset, node⟩] })
    else
      let table ← getPrimaryHashMeta w.manager it.tableId
      let nodeOff := bucketOff table it.key
      let (ok, c) := c.rdmaRead w ⟨i, node, nodeOff, 15848⟩
      return (ok, c, { p with hash := p.hash ++ [⟨node, i, w.bytes node nodeOff, node, table⟩] })

def issueLoop (w : Cluster) : List (Fin n) → Client n → Pending n →
    Except Fault (Bool × Client n × Pending n)
  | [], c, p => .ok (true, c, p)
  | i :: is, c, p => do
    let (ok, c, p) ← issueItem w i c p
    if ok then issueLoop w is c p else return (false, c, p)

def issueReader (w : Cluster) (c : Client n) : Except Fault (Bool × Client n × Pending n) :=
  issueLoop w (List.finRange n) c ⟨[], []⟩

def findItem (buf : Memory) (it : DataItem) : Option DataItem :=
  ((List.range 22).map fun i => loadItem buf (i * 720)).find? fun d =>
    d.valid != 0 && d.key == it.key && d.tableId == it.tableId

def readNext (w : Cluster) (c : Client n) (res : HashRead n) : Bool × Client n × HashRead n :=
  let nodeOff := nextOff res.table (readWord res.buf 15840)
  let (ok, c) := c.rdmaRead w ⟨res.item, res.qp, nodeOff, 15848⟩
  (ok, c, { res with buf := w.bytes res.qp nodeOff })

def checkDirectRO (w : Cluster) : List (DirectRead n) → Client n → List (HashRead n) →
    Except Fault (Bool × Client n × List (HashRead n))
  | [], c, next => .ok (true, c, next)
  | res :: rest, c, next =>
    let it := (c.readerSet res.item).item
    let fetched := loadItem res.buf 0
    if fetched.key = it.key ∧ fetched.tableId = it.tableId then
      if fetched.valid ≠ 0 then checkDirectRO w rest (c.fetch res.item fetched) next
      else .ok (false, c.removeAddr res.remoteNode it.key, next)
    else do
      let node ← getPrimaryNodeID w.manager it.tableId
      let table ← getPrimaryHashMeta w.manager it.tableId
      let nodeOff := bucketOff table it.key
      let next := next ++ [⟨res.qp, res.item, w.bytes res.qp nodeOff, node, table⟩]
      let (ok, c) := c.rdmaRead w ⟨res.item, res.qp, nodeOff, 15848⟩
      if ok then checkDirectRO w rest c next else return (false, c, next)

def checkHashRO (w : Cluster) : List (HashRead n) → Client n → List (HashRead n) →
    Bool × Client n × List (HashRead n)
  | [], c, next => (true, c, next)
  | res :: rest, c, next =>
    match findItem res.buf (c.readerSet res.item).item with
    | some d => checkHashRO w rest (c.fetch res.item d) next
    | none =>
      if readWord res.buf 15840 = 0 then (false, c, next)
      else
        let (ok, c, res) := readNext w c res
        if ok then checkHashRO w rest c (next ++ [res]) else (false, c, next ++ [res])

structure Walk (n : ℕ) where
  client : Client n
  pending : List (HashRead n)
  pos : Option ℕ

def nextRound (w : Cluster) (s : Walk n) (pos : ℕ) (res : HashRead n) : Walk n ⊕ Bool × Walk n :=
  match findItem res.buf (s.client.readerSet res.item).item with
  | some d => .inl { s with client := s.client.fetch res.item d }
  | none =>
    if readWord res.buf 15840 = 0 then .inr (false, s)
    else
      let (ok, c, res) := readNext w s.client res
      let s := { s with client := c, pending := s.pending.set pos res }
      if ok then .inl { s with pos := some (pos + 1) } else .inr (false, s)

def walkRound (w : Cluster) (s : Walk n) : Walk n ⊕ Bool × Walk n :=
  match s.pos with
  | none =>
    if s.pending = [] then .inr (true, s)
    else .inl { s with client := { s.client with yields := s.client.yields + 1 }, pos := some 0 }
  | some pos =>
    match s.pending[pos]? with
    | none => .inl { s with pos := none }
    | some res => nextRound w s pos res

/-- `CheckReadRO` with at most `fuel` rounds of its loops: still in the loops, or returned. -/
def checkReadRO (w : Cluster) (direct : List (DirectRead n)) (hash : List (HashRead n)) (c : Client n)
    (fuel : ℕ) : Except Fault (Walk n ⊕ Bool × Walk n) := do
  let (ok, c, next) ← checkDirectRO w direct c []
  if ok then
    let (ok, c, next) := checkHashRO w hash c next
    if ok then return run (walkRound w) fuel ⟨c, next, none⟩
    else return .inr (false, ⟨c, next, none⟩)
  else return .inr (false, ⟨c, next, none⟩)

end MetadataService.Dmc
