import MetadataService.ChainOps

namespace MetadataService.MemStore

open ByteMemory LinkedChain Loops

structure MemoryNode where
  mem : Memory
  alloc : MemStoreAllocParam
  reserve : MemStoreReserveParam
  tables : List HashStore

inductive Op
  | build (tableId bucketNum : UInt64)
  | insert (i : ℕ) (key : UInt64) (d : DataItem)
  | put (i : ℕ) (key : UInt64) (d : DataItem)
  | load (i : ℕ) (key : UInt64) (val : List UInt8) (stack : Vector UInt8 664)
  | delete (i : ℕ) (key : UInt64)

def Op.target : Op → Option (ℕ × UInt64)
  | .insert i key _ => some (i, key)
  | .put i key _ => some (i, key)
  | .load i key _ _ => some (i, key)
  | .delete i key => some (i, key)
  | .build _ _ => none

inductive Reply
  | built
  | item (p : UInt64)
  | deleted (b : Bool)
deriving DecidableEq

namespace MemoryNode

def table (n : MemoryNode) (i : ℕ) : Except Fault HashStore :=
  match n.tables[i]? with
  | some s => .ok s
  | none => .error .nullPointer

def commit (n : MemoryNode) (i : ℕ) (r : Inserted) : MemoryNode :=
  { n with mem := r.mem, reserve := r.param, tables := n.tables.set i r.store }

def exec (fuel : ℕ) (n : MemoryNode) : Op → Except Fault (MemoryNode × Reply)
  | .build tableId bucketNum => do
    let (s, alloc, mem) ← hashStore tableId bucketNum n.alloc n.mem
    return ({ n with mem, alloc, tables := n.tables ++ [s] }, .built)
  | .insert i key d => do
    let s ← n.table i
    let r ← s.localInsert n.mem n.reserve key d fuel
    return (n.commit i r, .item r.item)
  | .put i key d => do
    let s ← n.table i
    let r ← s.localPut n.mem n.reserve key d fuel
    return (n.commit i r, .item r.item)
  | .load i key val stack => do
    let s ← n.table i
    let r ← s.loadRecord n.mem n.reserve key val s.tableId stack fuel
    return (n.commit i r, .item r.item)
  | .delete i key => do
    let s ← n.table i
    let (b, mem) ← s.localDelete n.mem key fuel
    return ({ n with mem }, .deleted b)

def allocTop (n : MemoryNode) : ℕ :=
  n.alloc.memStoreStart.toNat + n.alloc.memStoreAllocOffset.toUInt64.toNat

def reserveStart (n : MemoryNode) : ℕ := n.reserve.memStoreReserve.toNat

def reserveTop (n : MemoryNode) : ℕ :=
  n.reserve.memStoreReserve.toNat + n.reserve.memStoreReserveOffset.toUInt64.toNat

/-- The sizes and address sums of a call do not wrap around 64 bits. -/
def NoWrap (n : MemoryNode) (op : Op) (n' : MemoryNode) : Prop :=
  (match op with
    | .build _ bucketNum => n.allocTop + bucketNum.toNat * 15848 < 2 ^ 64
    | _ => n.reserveTop ≤ n'.reserveTop) ∧ n'.reserveTop ≤ 2 ^ 64

def Step (n : MemoryNode) (op : Op) (n' : MemoryNode) (r : Reply) : Prop :=
  (∃ fuel, n.exec fuel op = .ok (n', r)) ∧ n.NoWrap op n'

structure Fresh (n : MemoryNode) : Prop where
  tables : n.tables = []
  reserve : n.alloc.memStoreReserve = n.reserve.memStoreReserve
  noWrap : n.reserveTop ≤ 2 ^ 64

/-- A run with the calls made so far and their replies, the last one at the end; `ok` says which
calls the callers may make after which others. -/
inductive Run (ok : List (Op × Reply) → Op → Prop) (n₀ : MemoryNode) :
    List (Op × Reply) → MemoryNode → Prop
  | start : Run ok n₀ [] n₀
  | step {h : List (Op × Reply)} {n n' : MemoryNode} {op : Op} {r : Reply}
      (hrun : Run ok n₀ h n) (hok : ok h op) (hstep : n.Step op n' r) :
      Run ok n₀ (h ++ [(op, r)]) n'

instance (n : MemoryNode) (op : Op) (n' : MemoryNode) : Decidable (n.NoWrap op n') :=
  match op with
  | .build _ bucketNum => inferInstanceAs (Decidable (_ + bucketNum.toNat * 15848 < _ ∧ _))
  | .insert .. | .put .. | .load .. | .delete .. => inferInstanceAs (Decidable (n.reserveTop ≤ _ ∧ _))

def replay (ok : List (Op × Reply) → Op → Prop) [∀ h op, Decidable (ok h op)] (fuel : ℕ) :
    List Op → MemoryNode → List (Op × Reply) → Option (MemoryNode × List (Op × Reply))
  | [], n, h => some (n, h)
  | op :: ops, n, h =>
    match n.exec fuel op with
    | .ok (n', r) =>
      if ok h op ∧ n.NoWrap op n' then replay ok fuel ops n' (h ++ [(op, r)]) else none
    | .error _ => none

theorem replay_run {ok : List (Op × Reply) → Op → Prop} [∀ h op, Decidable (ok h op)] {fuel : ℕ}
    {n₀ n n' : MemoryNode} {ops : List Op} {h h' : List (Op × Reply)} (hrun : Run ok n₀ h n)
    (hr : replay ok fuel ops n h = some (n', h')) : Run ok n₀ h' n' := by
  induction ops generalizing n h with
  | nil =>
    obtain ⟨rfl, rfl⟩ := Prod.mk.inj (Option.some.inj hr)
    exact hrun
  | cons op ops ih =>
    unfold replay at hr
    split at hr
    · rename_i n₁ r he
      split_ifs at hr with hok
      exact ih (.step hrun hok.1 ⟨⟨fuel, he⟩, hok.2⟩) hr
    · cases hr

theorem replay_any (ok : List (Op × Reply) → Op → Prop) [∀ h op, Decidable (ok h op)] (fuel : ℕ)
    (n₀ : MemoryNode) (ops : List Op) (P : List (Op × Reply) → MemoryNode → Bool)
    (hr : (replay ok fuel ops n₀ []).any (fun e => P e.2 e.1) = true) :
    ∃ h n, Run ok n₀ h n ∧ P h n = true := by
  cases he : replay ok fuel ops n₀ [] with
  | none => rw [he] at hr; cases hr
  | some e =>
    rw [he] at hr
    exact ⟨e.2, e.1, replay_run .start he, hr⟩

def steps (fuel : ℕ) (n : MemoryNode) (op : Op) (P : MemoryNode → Reply → Bool) : Bool :=
  match n.exec fuel op with
  | .ok (n', r) => decide (n.NoWrap op n') && P n' r
  | .error _ => false

theorem steps_ok {fuel : ℕ} {n : MemoryNode} {op : Op} {P : MemoryNode → Reply → Bool}
    (h : n.steps fuel op P = true) : ∃ n' r, n.Step op n' r ∧ P n' r = true := by
  unfold steps at h
  split at h
  · rename_i n' r he
    obtain ⟨hw, hP⟩ := Bool.and_eq_true_iff.mp h
    exact ⟨n', r, ⟨⟨fuel, he⟩, of_decide_eq_true hw⟩, hP⟩
  · cases h

def roots (n : MemoryNode) : Set UInt64 :=
  {a | ∃ s ∈ n.tables, ∃ b < s.bucketNum, a = s.bucket b}

theorem table_ok {n : MemoryNode} {i : ℕ} {s : HashStore} :
    n.table i = .ok s ↔ n.tables[i]? = some s := by
  unfold table
  cases n.tables[i]? <;> simp

theorem table_mem {n : MemoryNode} {i : ℕ} {s : HashStore} (h : n.table i = .ok s) :
    s ∈ n.tables := List.mem_of_getElem? (table_ok.mp h)

end MemoryNode

def smallNode : MemoryNode :=
  ⟨fun _ => 0, ⟨4096, 4096, 0, 65536⟩, ⟨65536, 0, 131072⟩, []⟩

def smallItem (tableId key : UInt64) : DataItem :=
  ⟨tableId, 0, key, 0, 0, 0, Vector.replicate 664 0, 1, 0⟩

theorem smallNode_fresh : smallNode.Fresh := ⟨rfl, rfl, by decide⟩

theorem require_bind {β : Type} {p : Prop} [Decidable p] {f : Unit → Except Fault β} {b : β} :
    (require p >>= f) = .ok b ↔ p ∧ f () = .ok b := by
  unfold require
  split_ifs with h <;> simp [h, bind, Except.bind]

theorem hashStore_inv {tableId bucketNum : UInt64} {param param' : MemStoreAllocParam} {m m' : Memory}
    {s : HashStore} (h : hashStore tableId bucketNum param m = .ok (s, param', m')) :
    let off := param.memStoreAllocOffset.toUInt64
    let dataPtr := param.memStoreStart + off
    (0 < bucketNum ∧ dataPtr + bucketNum * 15848 ≤ param.memStoreReserve ∧
      0 ≤ (dataPtr - param.memRegionStart).toInt64 ∧ dataPtr ≠ 0) ∧
    s = ⟨tableId, (dataPtr - param.memRegionStart).toInt64, bucketNum, dataPtr, 0, bucketNum * 15848,
      param.memRegionStart⟩ ∧
    param' = { param with memStoreAllocOffset := (off + bucketNum * 15848).toInt64 } ∧
    m' = fill m dataPtr.toNat (bucketNum * 15848).toNat 0 := by
  obtain ⟨h1, h⟩ := require_bind.mp h
  obtain ⟨h2, h⟩ := require_bind.mp h
  obtain ⟨h3, h⟩ := require_bind.mp h
  obtain ⟨h4, h⟩ := require_bind.mp h
  obtain ⟨rfl, hp⟩ := Prod.mk.inj (Except.ok.inj h)
  obtain ⟨rfl, rfl⟩ := Prod.mk.inj hp
  exact ⟨⟨h1, h2, h3, h4⟩, rfl, rfl, rfl⟩

end MetadataService.MemStore
