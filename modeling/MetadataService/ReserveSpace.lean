import MetadataService.NodeLayout

namespace MetadataService.MemStore

open ByteMemory Loops

namespace MemStoreReserveParam

def next (param : MemStoreReserveParam) : UInt64 :=
  param.memStoreReserve + param.memStoreReserveOffset.toUInt64

def taken (param : MemStoreReserveParam) : MemStoreReserveParam :=
  { param with memStoreReserveOffset := (param.memStoreReserveOffset.toUInt64 + 15848).toInt64 }

def Inside (param : MemStoreReserveParam) (x : UInt64) : Prop :=
  param.memStoreReserve.toNat ≤ x.toNat ∧ x.toNat + 15848 ≤ param.memStoreEnd.toNat

theorem inside_next_iff (param : MemStoreReserveParam) :
    param.Inside param.next ↔ param.memStoreReserveOffset.toUInt64.toNat + 15848 ≤
      param.memStoreEnd.toNat - param.memStoreReserve.toNat := by
  have hr : param.memStoreReserve.toNat < 2 ^ 64 := UInt64.toNat_lt _
  have ho : param.memStoreReserveOffset.toUInt64.toNat < 2 ^ 64 := UInt64.toNat_lt _
  have he : param.memStoreEnd.toNat < 2 ^ 64 := UInt64.toNat_lt _
  rw [Inside, next, UInt64.toNat_add]
  omega

end MemStoreReserveParam

def Linked (m m' : Memory) (l x : UInt64) : Prop :=
  ∃ m₁, SameOutside x.toNat 15848 m m₁ ∧ SameOutside x.toNat 15848 (writeWord m₁ (l.toNat + 15840) x) m'

theorem linkNode_linked (m : Memory) (l x : UInt64) (d : DataItem) : Linked m (linkNode m l x d) l x := by
  refine ⟨_, ?_, SameOutside.refl _ _ _⟩
  apply SameOutside.trans (fill_outside m _ _ _)
  apply SameOutside.trans ((storeItem_outside _ _ _).widen le_rfl (by omega))
  apply SameOutside.trans ((setValid_outside _ _ _).widen le_rfl (by omega))
  exact (writeWord_outside _ _ _).widen (by omega) (by omega)

def overflowNodes (tables : List HashStore) : UInt64 := tables.foldr (fun s k => s.nodeNum + k) 0

theorem overflowNodes_append (tables : List HashStore) (s : HashStore) :
    overflowNodes (tables ++ [s]) = overflowNodes tables + s.nodeNum := by
  induction tables with
  | nil => simp [overflowNodes]
  | cons t tables ih =>
    simp only [overflowNodes, List.cons_append, List.foldr_cons] at ih ⊢
    rw [ih, UInt64.add_assoc]

theorem overflowNodes_set {tables : List HashStore} {i : ℕ} {s : HashStore} (h : tables[i]? = some s)
    (t : HashStore) : overflowNodes (tables.set i t) = overflowNodes tables - s.nodeNum + t.nodeNum := by
  induction tables generalizing i with
  | nil => cases h
  | cons u tables ih =>
    cases i with
    | zero =>
      obtain rfl := Option.some.inj h
      simp only [overflowNodes, List.set_cons_zero, List.foldr_cons]
      grind
    | succ i =>
      have hi := ih h
      simp only [overflowNodes, List.set_cons_succ, List.foldr_cons] at hi ⊢
      grind

section Calls

variable {s : HashStore} {m : Memory} {param : MemStoreReserveParam} {key : UInt64} {d : DataItem}
  {fuel : ℕ} {r : Inserted}

def Reserves (s : HashStore) (m : Memory) (param : MemStoreReserveParam) (r : Inserted) : Prop :=
  r.store.nodeNum = s.nodeNum ∧ r.param = param ∨
    r.store.nodeNum = s.nodeNum + 1 ∧ r.param = param.taken ∧ param.next ≤ param.memStoreEnd ∧
      r.item = param.next ∧ ∃ l, Linked m r.mem l param.next

theorem localInsert_reserves (h : s.localInsert m param key d fuel = .ok r) : Reserves s m param r := by
  obtain ⟨q, -, h⟩ := bind_ok.mp h
  cases q with
  | inl item =>
    obtain rfl := Except.ok.inj h
    exact Or.inl ⟨rfl, rfl⟩
  | inr node =>
    obtain ⟨hle, h⟩ := require_bind.mp h
    dsimp only at h
    split_ifs at h with h0
    · cases h
    obtain rfl := Except.ok.inj h
    exact Or.inr ⟨rfl, rfl, hle, slotPtr_zero _, node, linkNode_linked _ _ _ _⟩

theorem localPut_reserves (h : s.localPut m param key d fuel = .ok r) : Reserves s m param r := by
  obtain ⟨q, -, h⟩ := bind_ok.mp h
  cases q with
  | some p =>
    obtain rfl := Except.ok.inj h
    exact Or.inl ⟨rfl, rfl⟩
  | none => exact localInsert_reserves h

theorem loadRecord_reserves {val : List UInt8} {tableId : UInt64} {stack : Vector UInt8 664}
    (h : s.loadRecord m param key val tableId stack fuel = .ok r) : Reserves s m param r := by
  obtain ⟨-, h⟩ := require_bind.mp h
  obtain ⟨r₀, hr₀, h⟩ := bind_ok.mp h
  obtain rfl := Except.ok.inj h
  rcases localInsert_reserves hr₀ with hold | ⟨hnum, hparam, hle, hitem, l, m₁, hm, hm'⟩
  · exact Or.inl hold
  · refine Or.inr ⟨hnum, hparam, hle, hitem, l, m₁, hm, hm'.trans ?_⟩
    rw [hitem]
    exact (setRemoteOffset_outside _ _ _).widen le_rfl (by omega)

end Calls

namespace MemoryNode

variable {n n' n₀ : MemoryNode} {op : Op} {reply : Reply} {fuel : ℕ}

inductive Calls (n₀ : MemoryNode) : MemoryNode → Prop
  | start : Calls n₀ n₀
  | call {n n' : MemoryNode} {fuel : ℕ} {op : Op} {reply : Reply} (h : Calls n₀ n)
      (hexec : n.exec fuel op = .ok (n', reply)) : Calls n₀ n'

def Takes (n n' : MemoryNode) : Prop :=
  overflowNodes n'.tables = overflowNodes n.tables ∧ n'.reserve = n.reserve ∨
    overflowNodes n'.tables = overflowNodes n.tables + 1 ∧ n'.reserve = n.reserve.taken ∧
      n.reserve.next ≤ n.reserve.memStoreEnd ∧ ∃ l, Linked n.mem n'.mem l n.reserve.next

theorem commit_takes {i : ℕ} {s : HashStore} {r : Inserted} (hs : n.table i = .ok s)
    (h : Reserves s n.mem n.reserve r) : Takes n (n.commit i r) := by
  have hset := overflowNodes_set (table_ok.mp hs) r.store
  rcases h with ⟨hnum, hparam⟩ | ⟨hnum, hparam, hle, -, hlink⟩
  · refine Or.inl ⟨?_, hparam⟩
    rw [commit, hset, hnum]
    grind
  · refine Or.inr ⟨?_, hparam, hle, hlink⟩
    rw [commit, hset, hnum]
    grind

theorem exec_takes (h : n.exec fuel op = .ok (n', reply)) : Takes n n' := by
  cases op with
  | build tableId bucketNum =>
    obtain ⟨⟨s, alloc, m⟩, hs, h⟩ := bind_ok.mp h
    obtain ⟨rfl, -⟩ := Prod.mk.inj (Except.ok.inj h)
    refine Or.inl ⟨?_, rfl⟩
    obtain ⟨-, rfl, -, -⟩ := hashStore_inv hs
    rw [overflowNodes_append]
    exact UInt64.add_zero _
  | insert i key d =>
    obtain ⟨s, hs, h⟩ := bind_ok.mp h
    obtain ⟨r, hr, h⟩ := bind_ok.mp h
    obtain ⟨rfl, -⟩ := Prod.mk.inj (Except.ok.inj h)
    exact commit_takes hs (localInsert_reserves hr)
  | put i key d =>
    obtain ⟨s, hs, h⟩ := bind_ok.mp h
    obtain ⟨r, hr, h⟩ := bind_ok.mp h
    obtain ⟨rfl, -⟩ := Prod.mk.inj (Except.ok.inj h)
    exact commit_takes hs (localPut_reserves hr)
  | load i key val stack =>
    obtain ⟨s, hs, h⟩ := bind_ok.mp h
    obtain ⟨r, hr, h⟩ := bind_ok.mp h
    obtain ⟨rfl, -⟩ := Prod.mk.inj (Except.ok.inj h)
    exact commit_takes hs (loadRecord_reserves hr)
  | delete i key =>
    obtain ⟨s, -, h⟩ := bind_ok.mp h
    obtain ⟨⟨b, m⟩, -, h⟩ := bind_ok.mp h
    obtain ⟨rfl, -⟩ := Prod.mk.inj (Except.ok.inj h)
    exact Or.inl ⟨rfl, rfl⟩

theorem Calls.reserveOffset_eq (hrun : Calls n₀ n) (hempty : n₀.tables = [])
    (h0 : n₀.reserve.memStoreReserveOffset = 0) :
    n.reserve.memStoreReserveOffset.toUInt64 = 15848 * overflowNodes n.tables := by
  induction hrun with
  | start =>
    rw [hempty, h0]
    rfl
  | call _ hexec ih =>
    rcases exec_takes hexec with ⟨hnum, hres⟩ | ⟨hnum, hres, -, -⟩
    · rw [hres, hnum]
      exact ih
    · rw [hres, hnum, MemStoreReserveParam.taken, UInt64.toUInt64_toInt64, ih]
      grind

theorem calls_overflowNode_inside_iff (hempty : n₀.tables = [])
    (h0 : n₀.reserve.memStoreReserveOffset = 0) (hrun : Calls n₀ n)
    (hexec : n.exec fuel op = .ok (n', reply)) (hnew : n'.reserve ≠ n.reserve) :
    (∃ l, Linked n.mem n'.mem l n.reserve.next) ∧
      (n.reserve.Inside n.reserve.next ↔ (15848 * overflowNodes n.tables).toNat + 15848 ≤
        n.reserve.memStoreEnd.toNat - n.reserve.memStoreReserve.toNat) := by
  rcases exec_takes hexec with ⟨-, hres⟩ | ⟨-, -, -, hlink⟩
  · exact absurd hres hnew
  · refine ⟨hlink, ?_⟩
    rw [MemStoreReserveParam.inside_next_iff, hrun.reserveOffset_eq hempty h0]

theorem Run.calls {ok : List (Op × Reply) → Op → Prop} {h : List (Op × Reply)} (hrun : Run ok n₀ h n) :
    Calls n₀ n := by
  induction hrun with
  | start => exact .start
  | step _ _ hstep ih =>
    obtain ⟨⟨fuel, hexec⟩, -⟩ := hstep
    exact .call ih hexec

def fullBucket (reserveEnd : UInt64) : MemoryNode := { smallNode with reserve := ⟨65536, 0, reserveEnd⟩ }

def fillBucket : List Op :=
  .build 1 1 :: (List.range 22).map fun i => .insert 0 (UInt64.ofNat i) (smallItem 1 (UInt64.ofNat i))

def overflows (reserveEnd : UInt64) (n : MemoryNode) : Bool :=
  match n.exec 2 (.insert 0 22 (smallItem 1 22)) with
  | .ok (n', _) => n'.reserve.memStoreReserveOffset != n.reserve.memStoreReserveOffset &&
    n.reserve.next == 65536 && n.reserve.memStoreReserve == 65536 && n.reserve.memStoreEnd == reserveEnd &&
    overflowNodes n.tables == 0
  | .error _ => false

theorem overflows_ok {reserveEnd : UInt64} (h : overflows reserveEnd n = true) :
    ∃ n' reply, n.exec 2 (.insert 0 22 (smallItem 1 22)) = .ok (n', reply) ∧ n'.reserve ≠ n.reserve ∧
      n.reserve.next = 65536 ∧ n.reserve.memStoreReserve = 65536 ∧ n.reserve.memStoreEnd = reserveEnd ∧
      overflowNodes n.tables = 0 := by
  unfold overflows at h
  split at h
  · rename_i n' reply hexec
    simp only [Bool.and_eq_true, bne_iff_ne, beq_iff_eq] at h
    obtain ⟨⟨⟨⟨hoff, hnext⟩, hstart⟩, hend⟩, hnum⟩ := h
    exact ⟨n', reply, hexec, fun he => hoff (by rw [he]), hnext, hstart, hend, hnum⟩
  · cases h

theorem calls_overflowNode_inside_iff_first :
    ∃ n n' reply, Calls smallNode n ∧ n.exec 2 (.insert 0 22 (smallItem 1 22)) = .ok (n', reply) ∧
      n'.reserve ≠ n.reserve ∧ n.reserve.Inside n.reserve.next := by
  obtain ⟨h, n, hrun, hn⟩ := replay_any (fun _ _ => True) 2 smallNode fillBucket
    (fun _ n => overflows 131072 n) (by decide +kernel)
  obtain ⟨n', reply, hexec, hnew, -, hstart, hend, hnum⟩ := overflows_ok hn
  have hiff := (calls_overflowNode_inside_iff rfl rfl hrun.calls hexec hnew).2
  refine ⟨n, n', reply, hrun.calls, hexec, hnew, hiff.mpr ?_⟩
  rw [hnum, hstart, hend]
  decide

theorem overflowNode_leaves_reserve :
    ¬ ∀ n₀ n n' fuel op reply, n₀.tables = [] → n₀.reserve.memStoreReserveOffset = 0 → Calls n₀ n →
      n.exec fuel op = .ok (n', reply) → n'.reserve ≠ n.reserve → n.reserve.Inside n.reserve.next := by
  intro H
  obtain ⟨h, n, hrun, hn⟩ := replay_any (fun _ _ => True) 2 (fullBucket 65636) fillBucket
    (fun _ n => overflows 65636 n) (by decide +kernel)
  obtain ⟨n', reply, hexec, hnew, hnext, -, hend, -⟩ := overflows_ok hn
  obtain ⟨-, hle⟩ := H (fullBucket 65636) n n' 2 _ reply rfl rfl hrun.calls hexec hnew
  rw [hnext, hend] at hle
  exact absurd hle (by decide)

end MemoryNode

end MetadataService.MemStore
