import MetadataService.LoadedTables
import MetadataService.RemoteWalk

namespace MetadataService.Dmc

open ByteMemory LinkedChain MemStore MetaExchange

variable {n : ℕ} {w : Cluster}

def nodeBytes (m : Memory) (node : UInt64) : Memory := fun a => m (node.toNat + a)

structure Published (w : Cluster) (node : Int32) (s : HashStore) : Prop where
  table : w.manager.primaryHashMetas s.tableId = some (hashMeta s)
  place : w.manager.primaryTableNodes s.tableId = some node
  base : w.regionStart node + s.baseOff.toUInt64 = s.dataPtr

theorem next_nodeBytes (m : Memory) (node : UInt64) : readWord (nodeBytes m node) 15840 = nextOf m node := by
  simp only [nextOf, readWord, readNat, nodeBytes, Nat.add_assoc]

namespace Published

variable {node : Int32} {s : HashStore}

theorem bucket_addr (P : Published w node s) (key : UInt64) :
    w.regionStart node + bucketOff (hashMeta s) key = s.bucket (s.getHash key) := by
  have := P.base
  unfold bucketOff hashMeta HashStore.bucket HashStore.getHash
  grind

theorem next_addr (P : Published w node s) (next : UInt64) :
    w.regionStart node + nextOff (hashMeta s) next = next := by
  have := P.base
  unfold nextOff hashMeta
  grind

theorem bytes_bucket (P : Published w node s) (key : UInt64) :
    w.bytes node (bucketOff (hashMeta s) key) = nodeBytes (w.region node) (s.bucket (s.getHash key)) := by
  unfold Cluster.bytes nodeBytes
  rw [P.bucket_addr]

theorem bytes_next (P : Published w node s) (next : UInt64) :
    w.bytes node (nextOff (hashMeta s) next) = nodeBytes (w.region node) next := by
  unfold Cluster.bytes nodeBytes
  rw [P.next_addr]

theorem nodes (P : Published w node s) {x : UInt64} {ns : List UInt64}
    (h : Chain (nextOf (w.region node)) 0 x ns) (hx : x ≠ 0) :
    Nodes w node (hashMeta s) (nodeBytes (w.region node) x) (ns.map (nodeBytes (w.region node))) := by
  induction h with
  | nil => exact absurd rfl hx
  | @cons x ns hx ht ih =>
    by_cases h0 : nextOf (w.region node) x = 0
    · rw [h0] at ht
      cases ht with
      | nil => exact .last (by rw [next_nodeBytes, h0])
      | cons ha _ => exact absurd rfl ha
    · refine .more (by rwa [next_nodeBytes]) ?_
      rw [next_nodeBytes, P.bytes_next]
      exact ih h0

end Published

def serving (m : MemoryNode) : Cluster where
  manager := { MetaManager.empty with
    primaryHashMetas := fun t => (m.tables.find? fun s => s.tableId == t).map hashMeta
    primaryTableNodes := fun t => (m.tables.find? fun s => s.tableId == t).map fun _ => 0 }
  region := fun _ => m.mem
  regionStart := fun _ => m.alloc.memRegionStart
  accepts := fun _ => true

theorem serving_published {m : MemoryNode} {C : UInt64 → List UInt64} (L : m.Layout C) {t : UInt64}
    {s : HashStore} (hs : m.tables.find? (fun s => s.tableId == t) = some s) :
    s.tableId = t ∧ Published (serving m) 0 s := by
  have ht : s.tableId = t := by simpa using List.find?_some hs
  have ha := L.area s (List.mem_of_find?_eq_some hs)
  refine ⟨ht, ?_, ?_, ?_⟩
  · simp only [serving, ht, hs, Option.map_some]
  · simp only [serving, ht, hs, Option.map_some]
  · rw [serving, ← ha.region]
    exact ha.base

def Pending.items (p : Pending n) : List (Fin n) := p.direct.map DirectRead.item ++ p.hash.map HashRead.item

structure HashRead.First (w : Cluster) (c : Client n) (e : HashRead n) : Prop where
  place : w.manager.primaryTableNodes (c.readerSet e.item).item.tableId = some e.qp
  table : w.manager.primaryHashMetas (c.readerSet e.item).item.tableId = some e.table
  bytes : e.buf = w.bytes e.qp (bucketOff e.table (c.readerSet e.item).item.key)

structure Issued (w : Cluster) (c : Client n) (p : Pending n) : Prop where
  direct : ∀ e ∈ p.direct, w.manager.primaryTableNodes (c.readerSet e.item).item.tableId = some e.qp
  hash : ∀ e ∈ p.hash, e.First w c
  unfetched : ∀ i ∈ p.items, (c.readerSet i).isFetched = false
  nodup : p.items.Nodup

structure Kept (c c' : Client n) : Prop where
  key : ∀ i, (c'.readerSet i).item.key = (c.readerSet i).item.key
  table : ∀ i, (c'.readerSet i).item.tableId = (c.readerSet i).item.tableId

theorem Kept.refl (c : Client n) : Kept c c := ⟨fun _ => rfl, fun _ => rfl⟩

theorem Kept.trans {c c' c'' : Client n} (h : Kept c c') (h' : Kept c' c'') : Kept c c'' :=
  ⟨fun i => (h'.key i).trans (h.key i), fun i => (h'.table i).trans (h.table i)⟩

theorem Kept.fetch {c : Client n} {i : Fin n} {d : DataItem} (hk : d.key = (c.readerSet i).item.key)
    (ht : d.tableId = (c.readerSet i).item.tableId) : Kept c (c.fetch i d) := by
  have h : ∀ j, (c.fetch i d).readerSet j =
      if j = i then { c.readerSet i with item := d, isFetched := true } else c.readerSet j :=
    fun j => Function.update_apply c.readerSet i _ j
  constructor <;> intro j <;> rw [h] <;> split <;> simp_all

theorem HashRead.First.of_kept {c c' : Client n} {e : HashRead n} (h : e.First w c) (hk : Kept c c') :
    e.First w c' := by
  refine ⟨?_, ?_, ?_⟩
  · rw [hk.table]
    exact h.place
  · rw [hk.table]
    exact h.table
  · rw [hk.key]
    exact h.bytes

theorem getPrimaryNodeID_ok {mgr : MetaManager} {t : UInt64} {node : Int32} :
    getPrimaryNodeID mgr t = .ok node ↔ mgr.primaryTableNodes t = some node := by
  unfold getPrimaryNodeID
  cases mgr.primaryTableNodes t <;> simp

theorem getPrimaryHashMeta_ok {mgr : MetaManager} {t : UInt64} {x : HashMeta} :
    getPrimaryHashMeta mgr t = .ok x ↔ mgr.primaryHashMetas t = some x := by
  unfold getPrimaryHashMeta
  cases mgr.primaryHashMetas t <;> simp

theorem Client.set_self (c : Client n) (i : Fin n) (e : DataSetItem) : (c.set i e).readerSet i = e := by
  simp [Client.set]

theorem Client.rdmaRead_posted (c : Client n) (r : Request n) :
    (c.rdmaRead w r).2.posted = if w.accepts c.posted.length then c.posted ++ [r] else c.posted := by
  unfold Client.rdmaRead
  split <;> rfl

structure Asked (c c' : Client n) : Prop extends Kept c c' where
  fetched : ∀ i, (c'.readerSet i).isFetched = (c.readerSet i).isFetched
  offset : ∀ i, (c'.readerSet i).offset = (c.readerSet i).offset
  yields : c'.yields = c.yields

theorem Asked.of_set {c : Client n} {i : Fin n} {e : DataSetItem} (hk : e.item.key = (c.readerSet i).item.key)
    (ht : e.item.tableId = (c.readerSet i).item.tableId) (hf : e.isFetched = (c.readerSet i).isFetched)
    (ho : e.offset = (c.readerSet i).offset) : Asked c (c.set i e) := by
  have h : ∀ j, (c.set i e).readerSet j = if j = i then e else c.readerSet j :=
    fun j => Function.update_apply c.readerSet i e j
  constructor
  · constructor <;> intro j <;> rw [h] <;> split <;> simp_all
  · intro j; rw [h]; split <;> simp_all
  · intro j; rw [h]; split <;> simp_all
  · rfl

theorem Asked.trans {c c' c'' : Client n} (h : Asked c c') (h' : Asked c' c'') : Asked c c'' :=
  ⟨h.toKept.trans h'.toKept, fun i => (h'.fetched i).trans (h.fetched i),
    fun i => (h'.offset i).trans (h.offset i), h'.yields.trans h.yields⟩

theorem Asked.rdmaRead (c : Client n) (r : Request n) : Asked c (c.rdmaRead w r).2 := by
  unfold Client.rdmaRead
  split <;> exact ⟨⟨fun _ => rfl, fun _ => rfl⟩, fun _ => rfl, fun _ => rfl, rfl⟩

inductive Asks (w : Cluster) (c : Client n) (i : Fin n) (p : Pending n) : Request n → Pending n → Prop
  | direct {node : Int32} (hn : w.manager.primaryTableNodes (c.readerSet i).item.tableId = some node)
      (ho : (c.readerSet i).offset ≠ notFound) :
      Asks w c i p ⟨i, node, (c.readerSet i).offset, 720⟩
        { p with direct := p.direct ++ [⟨node, i, w.bytes node (c.readerSet i).offset, node⟩] }
  | hash {node : Int32} {table : HashMeta}
      (hn : w.manager.primaryTableNodes (c.readerSet i).item.tableId = some node)
      (ht : w.manager.primaryHashMetas (c.readerSet i).item.tableId = some table)
      (ho : (c.readerSet i).offset = notFound) :
      Asks w c i p ⟨i, node, bucketOff table (c.readerSet i).item.key, 15848⟩
        { p with hash := p.hash ++
          [⟨node, i, w.bytes node (bucketOff table (c.readerSet i).item.key), node, table⟩] }

theorem issueItem_ok {i : Fin n} {c c' : Client n} {p p' : Pending n} {ok : Bool}
    (h : issueItem w i c p = .ok (ok, c', p')) :
    ((c.readerSet i).isFetched = true ∧ ok = true ∧ c' = c ∧ p' = p) ∨
      (c.readerSet i).isFetched = false ∧ ok = w.accepts c.posted.length ∧ Asked c c' ∧
        ∃ r, Asks w c i p r p' ∧ c'.posted = if ok then c.posted ++ [r] else c.posted := by
  unfold issueItem at h
  split at h
  · rename_i hf
    left
    simp only [Except.ok.injEq, Prod.mk.injEq] at h
    exact ⟨hf, h.1.symm, h.2.1.symm, h.2.2.symm⟩
  · rename_i hf
    right
    refine ⟨by simpa using hf, ?_⟩
    obtain ⟨node, hn, h⟩ := bind_ok.mp h
    rw [getPrimaryNodeID_ok] at hn
    have hoff : ((c.set i { c.readerSet i with readWhichNode := node }).readerSet i).offset =
        (c.readerSet i).offset := by
      rw [Client.set_self]
    have hasked : Asked c (c.set i { c.readerSet i with readWhichNode := node }) :=
      .of_set rfl rfl rfl rfl
    simp only [hoff] at h
    split at h
    · rename_i ho
      simp only [pure, Except.pure, Except.ok.injEq, Prod.mk.injEq] at h
      obtain ⟨rfl, rfl, rfl⟩ := h
      refine ⟨Client.rdmaRead_fst _ _, ?_, _, .direct hn ho, ?_⟩
      · refine Asked.trans (hasked.trans (Asked.of_set ?_ ?_ ?_ ?_)) (Asked.rdmaRead _ _) <;>
          rw [Client.set_self]
      · rw [Client.rdmaRead_posted, Client.rdmaRead_fst]
        rfl
    · rename_i ho
      obtain ⟨table, ht, h⟩ := bind_ok.mp h
      rw [getPrimaryHashMeta_ok] at ht
      simp only [pure, Except.pure, Except.ok.injEq, Prod.mk.injEq] at h
      obtain ⟨rfl, rfl, rfl⟩ := h
      refine ⟨Client.rdmaRead_fst _ _, hasked.trans (.rdmaRead _ _), _, .hash hn ht (not_not.mp ho), ?_⟩
      rw [Client.rdmaRead_posted, Client.rdmaRead_fst]
      rfl

theorem Asks.items {c : Client n} {i : Fin n} {p p' : Pending n} {r : Request n} (h : Asks w c i p r p') :
    p'.items.Perm (i :: p.items) := by
  cases h with
  | direct hn ho =>
    simp only [Pending.items, List.map_append, List.map_cons, List.map_nil, List.append_assoc]
    exact List.perm_middle
  | hash hn ht ho =>
    simp only [Pending.items, List.map_append, List.map_cons, List.map_nil, ← List.append_assoc]
    exact List.perm_append_comm

theorem Issued.ask {c c' : Client n} {i : Fin n} {p p' : Pending n} {r : Request n} (I : Issued w c p)
    (hi : i ∉ p.items) (hf : (c.readerSet i).isFetched = false) (ha : Asked c c') (h : Asks w c i p r p') :
    Issued w c' p' := by
  refine ⟨?_, ?_, ?_, ?_⟩
  · intro e he
    rw [ha.table]
    cases h with
    | direct hn ho =>
      rcases List.mem_append.mp he with he | he
      · exact I.direct e he
      · obtain rfl := List.mem_singleton.mp he
        exact hn
    | hash hn ht ho => exact I.direct e he
  · intro e he
    refine HashRead.First.of_kept ?_ ha.toKept
    cases h with
    | direct hn ho => exact I.hash e he
    | hash hn ht ho =>
      rcases List.mem_append.mp he with he | he
      · exact I.hash e he
      · obtain rfl := List.mem_singleton.mp he
        exact ⟨hn, ht, rfl⟩
  · intro j hj
    rw [ha.fetched]
    rcases List.mem_cons.mp (h.items.mem_iff.mp hj) with rfl | hj
    · exact hf
    · exact I.unfetched j hj
  · exact h.items.nodup_iff.mpr (List.nodup_cons.mpr ⟨hi, I.nodup⟩)

theorem issueLoop_issued {is : List (Fin n)} {c c' : Client n} {p p' : Pending n} (I : Issued w c p)
    (hd : ∀ i ∈ is, i ∉ p.items) (hn : is.Nodup) (h : issueLoop w is c p = .ok (true, c', p')) :
    Issued w c' p' := by
  induction is generalizing c p with
  | nil =>
    cases h
    exact I
  | cons i is ih =>
    obtain ⟨⟨ok, c₁, p₁⟩, h₁, h₂⟩ := bind_ok.mp h
    obtain ⟨hni, hn⟩ := List.nodup_cons.mp hn
    rcases issueItem_ok h₁ with ⟨hf, rfl, rfl, rfl⟩ | ⟨hf, -, ha, r, hr, -⟩
    · exact ih I (fun j hj => hd j (List.mem_cons_of_mem i hj)) hn h₂
    · cases ok with
      | false => cases h₂
      | true =>
        refine ih (I.ask (hd i List.mem_cons_self) hf ha hr) ?_ hn h₂
        intro j hj hmem
        rcases List.mem_cons.mp (hr.items.mem_iff.mp hmem) with rfl | hmem
        · exact hni hj
        · exact hd j (List.mem_cons_of_mem i hj) hmem

theorem issueReader_issued {c c' : Client n} {p : Pending n} (h : issueReader w c = .ok (true, c', p)) :
    Issued w c' p := by
  apply issueLoop_issued (p := ⟨[], []⟩) ?_ ?_ (List.nodup_finRange n) h
  · exact ⟨by simp, by simp, by simp [Pending.items], by simp [Pending.items]⟩
  · simp [Pending.items]

end MetadataService.Dmc
