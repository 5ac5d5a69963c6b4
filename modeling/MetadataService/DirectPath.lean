import MetadataService.MapRefinement
import MetadataService.ReadTermination
import MetadataService.RemoteLookup

namespace MetadataService.Dmc

open ByteMemory LinkedChain MemStore MetaExchange MemoryNode

variable {w : Cluster} {node : Int32} {m : MemoryNode} {C : UInt64 → List UInt64} {s : HashStore}

/-- What a client that reads one item at a remembered address ends up with; the hash read that follows a
stale address is counted as a walk over the whole bucket. -/
def Delivers (w : Cluster) (res : Option DataItem) : Bool × Client 1 × List (HashRead 1) → Prop
  | (false, _, _) => res = none
  | (true, c, []) => (c.readerSet 0).isFetched = true ∧ res = some (c.readerSet 0).item
  | (true, c, e :: _) => ∃ us, Nodes w e.qp e.table e.buf us ∧
      res = us.findSome? fun u => findItem u (c.readerSet e.item).item

def DirectResult (w : Cluster) (c₀ : Client 1) (res : Option DataItem) : Prop :=
  ∃ c p r, issueReader w c₀ = .ok (true, c, p) ∧ checkDirectRO w p.direct c [] = .ok r ∧ Delivers w res r

theorem directResult_iff {c₀ c : Client 1} {p : Pending 1} {r : Bool × Client 1 × List (HashRead 1)}
    {res : Option DataItem} (hi : issueReader w c₀ = .ok (true, c, p))
    (hc : checkDirectRO w p.direct c [] = .ok r) : DirectResult w c₀ res ↔ Delivers w res r := by
  constructor
  · rintro ⟨c₁, p₁, r₁, hi₁, hc₁, h⟩
    rw [hi] at hi₁
    cases hi₁
    rw [hc] at hc₁
    cases hc₁
    exact h
  · intro h
    exact ⟨c, p, r, hi, hc, h⟩

theorem loadItem_slot (mem : Memory) (p : UInt64) : loadItem (nodeBytes mem p) 0 = itemAt mem p :=
  loadItem_shift mem p.toNat

theorem Site.findSome_eq (S : Site w node m C s) {it : DataItem} (ht : it.tableId = s.tableId) :
    ((bucketChain C s it.key).map (nodeBytes m.mem)).findSome? (fun u => findItem u it) =
      (lookup m.mem (bucketChain C s it.key) it.key).map (itemAt m.mem) := by
  have hnode : ∀ ns : List UInt64, (∀ x ∈ ns, x ∈ bucketChain C s it.key) →
      (ns.map (nodeBytes m.mem)).findSome? (fun u => findItem u it) =
        (ns.findSome? (hitIn m it.key)).map (itemAt m.mem) := by
    intro ns hns
    induction ns with
    | nil => rfl
    | cons x ns ih =>
      have hx := S.findItem_eq ht (hns x List.mem_cons_self)
      rw [List.map_cons, List.findSome?_cons, List.findSome?_cons, hx]
      cases hitIn m it.key x with
      | some p => rfl
      | none => exact ih fun y hy => hns y (List.mem_cons_of_mem x hy)
  rw [hnode _ fun _ h => h, lookup, ← findSome_findSlot]
  rfl

theorem issueReader_direct {c₀ : Client 1} {offset : UInt64} {table : HashMeta}
    (hu : (c₀.readerSet 0).isFetched = false)
    (hn : w.manager.primaryTableNodes (c₀.readerSet 0).item.tableId = some node)
    (ht : w.manager.primaryHashMetas (c₀.readerSet 0).item.tableId = some table)
    (ho : (c₀.readerSet 0).offset = offset) (h0 : offset ≠ notFound) (hw : ∀ k, w.accepts k = true) :
    ∃ c, issueReader w c₀ = .ok (true, c, ⟨[⟨node, 0, w.bytes node offset, node⟩], []⟩) ∧ Asked c₀ c := by
  obtain ⟨⟨ok, c, p⟩, hstep⟩ := issueItem_returns (p := ⟨[], []⟩) hn ht
  rcases issueItem_ok hstep with ⟨hf, -⟩ | ⟨-, hok, ha, r, hr, -⟩
  · rw [hu] at hf
    cases hf
  · rw [hw] at hok
    subst hok
    refine ⟨c, ?_, ha⟩
    have hloop : issueReader w c₀ = .ok (true, c, p) := by
      simp only [issueReader, List.finRange_succ, List.finRange_zero, List.map_nil, issueLoop, hstep, bind,
        Except.bind, if_true]
    rw [hloop]
    cases hr with
    | direct hn' ho' =>
      obtain rfl := Option.some.inj (hn'.symm.trans hn)
      rw [ho]
      rfl
    | hash hn' ht' ho' => exact absurd (ho.symm.trans ho') h0

theorem Site.lookup_slot (S : Site w node m C s) (K : Keyed m C) {p : UInt64} (hp : s.Slot m.mem p)
    (hv : (itemAt m.mem p).valid ≠ 0) :
    lookup m.mem (bucketChain C s (itemAt m.mem p).key) (itemAt m.mem p).key = some p := by
  obtain ⟨b, hb, hr, hpb⟩ := S.layout.slot_mem S.mem hp
  have hhome : s.getHash (itemAt m.mem p).key = b := K.home s S.mem b hb p hpb hv
  rw [bucketChain, hhome]
  apply lookup_eq_some hpb (holds_iff.mpr ⟨hv, rfl⟩)
  intro q hq hne
  by_contra h
  obtain ⟨hvq, hkq⟩ := holds_iff.mp (Bool.not_eq_false _ ▸ h)
  exact hne (K.once _ hr q hq p hpb hvq hv hkq)

theorem Site.localGet_iff (S : Site w node m C s) (key : UInt64) (q : Option UInt64) :
    (∃ fuel, s.localGet m.mem key fuel = .ok q) ↔ lookup m.mem (bucketChain C s key) key = q := by
  have hget : s.localGet m.mem key ((bucketChain C s key).length + 1) =
      .ok (lookup m.mem (bucketChain C s key) key) := localGet_eq (S.chain key) (Nat.lt_succ_self _)
  constructor
  · rintro ⟨fuel, hq⟩
    have h1 := localGet_stable hget (Nat.le_max_left _ fuel)
    have h2 := localGet_stable hq (Nat.le_max_right ((bucketChain C s key).length + 1) fuel)
    exact Except.ok.inj (h1.symm.trans h2)
  · rintro rfl
    exact ⟨_, hget⟩

/-- The slot carries the key, its item was deleted, and the key is present in another slot. -/
def LeftBehind (s : HashStore) (mem : Memory) (it : DataItem) (p : UInt64) : Prop :=
  (itemAt mem p).key = it.key ∧ (itemAt mem p).tableId = it.tableId ∧ (itemAt mem p).valid = 0 ∧
    ∃ fuel q, s.localGet mem it.key fuel = .ok (some q)

def DirectAgrees (w : Cluster) (s : HashStore) (mem : Memory) (c₀ : Client 1) : Prop :=
  ∃ res q fuel, DirectResult w c₀ res ∧ s.localGet mem (c₀.readerSet 0).item.key fuel = .ok q ∧
    res = q.map (itemAt mem)

theorem Site.directAgrees_lookup (S : Site w node m C s) (c₀ : Client 1) :
    DirectAgrees w s m.mem c₀ ↔ DirectResult w c₀
      ((lookup m.mem (bucketChain C s (c₀.readerSet 0).item.key) (c₀.readerSet 0).item.key).map
        (itemAt m.mem)) := by
  constructor
  · rintro ⟨res, q, fuel, hres, hq, rfl⟩
    rwa [(S.localGet_iff _ _).mp ⟨fuel, hq⟩]
  · intro hres
    obtain ⟨fuel, hq⟩ := (S.localGet_iff _ _).mpr rfl
    exact ⟨_, _, fuel, hres, hq, rfl⟩

theorem Site.directAgrees_iff (S : Site w node m C s) (K : Keyed m C) (hw : ∀ k, w.accepts k = true)
    (c₀ : Client 1) (hu : (c₀.readerSet 0).isFetched = false)
    (ht : (c₀.readerSet 0).item.tableId = s.tableId) (h0 : (c₀.readerSet 0).offset ≠ notFound)
    (p : UInt64) (hp : w.regionStart node + (c₀.readerSet 0).offset = p) (hslot : s.Slot m.mem p) :
    DirectAgrees w s m.mem c₀ ↔ ¬ LeftBehind s m.mem (c₀.readerSet 0).item p := by
  have P := S.published
  have hreg := S.region
  have hplace := P.place
  have hmeta := P.table
  rw [← ht] at hplace hmeta
  obtain ⟨c, hissue, ha⟩ := issueReader_direct hu hplace hmeta rfl h0 hw
  have hbytes : w.bytes node (c₀.readerSet 0).offset = nodeBytes m.mem p := by
    rw [← hp, ← hreg]
    rfl
  rw [S.directAgrees_lookup]
  by_cases hmatch : (itemAt m.mem p).key = (c₀.readerSet 0).item.key ∧
      (itemAt m.mem p).tableId = (c₀.readerSet 0).item.tableId
  · by_cases hv : (itemAt m.mem p).valid = 0
    · -- The slot was used by the key before: the client gives up.
      have hcheck : checkDirectRO w [⟨node, 0, w.bytes node (c₀.readerSet 0).offset, node⟩] c [] =
          .ok (false, c.removeAddr node (c.readerSet 0).item.key, []) := by
        simp only [checkDirectRO, hbytes, loadItem_slot, ha.key, ha.table, if_pos hmatch, hv, ne_eq,
          not_true_eq_false, if_false]
      rw [directResult_iff hissue hcheck, Delivers, Option.map_eq_none_iff]
      constructor
      · rintro hnone ⟨-, -, -, fuel, q, hq⟩
        rw [(S.localGet_iff _ _).mp ⟨fuel, hq⟩] at hnone
        cases hnone
      · intro hnot
        cases hl : lookup m.mem (bucketChain C s (c₀.readerSet 0).item.key) (c₀.readerSet 0).item.key with
        | none => rfl
        | some q =>
          obtain ⟨fuel, hq⟩ := (S.localGet_iff _ _).mpr hl
          exact absurd ⟨hmatch.1, hmatch.2, hv, fuel, q, hq⟩ hnot
    · have hcheck : checkDirectRO w [⟨node, 0, w.bytes node (c₀.readerSet 0).offset, node⟩] c [] =
          .ok (true, c.fetch 0 (itemAt m.mem p), []) := by
        simp only [checkDirectRO, hbytes, loadItem_slot, ha.key, ha.table, if_pos hmatch, ne_eq, hv,
          not_false_eq_true, if_true]
      have hfound := S.lookup_slot K hslot hv
      rw [hmatch.1] at hfound
      rw [directResult_iff hissue hcheck, hfound, Delivers, Client.fetch_self]
      exact iff_of_true ⟨rfl, rfl⟩ fun hleft => hv hleft.2.2.1
  · -- Another item stands in the slot: the bucket is read.
    have hcheck : ∃ c', c'.readerSet = c.readerSet ∧
        checkDirectRO w [⟨node, 0, w.bytes node (c₀.readerSet 0).offset, node⟩] c [] =
          .ok (true, c', [firstRead w node s 0 (c.readerSet 0).item.key]) := by
      have hplace' := getPrimaryNodeID_ok.mpr hplace
      have hmeta' := getPrimaryHashMeta_ok.mpr hmeta
      rw [← ha.table] at hplace' hmeta'
      simp only [checkDirectRO, hbytes, loadItem_slot, ha.key, ha.table, if_neg hmatch] at hplace' hmeta' ⊢
      simp only [hplace', hmeta', bind, Except.bind, Client.rdmaRead_ok _ _ (hw _), if_true]
      refine ⟨_, ?_, rfl⟩
      rfl
    obtain ⟨c', hc', hcheck⟩ := hcheck
    rw [directResult_iff hissue hcheck, Delivers, hc']
    apply iff_of_true ?_ fun hleft => hmatch ⟨hleft.1, hleft.2.1⟩
    have hnodes := P.nodes (hreg ▸ S.chain (c.readerSet 0).item.key)
      (S.layout.root_ne_null (S.layout.root_mem S.mem (c.readerSet 0).item.key))
    rw [← P.bytes_bucket, hreg] at hnodes
    refine ⟨_, hnodes, ?_⟩
    rw [← ha.key]
    exact (S.findSome_eq ((ha.table 0).trans ht)).symm

theorem run_directAgrees_iff {n₀ : MemoryNode} {h : List (Op × Reply)} (hf : Fresh n₀)
    (hrun : Run LoadCall n₀ h m) (hs : s ∈ m.tables) (P : Published w node s) (hreg : w.region node = m.mem)
    (hw : ∀ k, w.accepts k = true) (c₀ : Client 1) (hu : (c₀.readerSet 0).isFetched = false)
    (ht : (c₀.readerSet 0).item.tableId = s.tableId) (h0 : (c₀.readerSet 0).offset ≠ notFound)
    (p : UInt64) (hp : w.regionStart node + (c₀.readerSet 0).offset = p) (hslot : s.Slot m.mem p) :
    DirectAgrees w s m.mem c₀ ↔ ¬ LeftBehind s m.mem (c₀.readerSet 0).item p := by
  obtain ⟨C, L, H⟩ := hrun.loaded hf
  exact Site.directAgrees_iff ⟨L, H.owned, hs, P, hreg⟩ H.keyed hw c₀ hu ht h0 p hp hslot

structure SecondSlot (m : MemoryNode) (s : HashStore) : Prop where
  mem : s ∈ m.tables
  published : Published (serving m) 0 s
  tableId : s.tableId = 1
  place : m.alloc.memRegionStart + 720 = 4816
  slot : s.Slot m.mem 4816

def secondSlot (m : MemoryNode) (P : HashStore → Bool) : Bool :=
  match m.tables.find? fun s => s.tableId == 1 with
  | some s => s.bucketNum == 1 && s.bucket 0 == 4096 && m.alloc.memRegionStart == 4096 && P s
  | none => false

theorem secondSlot_ok {P : HashStore → Bool} (L : Layout m C) (h : secondSlot m P = true) :
    ∃ s, SecondSlot m s ∧ P s = true := by
  unfold secondSlot at h
  split at h
  · rename_i s hs
    simp only [Bool.and_eq_true, beq_iff_eq] at h
    obtain ⟨⟨⟨hb, hx⟩, hr⟩, hP⟩ := h
    obtain ⟨ht, hpub⟩ := serving_published L hs
    refine ⟨s, ⟨List.mem_of_find?_eq_some hs, hpub, ht, by rw [hr]; rfl, 0, by rw [hb]; decide, 4096,
      ?_, ?_⟩, hP⟩
    · rw [hx]
      exact .here (by decide)
    · exact mem_slotsOf.mpr ⟨1, by decide, by decide⟩
  · cases h

theorem run_directAgrees_iff_current_slot :
    ∃ h m s, Run LoadCall smallNode h m ∧ s ∈ m.tables ∧ s.Slot m.mem 4816 ∧
      (DirectAgrees (serving m) s m.mem (oneReader 5 720) ↔ ¬ LeftBehind s m.mem (smallItem 1 5) 4816) := by
  obtain ⟨h, m, hrun, hm⟩ := replay_any LoadCall 3 smallNode
    [.build 1 1, .insert 0 7 (smallItem 1 7), .insert 0 5 (smallItem 1 5)]
    (fun _ m => secondSlot m fun _ => true) (by decide +kernel)
  obtain ⟨C, L, -⟩ := hrun.loaded smallNode_fresh
  obtain ⟨s, S, -⟩ := secondSlot_ok L hm
  exact ⟨h, m, s, hrun, S.mem, S.slot, run_directAgrees_iff smallNode_fresh hrun S.mem S.published rfl
    (fun _ => rfl) (oneReader 5 720) rfl S.tableId.symm (by decide) 4816 S.place S.slot⟩

def finds (r : Except Fault (Option UInt64)) : Bool :=
  match r with
  | .ok (some _) => true
  | _ => false

theorem finds_ok {r : Except Fault (Option UInt64)} (h : finds r = true) : ∃ p, r = .ok (some p) := by
  unfold finds at h
  split at h
  · exact ⟨_, rfl⟩
  · cases h

theorem deleted_slot_hides_key :
    ∃ h m s, Run LoadCall smallNode h m ∧ s ∈ m.tables ∧ Published (serving m) 0 s ∧ s.Slot m.mem 4816 ∧
      (∃ fuel p, s.localGet m.mem 5 fuel = .ok (some p)) ∧
      ¬ DirectAgrees (serving m) s m.mem (oneReader 5 720) := by
  obtain ⟨h, m, hrun, hm⟩ := replay_any LoadCall 3 smallNode
    [.build 1 1, .insert 0 7 (smallItem 1 7), .insert 0 5 (smallItem 1 5), .delete 0 5, .delete 0 7,
      .insert 0 5 (smallItem 1 5)]
    (fun _ m => secondSlot m fun s => (itemAt m.mem 4816).key == 5 && (itemAt m.mem 4816).tableId == 1 &&
      (itemAt m.mem 4816).valid == 0 && finds (s.localGet m.mem 5 3)) (by decide +kernel)
  obtain ⟨C, L, H⟩ := hrun.loaded smallNode_fresh
  obtain ⟨s, S, hP⟩ := secondSlot_ok L hm
  simp only [Bool.and_eq_true, beq_iff_eq] at hP
  obtain ⟨⟨⟨hk, ht⟩, hv⟩, hget⟩ := hP
  have hfound : ∃ fuel p, s.localGet m.mem 5 fuel = .ok (some p) := ⟨3, finds_ok hget⟩
  have hsite : Site (serving m) 0 m C s := ⟨L, H.owned, S.mem, S.published, rfl⟩
  refine ⟨h, m, s, hrun, S.mem, S.published, S.slot, hfound, ?_⟩
  rw [hsite.directAgrees_iff H.keyed (fun _ => rfl) (oneReader 5 720) rfl S.tableId.symm (by decide) 4816
    S.place S.slot]
  exact fun hnot => hnot ⟨hk, ht, hv, hfound⟩

end MetadataService.Dmc
