import MetadataService.NodeRuns

namespace MetadataService.MemStore

open ByteMemory LinkedChain Loops

namespace MemoryNode

variable {n : MemoryNode} {C : UInt64 → List UInt64} {s : HashStore}

theorem Layout.reach_mem (L : Layout n C) {a x : UInt64} (ha : a ∈ n.roots)
    (hx : Reach (nextOf n.mem) 0 a x) : x ∈ C a :=
  (L.forest.chain a ha).mem_iff_reach.mpr hx

theorem Layout.localGet_eq (L : Layout n C) (hs : s ∈ n.tables) (key : UInt64) :
    ∃ fuel, s.localGet n.mem key fuel = .ok (lookup n.mem (C (s.bucket (s.getHash key))) key) :=
  ⟨_, MemStore.localGet_eq (L.chain hs key) (Nat.lt_succ_self _)⟩

theorem Layout.localDelete_ends (L : Layout n C) (hs : s ∈ n.tables) (key : UInt64) :
    ∃ fuel r, s.localDelete n.mem key fuel = .ok r :=
  ⟨_, _, localDelete_eq (L.chain hs key) (L.chain_ne_nil (L.root_mem hs key)) le_rfl⟩

theorem Layout.localInsert_ends (L : Layout n C) (hs : s ∈ n.tables) (key : UInt64)
    (param : MemStoreReserveParam) (d : DataItem) {fuel : ℕ}
    (hf : (C (s.bucket (s.getHash key))).length ≤ fuel) :
    s.localInsert n.mem param key d fuel ≠ .error .outOfFuel := by
  have hne := L.chain_ne_nil (L.root_mem hs key)
  cases hp : firstFree n.mem (C (s.bucket (s.getHash key))) with
  | some p =>
    rw [localInsert_reuse _ _ (L.chain hs key) hne hf hp]
    simp
  | none =>
    rw [localInsert_grow _ _ (L.chain hs key) hne hf hp]
    split_ifs <;> simp

theorem Layout.localPut_ends (L : Layout n C) (hs : s ∈ n.tables) (key : UInt64)
    (param : MemStoreReserveParam) (d : DataItem) :
    ∃ fuel, s.localPut n.mem param key d fuel ≠ .error .outOfFuel := by
  refine ⟨(C (s.bucket (s.getHash key))).length + 1, ?_⟩
  rw [localPut_eq _ _ (L.chain hs key) (Nat.lt_succ_self _)]
  cases lookup n.mem (C (s.bucket (s.getHash key))) key with
  | some p => simp
  | none => exact L.localInsert_ends hs key param d (Nat.le_succ _)

/-- The insert has put its item into the first free node of the reserve area, behind `l`. -/
structure NewNode (n : MemoryNode) (r : Inserted) (l new : UInt64) (d : DataItem) : Prop where
  place : new.toNat = n.reserveTop
  next : nextOf r.mem l = new
  ends : nextOf r.mem new = 0
  slot : r.item = slotPtr new 0
  item : itemAt r.mem r.item = { d with valid := 1 }

theorem Layout.append_bytes (L : Layout n C) {i fuel : ℕ} {key : UInt64} {d : DataItem} {r : Inserted}
    (hs : s ∈ n.tables) (h : s.localInsert n.mem n.reserve key d fuel = .ok r)
    (hle : n.reserveTop ≤ (n.commit i r).reserveTop) (hw : (n.commit i r).reserveTop ≤ 2 ^ 64)
    (hnew : r.param.memStoreReserveOffset ≠ n.reserve.memStoreReserveOffset) :
    ∃ l ∈ C (s.bucket (s.getHash key)), ∃ new, nextOf n.mem l = 0 ∧ NewNode n r l new d ∧ ∀ x ∈ n.nodes C,
      (∀ k < 15840, r.mem (x.toNat + k) = n.mem (x.toNat + k)) ∧
      (x ≠ l → ∀ k < 15848, r.mem (x.toNat + k) = n.mem (x.toNat + k)) := by
  have ha := L.root_mem hs key
  rcases L.insert_cases hs h hle hw with ⟨p, -, rfl⟩ | ⟨l, y, A, -⟩
  · exact absurd rfl hnew
  · obtain ⟨pre, hC⟩ := A.last
    have hl : l ∈ C (s.bucket (s.getHash key)) := hC ▸ List.mem_append_right _ List.mem_cons_self
    have hchain := L.chain hs key
    rw [hC] at hchain
    have hly := L.top_apart A.node ⟨_, ha, hl⟩
    refine ⟨l, hl, y, hchain.next_last, ⟨A.node, ?_, ?_, A.item, ?_⟩, ?_⟩
    · rw [A.mem]
      exact linkNode_next_last
    · rw [A.mem]
      exact linkNode_next_new hly
    · rw [A.item, A.mem]
      exact linkNode_item_first hly
    intro x hx
    have hyx := L.top_apart A.node hx
    have hlx := L.apart l ⟨_, ha, hl⟩ x hx
    unfold Apart at hyx hlx
    rw [A.mem]
    constructor
    · intro k hk
      apply linkNode_outside
      · omega
      · rcases hlx with rfl | hlx <;> omega
    · intro hne k hk
      have hlx := hlx.resolve_left (Ne.symm hne)
      apply linkNode_outside <;> omega

structure ChainSafety (n : MemoryNode) : Prop where
  disjoint : ∀ i j s t b c x, n.table i = .ok s → n.table j = .ok t → b < s.bucketNum →
    c < t.bucketNum → Reach (nextOf n.mem) 0 (s.bucket b) x → Reach (nextOf n.mem) 0 (t.bucket c) x →
    i = j ∧ b = c
  finite : ∀ s ∈ n.tables, ∀ b < s.bucketNum,
    ∃ ns, Chain (nextOf n.mem) 0 (s.bucket b) ns ∧ ns.Nodup
  append : ∀ i s key d fuel r, n.table i = .ok s → s.localInsert n.mem n.reserve key d fuel = .ok r →
    n.NoWrap (.insert i key d) (n.commit i r) →
    r.param.memStoreReserveOffset ≠ n.reserve.memStoreReserveOffset →
    ∃ l new, Reach (nextOf n.mem) 0 (s.bucket (s.getHash key)) l ∧ nextOf n.mem l = 0 ∧ NewNode n r l new d ∧
      ∀ t ∈ n.tables, ∀ b < t.bucketNum, ∀ x, Reach (nextOf n.mem) 0 (t.bucket b) x →
        (∀ k < 15840, r.mem (x.toNat + k) = n.mem (x.toNat + k)) ∧
        (x ≠ l → ∀ k < 15848, r.mem (x.toNat + k) = n.mem (x.toNat + k))
  getEnds : ∀ s ∈ n.tables, ∀ key, ∃ fuel r, s.localGet n.mem key fuel = .ok r
  insertEnds : ∀ s ∈ n.tables, ∀ key d, ∃ fuel,
    s.localInsert n.mem n.reserve key d fuel ≠ .error .outOfFuel
  putEnds : ∀ s ∈ n.tables, ∀ key d, ∃ fuel, s.localPut n.mem n.reserve key d fuel ≠ .error .outOfFuel
  deleteEnds : ∀ s ∈ n.tables, ∀ key, ∃ fuel r, s.localDelete n.mem key fuel = .ok r

def AnyCall (_ : List (Op × Reply)) (_ : Op) : Prop := True

instance (h : List (Op × Reply)) (op : Op) : Decidable (AnyCall h op) := inferInstanceAs (Decidable True)

theorem run_chainSafety {n₀ : MemoryNode} {h : List (Op × Reply)} (hf : Fresh n₀)
    (hrun : Run AnyCall n₀ h n) : ChainSafety n := by
  obtain ⟨C, L⟩ := hrun.layout hf
  refine ⟨?_, ?_, ?_, ?_, ?_, ?_, ?_⟩
  · intro i j s t b c x hs ht hb hc hxb hxc
    have hra : s.bucket b ∈ n.roots := ⟨s, table_mem hs, b, hb, rfl⟩
    have hrb : t.bucket c ∈ n.roots := ⟨t, table_mem ht, c, hc, rfl⟩
    apply L.bucket_index hs ht hb hc
    exact L.forest.root_eq hra hrb (L.reach_mem hra hxb) (L.reach_mem hrb hxc)
  · intro s hs b hb
    have hchain := L.forest.chain _ ⟨s, hs, b, hb, rfl⟩
    exact ⟨_, hchain, hchain.nodup⟩
  · intro i s key d fuel r hs hr hw hnew
    obtain ⟨l, hl, new, hnull, hnode, hbytes⟩ := L.append_bytes (i := i) (table_mem hs) hr hw.1 hw.2 hnew
    refine ⟨l, new, (L.chain (table_mem hs) key).mem_iff_reach.mp hl, hnull, hnode, ?_⟩
    intro t ht b hb x hx
    have hra : t.bucket b ∈ n.roots := ⟨t, ht, b, hb, rfl⟩
    exact hbytes x ⟨_, hra, L.reach_mem hra hx⟩
  · intro s hs key
    obtain ⟨fuel, hget⟩ := L.localGet_eq hs key
    exact ⟨fuel, _, hget⟩
  · intro s hs key d
    exact ⟨_, L.localInsert_ends hs key n.reserve d le_rfl⟩
  · intro s hs key d
    exact L.localPut_ends hs key n.reserve d
  · intro s hs key
    exact L.localDelete_ends hs key

def appends (n : MemoryNode) (P : HashStore → Inserted → Bool) : Bool :=
  match n.table 0 with
  | .ok s =>
    match s.localInsert n.mem n.reserve 22 (smallItem 1 22) 2 with
    | .ok r => decide (n.NoWrap (.insert 0 22 (smallItem 1 22)) (n.commit 0 r)) &&
      r.param.memStoreReserveOffset != n.reserve.memStoreReserveOffset && P s r
    | .error _ => false
  | .error _ => false

theorem appends_ok {P : HashStore → Inserted → Bool} (h : n.appends P = true) :
    ∃ s r, n.table 0 = .ok s ∧ s.localInsert n.mem n.reserve 22 (smallItem 1 22) 2 = .ok r ∧
      n.NoWrap (.insert 0 22 (smallItem 1 22)) (n.commit 0 r) ∧
      r.param.memStoreReserveOffset ≠ n.reserve.memStoreReserveOffset ∧ P s r = true := by
  unfold appends at h
  split at h
  · rename_i s hs
    split at h
    · rename_i r hr
      simp only [Bool.and_eq_true, decide_eq_true_eq, bne_iff_ne] at h
      exact ⟨s, r, hs, hr, h.1.1, h.1.2, h.2⟩
    · cases h
  · cases h

def filledBucket : List Op :=
  .build 1 1 :: (List.range 22).map fun i => .insert 0 (UInt64.ofNat i) (smallItem 1 (UInt64.ofNat i))

theorem run_chainSafety_append :
    ∃ h n s r l new, Run AnyCall smallNode h n ∧ n.tables.length = 2 ∧ ChainSafety n ∧ n.table 0 = .ok s ∧
      s.localInsert n.mem n.reserve 22 (smallItem 1 22) 2 = .ok r ∧
      Reach (nextOf n.mem) 0 (s.bucket (s.getHash 22)) l ∧ nextOf n.mem l = 0 ∧
      NewNode n r l new (smallItem 1 22) := by
  obtain ⟨h, n, hrun, hn⟩ := replay_any AnyCall 3 smallNode
    (filledBucket ++ [.build 2 1, .put 1 7 (smallItem 2 7), .delete 1 7])
    (fun _ n => n.tables.length == 2 && n.appends fun _ _ => true) (by decide +kernel)
  obtain ⟨htables, happ⟩ := Bool.and_eq_true_iff.mp hn
  obtain ⟨s, r, hs, hr, hw, hnew, -⟩ := appends_ok happ
  have hsafe := run_chainSafety smallNode_fresh hrun
  obtain ⟨l, new, hl, hnull, hnode, -⟩ := hsafe.append 0 s 22 _ 2 r hs hr hw hnew
  exact ⟨h, n, s, r, l, new, hrun, beq_iff_eq.mp htables, hsafe, hs, hr, hl, hnull, hnode⟩

theorem append_changes_last_node :
    ¬ ∀ n₀ h n, Fresh n₀ → Run AnyCall n₀ h n → ∀ i s key d fuel r, n.table i = .ok s →
      s.localInsert n.mem n.reserve key d fuel = .ok r → n.NoWrap (.insert i key d) (n.commit i r) →
      r.param.memStoreReserveOffset ≠ n.reserve.memStoreReserveOffset →
      ∀ t ∈ n.tables, ∀ b < t.bucketNum, ∀ x, Reach (nextOf n.mem) 0 (t.bucket b) x →
        ∀ k < 15848, r.mem (x.toNat + k) = n.mem (x.toNat + k) := by
  intro H
  obtain ⟨h, n, hrun, hn⟩ := replay_any AnyCall 2 smallNode filledBucket
    (fun _ n => n.appends fun s r => decide (0 < s.bucketNum) && s.bucket 0 != 0 &&
      r.mem ((s.bucket 0).toNat + 15842) != n.mem ((s.bucket 0).toNat + 15842)) (by decide +kernel)
  obtain ⟨s, r, hs, hr, hw, hnew, hP⟩ := appends_ok hn
  simp only [Bool.and_eq_true, decide_eq_true_eq, bne_iff_ne] at hP
  obtain ⟨⟨hb, h0⟩, hbyte⟩ := hP
  apply hbyte
  exact H smallNode h n smallNode_fresh hrun 0 s 22 _ 2 r hs hr hw hnew s (table_mem hs) 0 hb _ (.here h0)
    15842 (by omega)

end MemoryNode

end MetadataService.MemStore
