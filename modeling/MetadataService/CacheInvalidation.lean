import MetadataService.StatVerdict

namespace MetadataService.Dmc

open ByteMemory MemStore MetaExchange

variable {n : ℕ} {w : Cluster}

def Invalidated (servers : Int32) (cache : AddrCache) (key : UInt64) : Prop :=
  ∀ calls, (∀ op ∈ calls, ¬ op.Inserts (shard servers key) key) →
    (cache.after calls).search (shard servers key) key = none

theorem invalidated_iff (servers : Int32) (cache : AddrCache) (key : UInt64) :
    Invalidated servers cache key ↔ cache.search (shard servers key) key = none := by
  constructor
  · intro h
    exact h [] (by simp)
  · intro h calls hcalls
    exact AddrCache.search_after_none h hcalls

theorem invalidated_remove_iff (servers node : Int32) (cache : AddrCache) (key : UInt64) :
    Invalidated servers (cache.remove node key) key ↔
      node = shard servers key ∨ cache.search (shard servers key) key = none := by
  rw [invalidated_iff, AddrCache.search_remove, eq_comm (a := node)]
  by_cases hn : shard servers key = node <;> simp [hn]

/-- The loop comes to the read, which shows the item it was made for, deleted. -/
structure FindsDeleted (w : Cluster) (direct : List (DirectRead n)) (c : Client n) (res : DirectRead n) :
    Prop where
  reached : ∃ pre post c' next, direct = pre ++ res :: post ∧
    checkDirectRO w pre c [] = .ok (true, c', next)
  key : (loadItem res.buf 0).key = (c.readerSet res.item).item.key
  table : (loadItem res.buf 0).tableId = (c.readerSet res.item).item.tableId
  deleted : (loadItem res.buf 0).valid = 0

theorem checkDirectRO_append {pre : List (DirectRead n)} {c c' : Client n} {next next' : List (HashRead n)}
    (h : checkDirectRO w pre c next = .ok (true, c', next')) (post : List (DirectRead n)) :
    checkDirectRO w (pre ++ post) c next = checkDirectRO w post c' next' ∧ c'.addrCache = c.addrCache := by
  induction pre generalizing c next with
  | nil =>
    cases h
    exact ⟨rfl, rfl⟩
  | cons e pre ih =>
    rw [List.cons_append]
    simp only [checkDirectRO] at h ⊢
    split_ifs at h ⊢
    · exact ih h
    · cases h
    · obtain ⟨node, hn, h⟩ := bind_ok.mp h
      obtain ⟨table, ht, h⟩ := bind_ok.mp h
      simp only [hn, ht, bind, Except.bind]
      split_ifs at h ⊢
      · obtain ⟨heq, hcache⟩ := ih h
        refine ⟨heq, hcache.trans ?_⟩
        unfold Client.rdmaRead
        split <;> rfl
      · cases h

theorem FindsDeleted.removes {direct : List (DirectRead n)} {c : Client n} {res : DirectRead n}
    (hd : ∀ e ∈ direct, e.First w c) (D : FindsDeleted w direct c res) :
    ∃ c' next, checkDirectRO w direct c [] = .ok (false, c', next) ∧
      c'.addrCache = c.addrCache.remove res.remoteNode (c.readerSet res.item).item.key := by
  obtain ⟨pre, post, c₁, next, rfl, hpre⟩ := D.reached
  obtain ⟨happ, hcache⟩ := checkDirectRO_append hpre (res :: post)
  have hkept : Kept c c₁ :=
    (checkDirectRO_checks (fun e he => hd e (List.mem_append_left _ he)) (Kept.refl c) hpre).kept (Kept.refl c)
  refine ⟨c₁.removeAddr res.remoteNode (c₁.readerSet res.item).item.key, next, ?_, ?_⟩
  · rw [happ]
    simp only [checkDirectRO, hkept.key, hkept.table, D.key, D.table, D.deleted, and_self, if_true,
      ne_eq, not_true_eq_false, if_false]
  · rw [hkept.key, ← hcache]
    rfl

theorem FindsDeleted.removes_at_home {c₀ c : Client n} {p : Pending n} {cache : AddrCache} {res : DirectRead n}
    (hi : issueReader w c₀ = .ok (true, c, p))
    (D : FindsDeleted w p.direct { c with addrCache := cache } res) :
    ∃ c' next node, checkDirectRO w p.direct { c with addrCache := cache } [] = .ok (false, c', next) ∧
      w.manager.primaryTableNodes (c₀.readerSet res.item).item.tableId = some node ∧
      c'.addrCache = cache.remove node (c₀.readerSet res.item).item.key := by
  have I := issueLoop_issuing hi
  have R := issueReader_reads hi
  have hdirect : ∀ e ∈ p.direct, e.First w { c with addrCache := cache } := by
    intro e he
    obtain ⟨hplace, hhome, hoffset, hbytes⟩ := R.direct e he
    exact ⟨hplace, hhome, hoffset, hbytes⟩
  have hres : res ∈ p.direct := by
    obtain ⟨pre, post, -, -, hp, -⟩ := D.reached
    rw [hp]
    exact List.mem_append_right _ List.mem_cons_self
  obtain ⟨c', next, hret, hcache⟩ := D.removes hdirect
  refine ⟨c', next, res.remoteNode, hret, ?_, ?_⟩
  · rw [← I.asked.table, (R.direct res hres).home]
    exact (R.direct res hres).place
  · rw [hcache, ← I.asked.key]

theorem deleted_invalidated_iff {c₀ c : Client n} {p : Pending n}
    (hi : issueReader w c₀ = .ok (true, c, p)) (cache : AddrCache) (servers : Int32) {res : DirectRead n}
    (D : FindsDeleted w p.direct { c with addrCache := cache } res) :
    ∃ c' next, checkDirectRO w p.direct { c with addrCache := cache } [] = .ok (false, c', next) ∧
      (Invalidated servers c'.addrCache (c₀.readerSet res.item).item.key ↔
        w.manager.primaryTableNodes (c₀.readerSet res.item).item.tableId =
            some (shard servers (c₀.readerSet res.item).item.key) ∨
          cache.search (shard servers (c₀.readerSet res.item).item.key)
            (c₀.readerSet res.item).item.key = none) := by
  obtain ⟨c', next, node, hret, hnode, hcache⟩ := D.removes_at_home hi
  refine ⟨c', next, hret, ?_⟩
  rw [hcache, invalidated_remove_iff, hnode, Option.some.injEq]

def deletedFirst (c : Client n) (p : Pending n) : Bool :=
  match p.direct with
  | [res] => (loadItem res.buf 0).key == (c.readerSet res.item).item.key &&
      (loadItem res.buf 0).tableId == (c.readerSet res.item).item.tableId && (loadItem res.buf 0).valid == 0
  | _ => false

theorem deletedFirst_ok {c : Client n} {p : Pending n} (h : deletedFirst c p = true) (cache : AddrCache) :
    ∃ res, FindsDeleted w p.direct { c with addrCache := cache } res := by
  unfold deletedFirst at h
  split at h
  · rename_i res hp
    simp only [Bool.and_eq_true, beq_iff_eq] at h
    exact ⟨res, ⟨[], [], _, [], hp, rfl⟩, h.1.1, h.1.2, h.2⟩
  · cases h

theorem deletedItem_issued :
    ∃ h m c p, MemoryNode.Run LoadCall smallNode h m ∧
      issueReader (serving m) (oneReader 5 0) = .ok (true, c, p) ∧ deletedFirst c p = true ∧
      (serving m).manager.primaryTableNodes 1 = some 0 := by
  obtain ⟨h, m, hrun, hm⟩ := MemoryNode.replay_any LoadCall 3 smallNode
    [.build 1 1, .insert 0 5 (smallItem 1 5), .delete 0 5]
    (fun _ m => issues m (oneReader 5 0) deletedFirst &&
      ((serving m).manager.primaryTableNodes 1 == some 0)) (by decide +kernel)
  obtain ⟨hissue, hnode⟩ := Bool.and_eq_true_iff.mp hm
  obtain ⟨c, p, hi, hp⟩ := issues_ok hissue
  exact ⟨h, m, c, p, hrun, hi, hp, beq_iff_eq.mp hnode⟩

theorem deleted_invalidated_iff_one_server :
    ∃ m c p res c' next, issueReader (n := 1) (serving m) (oneReader 5 0) = .ok (true, c, p) ∧
      let cache := AddrCache.empty.insert 0 5 ⟨0, ⟨0, 0, 0, 0, false⟩⟩
      FindsDeleted (serving m) p.direct { c with addrCache := cache } res ∧
      checkDirectRO (serving m) p.direct { c with addrCache := cache } [] = .ok (false, c', next) ∧
      Invalidated 1 c'.addrCache 5 := by
  obtain ⟨h, m, c, p, hrun, hi, hp, hnode⟩ := deletedItem_issued
  obtain ⟨res, D⟩ := deletedFirst_ok (w := serving m) hp (AddrCache.empty.insert 0 5 ⟨0, ⟨0, 0, 0, 0, false⟩⟩)
  obtain ⟨c', next, hret, hiff⟩ := deleted_invalidated_iff hi _ 1 D
  have hshard : shard 1 5 = 0 := by decide
  exact ⟨m, c, p, res, c', next, hi, D, hret, hiff.mpr (.inl (hnode.trans (congrArg some hshard.symm)))⟩

theorem other_shard_keeps_deleted :
    ∃ m c p res c' next, issueReader (n := 1) (serving m) (oneReader 5 0) = .ok (true, c, p) ∧
      let cache := AddrCache.empty.insert 1 5 ⟨0, ⟨0, 0, 0, 0, false⟩⟩
      FindsDeleted (serving m) p.direct { c with addrCache := cache } res ∧
      checkDirectRO (serving m) p.direct { c with addrCache := cache } [] = .ok (false, c', next) ∧
      ¬ Invalidated 2 c'.addrCache 5 := by
  obtain ⟨h, m, c, p, hrun, hi, hp, hnode⟩ := deletedItem_issued
  obtain ⟨res, D⟩ := deletedFirst_ok (w := serving m) hp (AddrCache.empty.insert 1 5 ⟨0, ⟨0, 0, 0, 0, false⟩⟩)
  obtain ⟨c', next, node, hret, hn, hcache⟩ := D.removes_at_home hi
  refine ⟨m, c, p, res, c', next, hi, D, hret, ?_⟩
  obtain rfl : node = 0 := Option.some.inj (hn.symm.trans hnode)
  have hcache' : c'.addrCache = (AddrCache.empty.insert 1 5 ⟨0, ⟨0, 0, 0, 0, false⟩⟩).remove 0 5 := hcache
  have hshard : shard 2 5 = 1 := by decide
  rw [hcache', invalidated_remove_iff, hshard, AddrCache.search_insert]
  simp

end MetadataService.Dmc
