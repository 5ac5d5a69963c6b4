import MetadataService.CallHistory
import MetadataService.ChainSafety

namespace MetadataService.MemStore

open ByteMemory LinkedChain Loops

def Op.stored : Op → Option DataItem
  | .insert _ _ d => some d
  | .put _ _ d => some d
  | _ => none

/-- The calls that treat a table as a map: items carry their key and the valid mark, and only keys that
are not present are inserted. -/
def MapCall (h : List (Op × Reply)) : Op → Prop
  | .build _ _ => True
  | .insert i key d => d.key = key ∧ d.valid = 1 ∧ latest Op.stored h i key = none
  | .put _ key d => d.key = key ∧ d.valid = 1
  | .load _ _ _ _ => False
  | .delete _ _ => True

instance (h : List (Op × Reply)) (op : Op) : Decidable (MapCall h op) :=
  match op with
  | .build _ _ => inferInstanceAs (Decidable True)
  | .insert i key d =>
    inferInstanceAs (Decidable (d.key = key ∧ d.valid = 1 ∧ latest Op.stored h i key = none))
  | .put _ key d => inferInstanceAs (Decidable (d.key = key ∧ d.valid = 1))
  | .load _ _ _ _ => inferInstanceAs (Decidable False)
  | .delete _ _ => inferInstanceAs (Decidable True)

def HashStore.Slot (s : HashStore) (m : Memory) (p : UInt64) : Prop :=
  ∃ b < s.bucketNum, ∃ x, Reach (nextOf m) 0 (s.bucket b) x ∧ p ∈ slotsOf x

def HashStore.Full (s : HashStore) (m : Memory) (key : UInt64) : Prop :=
  ∀ x, Reach (nextOf m) 0 (s.bucket (s.getHash key)) x → ∀ p ∈ slotsOf x, (itemAt m p).valid ≠ 0

namespace MemoryNode

variable {n n' : MemoryNode} {C C' : UInt64 → List UInt64} {s : HashStore} {h : List (Op × Reply)}
  {op : Op} {r : Reply} {i : ℕ} {p key : UInt64}

theorem MapCall.proper (A : Agrees Op.stored id h n C) (hok : MapCall h op) : Proper n C op := by
  cases op with
  | build _ _ => trivial
  | insert i key d => exact ⟨hok.1, fun s hs => A.lookup_none hs hok.2.2⟩
  | put i key d => exact hok.1
  | load _ _ _ _ => exact hok.elim
  | delete _ _ => trivial

theorem MapCall.tracks (hok : MapCall h op) : Tracks Op.stored id n op := by
  cases op with
  | build _ _ => trivial
  | insert i key d => exact congrArg some (valid_one hok.2.1).symm
  | put i key d => exact ⟨hok.2, rfl⟩
  | load _ _ _ _ => exact hok.elim
  | delete _ _ => rfl

theorem Run.agrees {n₀ : MemoryNode} (hf : Fresh n₀) (hrun : Run MapCall n₀ h n) :
    ∃ C, Layout n C ∧ Keyed n C ∧ Agrees Op.stored id h n C := by
  apply hrun.invariant (I := fun h n C => Keyed n C ∧ Agrees Op.stored id h n C) hf
  · intro C
    exact ⟨hf.keyed C, hf.agrees C⟩
  · intro h n n' C C' op r hok L L' hE hI
    have hp := MapCall.proper hI.2 hok
    exact ⟨hI.1.step L L' hp hE, hI.2.step hI.1 L L' hp (MapCall.tracks hok) hE⟩

theorem localGet_stable {m : Memory} {fuel fuel' : ℕ} {v : Option UInt64}
    (hg : s.localGet m key fuel = .ok v) (hle : fuel ≤ fuel') : s.localGet m key fuel' = .ok v :=
  timed_stable hg hle

theorem Layout.localGet_kept (L : Layout n C) (L' : Layout n' C') (hs : s ∈ n.tables) {s' : HashStore}
    (hs' : s' ∈ n'.tables) (he : s'.shape = s.shape)
    (hl : lookup n'.mem (C' (s.bucket (s.getHash key))) key =
      lookup n.mem (C (s.bucket (s.getHash key))) key) :
    ∃ fuel, s.localGet n.mem key fuel = .ok (lookup n.mem (C (s.bucket (s.getHash key))) key) ∧
      s'.localGet n'.mem key fuel = .ok (lookup n.mem (C (s.bucket (s.getHash key))) key) := by
  obtain ⟨f, hget⟩ := L.localGet_eq hs key
  obtain ⟨f', hget'⟩ := L'.localGet_eq hs' key
  rw [HashStore.bucket_shape he, HashStore.getHash_shape he, hl] at hget'
  exact ⟨max f f', localGet_stable hget (Nat.le_max_left _ _), localGet_stable hget' (Nat.le_max_right _ _)⟩

theorem Stored.frame {t : HashStore} {j : ℕ} {k q : UInt64} {e : DataItem}
    (S : Stored n n' C C' (t.bucket (t.getHash k)) q e) (L : Layout n C) (L' : Layout n' C')
    (ht : n.table j = .ok t)
    (hbefore : q ∈ slots (C (t.bucket (t.getHash k))) → (itemAt n.mem q).valid ≠ 0 → (itemAt n.mem q).key = k)
    (hafter : e.valid ≠ 0 → e.key = k) (hs : n.table i = .ok s) (hne : (i, key) ≠ (j, k)) :
    ∃ s', n'.table i = .ok s' ∧ s'.shape = s.shape ∧
      lookup n'.mem (C' (s.bucket (s.getHash key))) key = lookup n.mem (C (s.bucket (s.getHash key))) key ∧
      ∀ p, lookup n.mem (C (s.bucket (s.getHash key))) key = some p → itemAt n'.mem p = itemAt n.mem p := by
  obtain ⟨s', hs', he⟩ := S.shapes.table hs
  have ha := L.root_mem (table_mem ht) k
  have hb := L.root_mem (table_mem hs) key
  have hhome := L.home_ne hs ht hne
  refine ⟨s', hs', he, S.lookup_other L' hbefore hafter ha hb hhome, ?_⟩
  intro p hl
  exact S.item_other L' hbefore ha hb hhome hl

theorem Effect.frame (hE : Effect n n' C C' op r) (K : Keyed n C) (L : Layout n C) (L' : Layout n' C')
    (hp : Proper n C op) (hs : n.table i = .ok s) (hne : op.target ≠ some (i, key)) :
    ∃ s', n'.table i = .ok s' ∧ s'.shape = s.shape ∧
      lookup n'.mem (C' (s.bucket (s.getHash key))) key = lookup n.mem (C (s.bucket (s.getHash key))) key ∧
      ∀ p, lookup n.mem (C (s.bucket (s.getHash key))) key = some p → itemAt n'.mem p = itemAt n.mem p := by
  have hb := L.root_mem (table_mem hs) key
  rcases hE.written K L hp with ⟨t, -, hB⟩ | ⟨j, t, k, p, e, hop, ht, S, W⟩ | ⟨rfl, rfl⟩
  · refine ⟨s, table_ok.mpr ?_, rfl, ?_, ?_⟩
    · rw [hB.tables, List.getElem?_append_left (table_lt hs)]
      exact table_ok.mp hs
    · rw [hB.kept _ hb]
      apply List.find?_congr
      intro q hq
      rw [hB.item _ hb q hq]
    · intro p hl
      exact hB.item _ hb p (lookup_some hl).1
  · exact S.frame L L' ht W.before W.after hs fun h => hne (hop.trans (congrArg some h.symm))
  · exact ⟨s, hs, rfl, rfl, fun _ _ => rfl⟩

theorem Layout.insert_returns (L : Layout n C) (hs : s ∈ n.tables) (i : ℕ) (key : UInt64) (d : DataItem)
    {fuel : ℕ} (hroom : firstFree n.mem (C (s.bucket (s.getHash key))) = none →
      n.reserveTop + 15848 ≤ n.reserve.memStoreEnd.toNat)
    (hf : (C (s.bucket (s.getHash key))).length ≤ fuel) :
    ∃ r, s.localInsert n.mem n.reserve key d fuel = .ok r ∧
      n.reserveTop ≤ (n.commit i r).reserveTop ∧ (n.commit i r).reserveTop ≤ 2 ^ 64 := by
  have hne := L.chain_ne_nil (L.root_mem hs key)
  have hend : n.reserve.memStoreEnd.toNat < 2 ^ 64 := UInt64.toNat_lt _
  cases hp : firstFree n.mem (C (s.bucket (s.getHash key))) with
  | some p =>
    refine ⟨_, localInsert_reuse _ _ (L.chain hs key) hne hf hp, le_rfl, ?_⟩
    exact L.noWrap
  | none =>
    have hroom := hroom hp
    have hlit : (15848 : UInt64).toNat = 15848 := rfl
    have hsum : n.reserve.memStoreReserve + n.reserve.memStoreReserveOffset.toUInt64 ≤
        n.reserve.memStoreEnd := by
      rw [UInt64.le_iff_toNat_le, UInt64.toNat_add]
      unfold reserveTop at hroom
      rw [Nat.mod_eq_of_lt (by omega)]
      omega
    have hgrow := localInsert_grow n.reserve d (L.chain hs key) hne hf hp
    rw [if_pos hsum] at hgrow
    refine ⟨_, hgrow, ?_⟩
    simp only [commit, reserveTop, UInt64.toUInt64_toInt64, UInt64.toNat_add, hlit] at hroom ⊢
    omega

theorem Layout.full (L : Layout n C) (hs : s ∈ n.tables)
    (hfull : firstFree n.mem (C (s.bucket (s.getHash key))) = none) : s.Full n.mem key := by
  intro x hx p hp
  apply firstFree_none hfull
  exact mem_slots.mpr ⟨x, L.reach_mem (L.root_mem hs key) hx, hp⟩

theorem Layout.progress (L : Layout n C) (A : Agrees Op.stored id h n C) (hok : MapCall h op)
    (ht : op.target = some (i, key)) (hs : n.table i = .ok s)
    (hroom : op.stored.isSome → latest Op.stored h i key = none → s.Full n.mem key →
      n.reserveTop + 15848 ≤ n.reserve.memStoreEnd.toNat) :
    ∃ n' r, n.Step op n' r := by
  have hmem := table_mem hs
  cases op with
  | build _ _ => cases ht
  | load _ _ _ _ => exact hok.elim
  | insert j k d =>
    obtain ⟨rfl, rfl⟩ := Prod.mk.inj (Option.some.inj ht)
    obtain ⟨r, hr, hw⟩ := L.insert_returns hmem j k d (fun hfull => hroom rfl hok.2.2 (L.full hmem hfull)) le_rfl
    exact ⟨n.commit j r, .item r.item, ⟨_, bind_ok.mpr ⟨s, hs, bind_ok.mpr ⟨r, hr, rfl⟩⟩⟩, hw⟩
  | put j k d =>
    obtain ⟨rfl, rfl⟩ := Prod.mk.inj (Option.some.inj ht)
    have heq := localPut_eq n.reserve d (L.chain hmem k) (Nat.lt_succ_self _)
    cases hl : lookup n.mem (C (s.bucket (s.getHash k))) k with
    | some p =>
      rw [hl] at heq
      exact ⟨_, .item p, ⟨_, bind_ok.mpr ⟨s, hs, bind_ok.mpr ⟨_, heq, rfl⟩⟩⟩, le_rfl, L.noWrap⟩
    | none =>
      rw [hl] at heq
      have habsent : latest Op.stored h j k = none := by
        rw [← A.item j s k hs, hl]
        rfl
      obtain ⟨r, hr, hw⟩ :=
        L.insert_returns hmem j k d (fun hfull => hroom rfl habsent (L.full hmem hfull)) (Nat.le_succ _)
      exact ⟨n.commit j r, .item r.item,
        ⟨_, bind_ok.mpr ⟨s, hs, bind_ok.mpr ⟨r, heq.trans hr, rfl⟩⟩⟩, hw⟩
  | delete j k =>
    obtain ⟨rfl, rfl⟩ := Prod.mk.inj (Option.some.inj ht)
    obtain ⟨fuel, ⟨b, m⟩, hd⟩ := L.localDelete_ends hmem k
    exact ⟨{ n with mem := m }, .deleted b, ⟨fuel, bind_ok.mpr ⟨s, hs, bind_ok.mpr ⟨_, hd, rfl⟩⟩⟩,
      le_rfl, L.noWrap⟩

structure MapRefinement (h : List (Op × Reply)) (n : MemoryNode) : Prop where
  get : ∀ i s key, n.table i = .ok s → ∃ res, (∃ fuel, s.localGet n.mem key fuel = .ok res) ∧
    res.map (itemAt n.mem) = latest Op.stored h i key
  delete : ∀ i key n' r, n.Step (.delete i key) n' r → r = .deleted (latest Op.stored h i key).isSome
  frame : ∀ op n' r, MapCall h op → n.Step op n' r → ∀ i s key, n.table i = .ok s →
    op.target ≠ some (i, key) → ∃ s' res fuel, n'.table i = .ok s' ∧
      s.localGet n.mem key fuel = .ok res ∧ s'.localGet n'.mem key fuel = .ok res ∧
      ∀ p, res = some p → itemAt n'.mem p = itemAt n.mem p
  once : ∀ s ∈ n.tables, ∀ p q, s.Slot n.mem p → s.Slot n.mem q → (itemAt n.mem p).valid ≠ 0 →
    (itemAt n.mem q).valid ≠ 0 → (itemAt n.mem p).key = (itemAt n.mem q).key → p = q
  -- a call can get stuck only where an absent key needs a new node and there is no room for one
  progress : ∀ op i s key, MapCall h op → op.target = some (i, key) → n.table i = .ok s →
    (op.stored.isSome → latest Op.stored h i key = none → s.Full n.mem key →
      n.reserveTop + 15848 ≤ n.reserve.memStoreEnd.toNat) → ∃ n' r, n.Step op n' r

theorem Layout.slot_mem (L : Layout n C) (hs : s ∈ n.tables) (hp : s.Slot n.mem p) :
    ∃ b < s.bucketNum, s.bucket b ∈ n.roots ∧ p ∈ slots (C (s.bucket b)) := by
  obtain ⟨b, hb, x, hx, hpx⟩ := hp
  have hr : s.bucket b ∈ n.roots := ⟨s, hs, b, hb, rfl⟩
  exact ⟨b, hb, hr, mem_slots.mpr ⟨x, L.reach_mem hr hx, hpx⟩⟩

theorem Keyed.slot_once (K : Keyed n C) (L : Layout n C) (hs : s ∈ n.tables) {q : UInt64}
    (hp : s.Slot n.mem p) (hq : s.Slot n.mem q) (hvp : (itemAt n.mem p).valid ≠ 0)
    (hvq : (itemAt n.mem q).valid ≠ 0) (hkey : (itemAt n.mem p).key = (itemAt n.mem q).key) : p = q := by
  obtain ⟨b, hb, hr, hpb⟩ := L.slot_mem hs hp
  obtain ⟨c, hc, -, hqc⟩ := L.slot_mem hs hq
  have h1 : s.getHash (itemAt n.mem p).key = b := K.home s hs b hb p hpb hvp
  have h2 : s.getHash (itemAt n.mem q).key = c := K.home s hs c hc q hqc hvq
  rw [← hkey, h1] at h2
  rw [← h2] at hqc
  exact K.once _ hr p hpb q hqc hvp hvq hkey

theorem run_mapRefinement {n₀ : MemoryNode} (hf : Fresh n₀) (hrun : Run MapCall n₀ h n) :
    MapRefinement h n := by
  obtain ⟨C, L, K, A⟩ := hrun.agrees hf
  refine ⟨?_, ?_, ?_, ?_, ?_⟩
  · intro i s key hs
    exact ⟨_, L.localGet_eq (table_mem hs) key, A.item i s key hs⟩
  · intro i key n' r hstep
    obtain ⟨C', -, hE⟩ := L.step hstep
    cases hE with
    | deleteOld hs hl =>
      rw [← A.item _ _ _ hs, hl]
      rfl
    | deleteNone hs hl =>
      rw [← A.item _ _ _ hs, hl]
      rfl
  · intro op n' r hok hstep i s key hs hne
    obtain ⟨C', L', hE⟩ := L.step hstep
    obtain ⟨s', hs', he, hl, hitem⟩ := hE.frame K L L' (MapCall.proper A hok) hs hne
    obtain ⟨fuel, hget, hget'⟩ := L.localGet_kept L' (table_mem hs) (table_mem hs') he hl
    exact ⟨s', _, fuel, hs', hget, hget', hitem⟩
  · intro s hs p q hp hq hvp hvq hkey
    exact K.slot_once L hs hp hq hvp hvq hkey
  · intro op i s key hok ht hs hroom
    exact L.progress A hok ht hs hroom

theorem run_mapRefinement_reused_slot :
    ∃ h n, Run MapCall smallNode h n ∧ (latest Op.stored h 0 5).isNone ∧
      (latest Op.stored h 0 6).isSome ∧ MapRefinement h n := by
  obtain ⟨h, n, hrun, hl⟩ := replay_any MapCall 3 smallNode
    [.build 1 2, .put 0 5 (smallItem 1 5), .delete 0 5, .insert 0 6 (smallItem 1 6)]
    (fun h _ => (latest Op.stored h 0 5).isNone && (latest Op.stored h 0 6).isSome) (by decide +kernel)
  obtain ⟨h5, h6⟩ := Bool.and_eq_true_iff.mp hl
  exact ⟨h, n, hrun, h5, h6, run_mapRefinement smallNode_fresh hrun⟩

end MemoryNode

end MetadataService.MemStore
