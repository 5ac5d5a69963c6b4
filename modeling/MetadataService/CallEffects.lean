import MetadataService.TableLayout

namespace MetadataService.MemStore

open ByteMemory LinkedChain Loops

namespace MemoryNode

variable {n n' : MemoryNode} {C : UInt64 → List UInt64} {a l p x y : UInt64} {d : DataItem}

theorem Placed.mono (h : n.Placed x) (hal : n'.alloc = n.alloc)
    (hr : n'.reserve.memStoreReserve = n.reserve.memStoreReserve)
    (ht : n.reserveTop ≤ n'.reserveTop) : n'.Placed x := by
  have htop : n'.allocTop = n.allocTop := by rw [allocTop, allocTop, hal]
  have hst : n'.reserveStart = n.reserveStart := by rw [reserveStart, reserveStart, hr]
  unfold Placed at *
  omega

theorem Layout.write_slot (L : Layout n C) (n' : MemoryNode) (ha : a ∈ n.roots) (hp : p ∈ slots (C a))
    (hsh : SameShapes n n') (hal : n'.alloc = n.alloc) (hr : n'.reserve = n.reserve)
    (hm : SameOutside p.toNat 714 n.mem n'.mem) (hd : itemAt n'.mem p = d) :
    Layout n' C ∧ Stored n n' C C a p d := by
  obtain ⟨x, hx, -, hpx⟩ := Layout.slot_node ha hp
  have S := L.separated
  have htop : n'.reserveTop = n.reserveTop := by rw [reserveTop, reserveTop, hr]
  constructor
  · apply L.of_same hsh hal (by rw [hr]) (htop ▸ L.noWrap)
    · apply L.forest.congr
      intro b hb y hy
      exact S.next_of_slot_write hx hpx hm ⟨b, hb, hy⟩
    · intro y hy
      exact (L.placed y hy).mono hal (by rw [hr]) htop.ge
    · exact L.apart
  · refine ⟨hsh, hp, hd, List.prefix_rfl, fun _ _ _ => rfl, ?_, ?_⟩
    · intro b hb q hq hne
      obtain ⟨y, hy, -, hqy⟩ := Layout.slot_node hb hq
      exact S.item_of_slot_write hx hpx hm hy hqy hne
    · intro q hq hnq
      exact absurd hq hnq

theorem nodes_update (h : y ∈ n.nodes (Function.update C a (C a ++ [x]))) (ha : a ∈ n.roots) :
    y ∈ n.nodes C ∨ y = x := by
  obtain ⟨b, hb, hy⟩ := h
  by_cases hba : b = a
  · rw [hba, Function.update_self, List.mem_append, List.mem_singleton] at hy
    rcases hy with hy | hy
    · exact Or.inl ⟨a, ha, hy⟩
    · exact Or.inr hy
  · rw [Function.update_of_ne hba] at hy
    exact Or.inl ⟨b, hb, hy⟩

theorem Layout.reserve_pos (L : Layout n C) (ha : a ∈ n.roots) : 0 < n.reserveTop := by
  obtain ⟨s, hs, b, hb, rfl⟩ := ha
  have h1 := (L.area s hs).apart
  have h2 : 0 < s.bucketNum.toNat := (L.area s hs).pos
  have h3 : n.reserveStart ≤ n.reserveTop := Nat.le_add_right _ _
  omega

theorem Layout.top_apart (L : Layout n C) (hx : x.toNat = n.reserveTop) (hy : y ∈ n.nodes C) :
    Apart x y := by
  have hs : n.reserveStart ≤ n.reserveTop := Nat.le_add_right _ _
  rcases L.placed y hy with h | h
  · exact Or.inr (by omega)
  · exact Or.inr (by omega)

theorem Layout.link_node (L : Layout n C) (ha : a ∈ n.roots) {pre : List UInt64}
    (hC : C a = pre ++ [l]) (hsh : SameShapes n n') (hal : n'.alloc = n.alloc)
    (hr : n'.reserve.memStoreReserve = n.reserve.memStoreReserve) (hx : x.toNat = n.reserveTop)
    (ht : n'.reserveTop = n.reserveTop + 15848) (hw : n'.reserveTop ≤ 2 ^ 64)
    (hm : n'.mem = linkNode n.mem l x d) :
    Layout n' (Function.update C a (C a ++ [x])) ∧
      Stored n n' C (Function.update C a (C a ++ [x])) a (slotPtr x 0) { d with valid := 1 } := by
  have hapart := fun y hy => L.top_apart (y := y) hx hy
  have hl : l ∈ n.nodes C := ⟨a, ha, by rw [hC]; exact List.mem_append_right _ List.mem_cons_self⟩
  have hx0 : x ≠ 0 := by
    rintro rfl
    have := L.reserve_pos ha
    rw [UInt64.toNat_zero] at hx
    omega
  have hfresh : ∀ b ∈ n.roots, x ∉ C b := by
    intro b hb hxb
    have := hapart x ⟨b, hb, hxb⟩
    unfold Apart at this
    omega
  have hnew : x.toNat + 15848 ≤ 2 ^ 64 := by omega
  constructor
  · apply L.of_same hsh hal hr hw
    · rw [hm]
      apply L.forest.link ha hC hfresh hx0
      · intro b hb y hy hyl
        have hly := (L.apart l hl y ⟨b, hb, hy⟩).resolve_left (Ne.symm hyl)
        exact linkNode_next_old (hapart y ⟨b, hb, hy⟩) hly
      · exact linkNode_next_last
      · exact linkNode_next_new (hapart l hl)
    · intro y hy
      rcases nodes_update hy ha with hy | rfl
      · exact (L.placed y hy).mono hal hr (by omega)
      · have hst : n'.reserveStart = n.reserveStart := by rw [reserveStart, reserveStart, hr]
        have hle : n.reserveStart ≤ n.reserveTop := Nat.le_add_right _ _
        exact Or.inr ⟨by omega, by omega⟩
    · intro y hy z hz
      have S := L.separated.insert hnew hapart
      apply S.apart
      · exact nodes_update hy ha
      · exact nodes_update hz ha
  · refine ⟨hsh, ?_, ?_, ?_, ?_, ?_, ?_⟩
    · rw [Function.update_self]
      exact mem_slots.mpr ⟨x, by simp, mem_slotsOf.mpr ⟨0, by omega, rfl⟩⟩
    · rw [hm]
      exact linkNode_item_first (hapart l hl)
    · rw [Function.update_self]
      exact List.prefix_append _ _
    · intro b hb hba
      exact Function.update_of_ne hba _ _
    · intro b hb q hq _
      obtain ⟨y, hy, -, hqy⟩ := Layout.slot_node hb hq
      rw [hm]
      apply linkNode_item_old (L.separated.mono _) (hapart y hy) hqy
      rintro z (rfl | rfl)
      · exact hl
      · exact hy
    · intro q hq hnq hne
      rw [Function.update_self] at hq
      obtain ⟨y, hy, hqy⟩ := mem_slots.mp hq
      rcases List.mem_append.mp hy with hy | hy
      · exact absurd (mem_slots.mpr ⟨y, hy, hqy⟩) hnq
      · rw [List.mem_singleton.mp hy] at hqy
        rw [hm]
        exact linkNode_item_rest (hapart l hl) hnew hqy hne

section Insert

variable {s : HashStore} {r : Inserted} {i fuel : ℕ} {key : UInt64}

structure Appended (n : MemoryNode) (C : UInt64 → List UInt64) (a : UInt64) (s : HashStore)
    (d : DataItem) (r : Inserted) (l x : UInt64) : Prop where
  full : firstFree n.mem (C a) = none
  last : ∃ pre, C a = pre ++ [l]
  node : x.toNat = n.reserveTop
  top : r.param.memStoreReserve.toNat + r.param.memStoreReserveOffset.toUInt64.toNat =
    n.reserveTop + 15848
  reserve : r.param.memStoreReserve = n.reserve.memStoreReserve
  shape : r.store.shape = s.shape
  item : r.item = slotPtr x 0
  mem : r.mem = linkNode n.mem l x d

theorem Layout.insert_cases (L : Layout n C) (hs : s ∈ n.tables)
    (h : s.localInsert n.mem n.reserve key d fuel = .ok r)
    (hle : n.reserveTop ≤ (n.commit i r).reserveTop) (hw : (n.commit i r).reserveTop ≤ 2 ^ 64) :
    (∃ p, firstFree n.mem (C (s.bucket (s.getHash key))) = some p ∧
      r = ⟨p, s, n.reserve, setValid (storeItem n.mem p.toNat d) p.toNat 1⟩) ∨
    ∃ l x, Appended n C (s.bucket (s.getHash key)) s d r l x ∧
      r.store = { s with nodeNum := s.nodeNum + 1 } := by
  have hne := L.chain_ne_nil (L.root_mem hs key)
  have hbig := localInsert_stable h (Nat.le_max_left fuel (C (s.bucket (s.getHash key))).length)
  cases hfree : firstFree n.mem (C (s.bucket (s.getHash key))) with
  | some p =>
    rw [localInsert_reuse _ _ (L.chain hs key) hne (Nat.le_max_right _ _) hfree] at hbig
    exact Or.inl ⟨p, rfl, (Except.ok.inj hbig).symm⟩
  | none =>
    rw [localInsert_grow _ _ (L.chain hs key) hne (Nat.le_max_right _ _) hfree] at hbig
    split_ifs at hbig
    obtain rfl := (Except.ok.inj hbig).symm
    have hoff : n.reserve.memStoreReserveOffset.toUInt64.toNat < 2 ^ 64 := UInt64.toNat_lt _
    have h1 : (15848 : UInt64).toNat = 15848 := rfl
    simp only [commit, reserveTop, UInt64.toUInt64_toInt64, UInt64.toNat_add, h1] at hle hw
    refine Or.inr ⟨_, _,
      ⟨hfree, ⟨_, (List.dropLast_append_getLast hne).symm⟩, ?_, ?_, rfl, rfl, rfl, rfl⟩, rfl⟩
    · rw [UInt64.toNat_add, reserveTop]
      omega
    · simp only [UInt64.toUInt64_toInt64, UInt64.toNat_add, h1, reserveTop]
      omega

theorem firstFree_some {ns : List UInt64} {m : Memory} (h : firstFree m ns = some p) :
    p ∈ slots ns ∧ (itemAt m p).valid = 0 := by
  refine ⟨List.mem_of_find?_eq_some h, ?_⟩
  have hp := List.find?_some h
  exact beq_iff_eq.mp hp

theorem lookup_some {ns : List UInt64} {m : Memory} (h : lookup m ns key = some p) :
    p ∈ slots ns ∧ (itemAt m p).valid ≠ 0 ∧ (itemAt m p).key = key := by
  refine ⟨List.mem_of_find?_eq_some h, ?_⟩
  have hp := List.find?_some h
  simpa only [holds, Bool.and_eq_true, bne_iff_ne, beq_iff_eq] using hp

theorem store_valid_item (m : Memory) (p : UInt64) (d : DataItem) (v : UInt8) :
    itemAt (setValid (storeItem m p.toNat d) p.toNat v) p = { d with valid := v } := by
  rw [itemAt, loadItem_setValid, loadItem_storeItem]

theorem Layout.commit_slot (L : Layout n C) (hs : n.table i = .ok s) (ha : a ∈ n.roots)
    (hp : p ∈ slots (C a)) (hst : r.store = s) (hr : r.param = n.reserve)
    (hm : SameOutside p.toNat 714 n.mem r.mem) (hd : itemAt r.mem p = d) :
    Layout (n.commit i r) C ∧ Stored n (n.commit i r) C C a p d := by
  have hsh : SameShapes n (n.commit i r) := sameShapes_commit hs (by rw [hst])
  exact L.write_slot _ ha hp hsh rfl hr hm hd

inductive Grown (n : MemoryNode) (C C' : UInt64 → List UInt64) (a : UInt64) (s : HashStore)
    (r : Inserted) : Prop
  | kept (hC : C' = C) (hst : r.store = s) (hr : r.param = n.reserve)
  | appended {x : UInt64} (hfull : firstFree n.mem (C a) = none)
      (hC : C' = Function.update C a (C a ++ [x])) (hst : r.store = { s with nodeNum := s.nodeNum + 1 })
      (htop : r.param.memStoreReserve.toNat + r.param.memStoreReserveOffset.toUInt64.toNat =
        n.reserveTop + 15848)

theorem Layout.insert_effect (L : Layout n C) (hs : n.table i = .ok s)
    (h : s.localInsert n.mem n.reserve key d fuel = .ok r)
    (hle : n.reserveTop ≤ (n.commit i r).reserveTop) (hw : (n.commit i r).reserveTop ≤ 2 ^ 64) :
    ∃ C', Layout (n.commit i r) C' ∧
      Stored n (n.commit i r) C C' (s.bucket (s.getHash key)) r.item { d with valid := 1 } ∧
      (r.item ∈ slots (C (s.bucket (s.getHash key))) → (itemAt n.mem r.item).valid = 0) ∧
      Grown n C C' (s.bucket (s.getHash key)) s r := by
  have hmem := table_mem hs
  have ha := L.root_mem hmem key
  rcases L.insert_cases hmem h hle hw with ⟨p, hp, rfl⟩ | ⟨l, x, A, hst⟩
  · obtain ⟨hps, hfree⟩ := firstFree_some hp
    have hm := (storeItem_outside n.mem p.toNat d).trans (setValid_outside _ p.toNat 1)
    have hw := L.commit_slot (r := ⟨p, s, n.reserve, _⟩) hs ha hps rfl rfl hm
      (store_valid_item n.mem p d 1)
    exact ⟨C, hw.1, hw.2, fun _ => hfree, .kept rfl rfl rfl⟩
  · obtain ⟨pre, hC⟩ := A.last
    have hl := L.link_node ha hC (sameShapes_commit hs A.shape) rfl A.reserve A.node A.top hw A.mem
    rw [← A.item] at hl
    refine ⟨_, hl.1, hl.2, ?_, .appended A.full rfl hst A.top⟩
    intro hin
    obtain ⟨y, hy, -, hpy⟩ := slot_node ha hin
    have hap := L.top_apart A.node hy
    have hin := L.separated.slot_inside hy hpy
    rw [A.item, slotPtr_zero] at hin
    unfold Apart at hap
    omega

theorem Layout.put_effect (L : Layout n C) (hs : n.table i = .ok s)
    (h : s.localPut n.mem n.reserve key d fuel = .ok r)
    (hle : n.reserveTop ≤ (n.commit i r).reserveTop) (hw : (n.commit i r).reserveTop ≤ 2 ^ 64) :
    ∃ C' e, Layout (n.commit i r) C' ∧
      Stored n (n.commit i r) C C' (s.bucket (s.getHash key)) r.item e ∧
      (lookup n.mem (C (s.bucket (s.getHash key))) key = some r.item ∧ e = d ∧
          C' = C ∧ r.store = s ∧ r.param = n.reserve ∨
        lookup n.mem (C (s.bucket (s.getHash key))) key = none ∧ e = { d with valid := 1 } ∧
        (r.item ∈ slots (C (s.bucket (s.getHash key))) → (itemAt n.mem r.item).valid = 0) ∧
        Grown n C C' (s.bucket (s.getHash key)) s r) := by
  have hmem := table_mem hs
  have ha := L.root_mem hmem key
  have hbig := localPut_stable h (Nat.le_max_left fuel ((C (s.bucket (s.getHash key))).length + 1))
  rw [localPut_eq _ _ (L.chain hmem key) (Nat.le_max_right _ _)] at hbig
  cases hl : lookup n.mem (C (s.bucket (s.getHash key))) key with
  | none =>
    rw [hl] at hbig
    obtain ⟨C', hL, hS, hfree, hG⟩ := L.insert_effect hs hbig hle hw
    exact ⟨C', _, hL, hS, Or.inr ⟨rfl, rfl, hfree, hG⟩⟩
  | some p =>
    rw [hl] at hbig
    obtain rfl := (Except.ok.inj hbig).symm
    have hp := (lookup_some hl).1
    have hd : itemAt (storeItem n.mem p.toNat d) p = d := loadItem_storeItem _ _ _
    have hw := L.commit_slot (r := ⟨p, s, n.reserve, _⟩) hs ha hp rfl rfl
      (storeItem_outside n.mem p.toNat d) hd
    exact ⟨C, d, hw.1, hw.2, Or.inl ⟨rfl, rfl, rfl, rfl, rfl⟩⟩

theorem Layout.delete_effect (L : Layout n C) (hs : n.table i = .ok s) {b : Bool} {m : Memory}
    (h : s.localDelete n.mem key fuel = .ok (b, m)) :
    (∃ p, lookup n.mem (C (s.bucket (s.getHash key))) key = some p ∧ b = true ∧
      Layout { n with mem := m } C ∧
      Stored n { n with mem := m } C C (s.bucket (s.getHash key)) p
        { itemAt n.mem p with valid := 0 }) ∨
    lookup n.mem (C (s.bucket (s.getHash key))) key = none ∧ b = false ∧ m = n.mem := by
  have hmem := table_mem hs
  have ha := L.root_mem hmem key
  have hbig := localDelete_stable h (Nat.le_max_left fuel (C (s.bucket (s.getHash key))).length)
  rw [localDelete_eq (L.chain hmem key) (L.chain_ne_nil ha) (Nat.le_max_right _ _)] at hbig
  cases hl : lookup n.mem (C (s.bucket (s.getHash key))) key with
  | none =>
    rw [hl] at hbig
    obtain ⟨hb, hm⟩ := Prod.mk.inj (Except.ok.inj hbig)
    exact Or.inr ⟨rfl, hb.symm, hm.symm⟩
  | some p =>
    rw [hl] at hbig
    obtain ⟨hb, rfl⟩ := Prod.mk.inj (Except.ok.inj hbig)
    have hd : itemAt (setValid n.mem p.toNat 0) p = { itemAt n.mem p with valid := 0 } :=
      loadItem_setValid _ _ _
    have hw := L.write_slot { n with mem := setValid n.mem p.toNat 0 } ha (lookup_some hl).1
      rfl rfl rfl (setValid_outside _ _ _) hd
    exact Or.inl ⟨p, rfl, hb.symm, hw.1, hw.2⟩

theorem Stored.rewrite {n₁ n₂ : MemoryNode} {C' : UInt64 → List UInt64} {e : DataItem}
    (h : Stored n n₁ C C' a p d) (h' : Stored n₁ n₂ C' C' a p e) (ha : a ∈ n.roots) :
    Stored n n₂ C C' a p e := by
  have hroots := h.shapes.roots_eq
  refine ⟨Eq.trans h'.shapes h.shapes, h'.slot, h'.item, h.chain, h.other, ?_, ?_⟩
  · intro b hb q hq hne
    have hq' : q ∈ slots (C' b) := by
      by_cases hba : b = a
      · obtain ⟨x, hx, hqx⟩ := mem_slots.mp hq
        exact mem_slots.mpr ⟨x, hba ▸ h.chain.subset (hba ▸ hx), hqx⟩
      · rw [h.other b hb hba]
        exact hq
    rw [h'.kept b (hroots ▸ hb) q hq' hne, h.kept b hb q hq hne]
  · intro q hq hnq hne
    rw [h'.kept a (hroots ▸ ha) q hq hne]
    exact h.fresh q hq hnq hne

theorem Layout.commit_again {C' : UInt64 → List UInt64} {r₀ : Inserted} {e : DataItem}
    (L : Layout (n.commit i r₀) C') (h : Stored n (n.commit i r₀) C C' a r₀.item d) (ha : a ∈ n.roots)
    (hst : r.store = r₀.store) (hr : r.param = r₀.param)
    (hm : SameOutside r₀.item.toNat 714 r₀.mem r.mem) (he : itemAt r.mem r₀.item = e) :
    Layout (n.commit i r) C' ∧ Stored n (n.commit i r) C C' a r₀.item e := by
  have ha' : a ∈ (n.commit i r₀).roots := h.shapes.roots_eq ▸ ha
  have hsh : SameShapes (n.commit i r₀) (n.commit i r) := by
    unfold SameShapes commit
    rw [hst]
  have hw := L.write_slot (n.commit i r) ha' h.slot hsh rfl hr hm he
  exact ⟨hw.1, h.rewrite hw.2 ha⟩

theorem Layout.insert_store (L : Layout n C) (hs : s ∈ n.tables)
    (h : s.localInsert n.mem n.reserve key d fuel = .ok r)
    (hle : n.reserveTop ≤ (n.commit i r).reserveTop) (hw : (n.commit i r).reserveTop ≤ 2 ^ 64) :
    r.store.shape = s.shape := by
  rcases L.insert_cases hs h hle hw with ⟨p, -, rfl⟩ | ⟨l, x, A, -⟩
  · rfl
  · exact A.shape

theorem loadRecord_ok {val : List UInt8} {tableId : UInt64} {stack : Vector UInt8 664} {m : Memory}
    {param : MemStoreReserveParam} (h : s.loadRecord m param key val tableId stack fuel = .ok r) :
    ∃ r₀, s.localInsert m param key (ofLoad tableId val key stack) fuel = .ok r₀ ∧
      r.item = r₀.item ∧ r.store = r₀.store ∧ r.param = r₀.param ∧
      r.mem = setRemoteOffset r₀.mem r₀.item.toNat (r₀.store.getItemRemoteOffset r₀.item) := by
  obtain ⟨-, hk⟩ := require_bind.mp h
  obtain ⟨r₀, hr₀, hr⟩ := bind_ok.mp hk
  obtain rfl := Except.ok.inj hr
  exact ⟨r₀, hr₀, rfl, rfl, rfl, rfl⟩

theorem Grown.congr {C' : UInt64 → List UInt64} {r₀ : Inserted} (hG : Grown n C C' a s r₀)
    (hst : r.store = r₀.store) (hr : r.param = r₀.param) : Grown n C C' a s r := by
  cases hG with
  | kept hC hst₀ hr₀ => exact .kept hC (hst.trans hst₀) (hr.trans hr₀)
  | appended hfull hC hst₀ htop => exact .appended hfull hC (hst.trans hst₀) (hr ▸ htop)

theorem Layout.load_effect (L : Layout n C) (hs : n.table i = .ok s) {val : List UInt8}
    {tableId : UInt64} {stack : Vector UInt8 664}
    (h : s.loadRecord n.mem n.reserve key val tableId stack fuel = .ok r)
    (hle : n.reserveTop ≤ (n.commit i r).reserveTop) (hw : (n.commit i r).reserveTop ≤ 2 ^ 64) :
    ∃ C', Layout (n.commit i r) C' ∧
      Stored n (n.commit i r) C C' (s.bucket (s.getHash key)) r.item
        (s.loadedItem r.item tableId val key stack) ∧
      (r.item ∈ slots (C (s.bucket (s.getHash key))) → (itemAt n.mem r.item).valid = 0) ∧
      Grown n C C' (s.bucket (s.getHash key)) s r := by
  obtain ⟨r₀, hr₀, hitem, hst, hr, hmem⟩ := loadRecord_ok h
  have htop : (n.commit i r).reserveTop = (n.commit i r₀).reserveTop := by
    rw [commit, commit, reserveTop, reserveTop, hr]
  rw [htop] at hle hw
  obtain ⟨C', hL, hS, hfree, hG⟩ := L.insert_effect hs hr₀ hle hw
  have hreg : r₀.store.regionStartPtr = s.regionStartPtr :=
    HashStore.regionStartPtr_shape (L.insert_store (table_mem hs) hr₀ hle hw)
  have he : itemAt r.mem r₀.item = s.loadedItem r₀.item tableId val key stack := by
    have hold : loadItem r₀.mem r₀.item.toNat = _ := hS.item
    rw [hmem, itemAt, loadItem_setRemoteOffset, hold, HashStore.getItemRemoteOffset, hreg]
    rfl
  have hout : SameOutside r₀.item.toNat 714 r₀.mem r.mem := by
    rw [hmem]
    exact setRemoteOffset_outside _ _ _
  have hagain := hL.commit_again hS (L.root_mem (table_mem hs) key) hst hr hout he
  rw [hitem]
  exact ⟨C', hagain.1, hagain.2, hfree, hG.congr hst hr⟩

end Insert

end MemoryNode

end MetadataService.MemStore
