import MetadataService.NodeLayout

namespace MetadataService.MemStore

open ByteMemory LinkedChain Loops

def HashStore.shape (s : HashStore) : HashStore := { s with nodeNum := 0 }

theorem HashStore.bucketNum_shape {s t : HashStore} (h : s.shape = t.shape) :
    s.bucketNum = t.bucketNum := by
  have hb := congrArg HashStore.bucketNum h
  exact hb

theorem HashStore.dataPtr_shape {s t : HashStore} (h : s.shape = t.shape) :
    s.dataPtr = t.dataPtr := by
  have hd := congrArg HashStore.dataPtr h
  exact hd

theorem HashStore.regionStartPtr_shape {s t : HashStore} (h : s.shape = t.shape) :
    s.regionStartPtr = t.regionStartPtr := by
  have hr := congrArg HashStore.regionStartPtr h
  exact hr

theorem HashStore.bucket_shape {s t : HashStore} (h : s.shape = t.shape) (b : UInt64) :
    s.bucket b = t.bucket b := by
  rw [bucket, bucket, dataPtr_shape h]

theorem HashStore.getHash_shape {s t : HashStore} (h : s.shape = t.shape) (key : UInt64) :
    s.getHash key = t.getHash key := by
  rw [getHash, getHash, bucketNum_shape h]

theorem HashStore.getHash_lt {s : HashStore} (h : 0 < s.bucketNum) (key : UInt64) :
    s.getHash key < s.bucketNum :=
  UInt64.mod_lt _ h

theorem HashStore.bucket_toNat_of_lt {s : HashStore} {b : UInt64}
    (h : b.toNat * 15848 + s.dataPtr.toNat < 2 ^ 64) :
    (s.bucket b).toNat = b.toNat * 15848 + s.dataPtr.toNat := by
  have hmul := Nat.lt_of_le_of_lt (Nat.le_add_right _ _) h
  have hlit : (15848 : UInt64).toNat = 15848 := rfl
  rw [bucket, UInt64.toNat_add, UInt64.toNat_mul, hlit, Nat.mod_eq_of_lt hmul, Nat.mod_eq_of_lt h]

theorem HashStore.bucket_toNat {s : HashStore}
    (h : s.dataPtr.toNat + s.bucketNum.toNat * 15848 ≤ 2 ^ 64) {b : UInt64} (hb : b < s.bucketNum) :
    (s.bucket b).toNat = b.toNat * 15848 + s.dataPtr.toNat := by
  have hlt : b.toNat < s.bucketNum.toNat := hb
  apply bucket_toNat_of_lt
  omega

def HashStore.Before (s t : HashStore) : Prop :=
  s.dataPtr.toNat + s.bucketNum.toNat * 15848 ≤ t.dataPtr.toNat

namespace MemoryNode

def SameShapes (n n' : MemoryNode) : Prop :=
  n'.tables.map HashStore.shape = n.tables.map HashStore.shape

def nodes (n : MemoryNode) (C : UInt64 → List UInt64) : Set UInt64 := {x | ∃ a ∈ n.roots, x ∈ C a}

def Placed (n : MemoryNode) (x : UInt64) : Prop :=
  x.toNat + 15848 ≤ n.allocTop ∧ x.toNat + 15848 ≤ n.reserveStart ∨
    n.reserveStart ≤ x.toNat ∧ x.toNat + 15848 ≤ n.reserveTop

structure Area (n : MemoryNode) (s : HashStore) : Prop where
  pos : 0 < s.bucketNum
  ne_null : s.dataPtr ≠ 0
  below : s.dataPtr.toNat + s.bucketNum.toNat * 15848 ≤ n.allocTop
  apart : s.dataPtr.toNat + s.bucketNum.toNat * 15848 ≤ n.reserveStart
  region : s.regionStartPtr = n.alloc.memRegionStart
  base : s.regionStartPtr + s.baseOff.toUInt64 = s.dataPtr

structure Layout (n : MemoryNode) (C : UInt64 → List UInt64) : Prop where
  forest : Forest (nextOf n.mem) 0 n.roots C
  placed : ∀ x ∈ n.nodes C, n.Placed x
  apart : ∀ x ∈ n.nodes C, ∀ y ∈ n.nodes C, x = y ∨ Apart x y
  area : ∀ s ∈ n.tables, n.Area s
  ordered : n.tables.Pairwise HashStore.Before
  reserve : n.alloc.memStoreReserve = n.reserve.memStoreReserve
  noWrap : n.reserveTop ≤ 2 ^ 64

section Shapes

variable {n n' : MemoryNode} {s : HashStore}

theorem SameShapes.symm (h : SameShapes n n') : SameShapes n' n := Eq.symm h

theorem SameShapes.mem (h : SameShapes n n') (hs : s ∈ n'.tables) :
    ∃ t ∈ n.tables, t.shape = s.shape := by
  have hm := List.mem_map_of_mem (f := HashStore.shape) hs
  rw [h] at hm
  exact List.mem_map.mp hm

theorem SameShapes.roots_subset (h : SameShapes n n') : n'.roots ⊆ n.roots := by
  rintro a ⟨s, hs, b, hb, rfl⟩
  obtain ⟨t, ht, he⟩ := h.mem hs
  have hn := HashStore.bucketNum_shape he
  exact ⟨t, ht, b, hn ▸ hb, (HashStore.bucket_shape he b).symm⟩

theorem SameShapes.roots_eq (h : SameShapes n n') : n'.roots = n.roots :=
  Set.Subset.antisymm h.roots_subset h.symm.roots_subset

theorem SameShapes.ordered (h : SameShapes n n') (hp : n.tables.Pairwise HashStore.Before) :
    n'.tables.Pairwise HashStore.Before := by
  have hm : (n.tables.map HashStore.shape).Pairwise HashStore.Before := List.pairwise_map.mpr hp
  rw [← h, List.pairwise_map] at hm
  exact hm

theorem SameShapes.table {i : ℕ} (h : SameShapes n n') (hs : n.table i = .ok s) :
    ∃ t, n'.table i = .ok t ∧ t.shape = s.shape := by
  have hi := congrArg (fun l => l[i]?) h
  simp only [List.getElem?_map, table_ok.mp hs, Option.map_some, Option.map_eq_some_iff] at hi
  obtain ⟨t, ht, he⟩ := hi
  exact ⟨t, table_ok.mpr ht, he⟩

theorem sameShapes_commit {i : ℕ} {r : Inserted} (h : n.table i = .ok s)
    (he : r.store.shape = s.shape) : SameShapes n (n.commit i r) := by
  have hs := table_ok.mp h
  unfold SameShapes commit
  rw [List.map_set, he]
  apply List.ext_getElem?
  intro j
  rw [List.getElem?_set, List.getElem?_map]
  split_ifs with hij hlt
  · rw [← hij, hs, Option.map_some]
  · obtain ⟨hi, -⟩ := List.getElem?_eq_some_iff.mp hs
    rw [List.length_map] at hlt
    exact absurd hi hlt
  · rfl

theorem Area.of_same (ha : n.Area s) {t : HashStore} (he : t.shape = s.shape)
    (hal : n'.alloc = n.alloc) (hr : n'.reserve.memStoreReserve = n.reserve.memStoreReserve) :
    n'.Area t := by
  have hb := HashStore.bucketNum_shape he
  have hd := HashStore.dataPtr_shape he
  have htop : n'.allocTop = n.allocTop := by rw [allocTop, allocTop, hal]
  have hst : n'.reserveStart = n.reserveStart := by rw [reserveStart, reserveStart, hr]
  have hr := HashStore.regionStartPtr_shape he
  have ho := congrArg HashStore.baseOff he
  refine ⟨hb ▸ ha.pos, hd ▸ ha.ne_null, ?_, ?_, ?_, ?_⟩
  · rw [hb, hd, htop]
    exact ha.below
  · rw [hb, hd, hst]
    exact ha.apart
  · rw [hr, hal]
    exact ha.region
  · rw [hr, hd]
    change t.baseOff = s.baseOff at ho
    rw [ho]
    exact ha.base

end Shapes

namespace Layout

variable {n n' : MemoryNode} {C C' : UInt64 → List UInt64} {s : HashStore} {x p : UInt64}

theorem space (L : Layout n C) (hx : x ∈ n.nodes C) : x.toNat + 15848 ≤ 2 ^ 64 := by
  have hw := L.noWrap
  have hs : n.reserveStart ≤ n.reserveTop := Nat.le_add_right _ _
  rcases L.placed x hx with h | h <;> omega

theorem separated (L : Layout n C) : Separated (n.nodes C) := ⟨fun _ => L.space, L.apart⟩

theorem root_mem (L : Layout n C) (hs : s ∈ n.tables) (key : UInt64) :
    s.bucket (s.getHash key) ∈ n.roots :=
  ⟨s, hs, s.getHash key, HashStore.getHash_lt (L.area s hs).pos key, rfl⟩

theorem bucket_toNat (L : Layout n C) (hs : s ∈ n.tables) {b : UInt64} (hb : b < s.bucketNum) :
    (s.bucket b).toNat = b.toNat * 15848 + s.dataPtr.toNat := by
  have ha := (L.area s hs).apart
  have hr : n.reserveStart < 2 ^ 64 := n.reserve.memStoreReserve.toNat_lt
  exact HashStore.bucket_toNat (by omega) hb

theorem root_ne_null (L : Layout n C) {a : UInt64} (ha : a ∈ n.roots) : a ≠ 0 := by
  obtain ⟨s, hs, b, hb, rfl⟩ := ha
  have hd := (L.area s hs).ne_null
  have hn := L.bucket_toNat hs hb
  intro h0
  rw [h0, UInt64.toNat_zero] at hn
  apply hd
  apply UInt64.toNat_inj.mp
  rw [UInt64.toNat_zero]
  omega

theorem bucket_index (L : Layout n C) {i j : ℕ} {t : HashStore} {b c : UInt64} (hs : n.table i = .ok s)
    (ht : n.table j = .ok t) (hb : b < s.bucketNum) (hc : c < t.bucketNum)
    (h : s.bucket b = t.bucket c) : i = j ∧ b = c := by
  have h1 := L.bucket_toNat (table_mem hs) hb
  have h2 := L.bucket_toNat (table_mem ht) hc
  have hbn : b.toNat < s.bucketNum.toNat := hb
  have hcn : c.toNat < t.bucketNum.toNat := hc
  rw [h, h2] at h1
  obtain ⟨hi, hsi⟩ := List.getElem?_eq_some_iff.mp (table_ok.mp hs)
  obtain ⟨hj, htj⟩ := List.getElem?_eq_some_iff.mp (table_ok.mp ht)
  have hord := List.pairwise_iff_getElem.mp L.ordered
  have hij : i = j := by
    rcases Nat.lt_trichotomy i j with hlt | heq | hlt
    · have hbefore := hord i j hi hj hlt
      rw [hsi, htj] at hbefore
      unfold HashStore.Before at hbefore
      omega
    · exact heq
    · have hbefore := hord j i hj hi hlt
      rw [hsi, htj] at hbefore
      unfold HashStore.Before at hbefore
      omega
  subst hij
  obtain rfl : s = t := hsi.symm.trans htj
  exact ⟨rfl, UInt64.toNat_inj.mp (by omega)⟩

theorem chain (L : Layout n C) (hs : s ∈ n.tables) (key : UInt64) :
    Chain (nextOf n.mem) 0 (s.bucket (s.getHash key)) (C (s.bucket (s.getHash key))) :=
  L.forest.chain _ (L.root_mem hs key)

theorem chain_ne_nil (L : Layout n C) {a : UInt64} (ha : a ∈ n.roots) : C a ≠ [] :=
  (L.forest.chain a ha).ne_nil (L.root_ne_null ha)

theorem slot_node {a : UInt64} (ha : a ∈ n.roots) (hp : p ∈ slots (C a)) :
    ∃ x ∈ n.nodes C, x ∈ C a ∧ p ∈ slotsOf x := by
  obtain ⟨x, hx, hpx⟩ := mem_slots.mp hp
  exact ⟨x, ⟨a, ha, hx⟩, hx, hpx⟩

theorem slot_root (L : Layout n C) {a b : UInt64} (ha : a ∈ n.roots) (hb : b ∈ n.roots)
    (hpa : p ∈ slots (C a)) (hpb : p ∈ slots (C b)) : a = b := by
  obtain ⟨x, hx, hxa, hpx⟩ := slot_node ha hpa
  obtain ⟨y, hy, hyb, hpy⟩ := slot_node hb hpb
  obtain rfl := L.separated.node_eq hx hy hpx hpy
  exact L.forest.root_eq ha hb hxa hyb

theorem of_same (L : Layout n C) (hsh : SameShapes n n') (hal : n'.alloc = n.alloc)
    (hr : n'.reserve.memStoreReserve = n.reserve.memStoreReserve) (hw : n'.reserveTop ≤ 2 ^ 64)
    (hF : Forest (nextOf n'.mem) 0 n.roots C') (hp : ∀ x ∈ n.nodes C', n'.Placed x)
    (ha : ∀ x ∈ n.nodes C', ∀ y ∈ n.nodes C', x = y ∨ Apart x y) : Layout n' C' := by
  have hroots := hsh.roots_eq
  have hnodes : n'.nodes C' = n.nodes C' := by rw [nodes, nodes, hroots]
  refine ⟨hroots ▸ hF, hnodes ▸ hp, hnodes ▸ ha, ?_, hsh.ordered L.ordered, ?_, hw⟩
  · intro t ht
    obtain ⟨s, hs, he⟩ := hsh.mem ht
    exact (L.area s hs).of_same he.symm hal hr
  · rw [hal, hr]
    exact L.reserve

end Layout

structure Stored (n n' : MemoryNode) (C C' : UInt64 → List UInt64) (a p : UInt64) (d : DataItem) :
    Prop where
  shapes : SameShapes n n'
  slot : p ∈ slots (C' a)
  item : itemAt n'.mem p = d
  chain : C a <+: C' a
  other : ∀ b ∈ n.roots, b ≠ a → C' b = C b
  kept : ∀ b ∈ n.roots, ∀ q ∈ slots (C b), q ≠ p → itemAt n'.mem q = itemAt n.mem q
  fresh : ∀ q ∈ slots (C' a), q ∉ slots (C a) → q ≠ p → (itemAt n'.mem q).valid = 0

end MemoryNode

end MetadataService.MemStore
