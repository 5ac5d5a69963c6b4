import MetadataService.CallEffects

namespace MetadataService.MemStore

open ByteMemory LinkedChain Loops

structure Constructed (tableId bucketNum : UInt64) (param : MemStoreAllocParam) (m : Memory)
    (s : HashStore) (param' : MemStoreAllocParam) (m' : Memory) : Prop where
  tableId_eq : s.tableId = tableId
  bucketNum_eq : s.bucketNum = bucketNum
  pos : 0 < bucketNum
  dataPtr_eq : s.dataPtr.toNat = param.memStoreStart.toNat + param.memStoreAllocOffset.toUInt64.toNat
  ne_null : s.dataPtr ≠ 0
  fits : s.dataPtr.toNat + bucketNum.toNat * 15848 ≤ param.memStoreReserve.toNat
  baseOff_eq : s.baseOff = (s.dataPtr - param.memRegionStart).toInt64
  baseOff_nonneg : 0 ≤ s.baseOff
  region : s.regionStartPtr = param.memRegionStart
  start : param'.memStoreStart = param.memStoreStart
  regionStart : param'.memRegionStart = param.memRegionStart
  reserve : param'.memStoreReserve = param.memStoreReserve
  offset : param'.memStoreAllocOffset.toUInt64.toNat =
    param.memStoreAllocOffset.toUInt64.toNat + bucketNum.toNat * 15848
  mem : m' = fill m s.dataPtr.toNat (bucketNum.toNat * 15848) 0

theorem hashStore_ok {tableId bucketNum : UInt64} {param param' : MemStoreAllocParam} {m m' : Memory}
    {s : HashStore} (h : hashStore tableId bucketNum param m = .ok (s, param', m'))
    (hw : param.memStoreStart.toNat + param.memStoreAllocOffset.toUInt64.toNat +
      bucketNum.toNat * 15848 < 2 ^ 64) : Constructed tableId bucketNum param m s param' m' := by
  obtain ⟨⟨h1, h2, h3, h4⟩, hs, rfl, rfl⟩ := hashStore_inv h
  have hlit : (15848 : UInt64).toNat = 15848 := rfl
  have hsize : (bucketNum * 15848).toNat = bucketNum.toNat * 15848 := by
    rw [UInt64.toNat_mul, hlit]
    exact Nat.mod_eq_of_lt (by omega)
  have hptr : (param.memStoreStart + param.memStoreAllocOffset.toUInt64).toNat =
      param.memStoreStart.toNat + param.memStoreAllocOffset.toUInt64.toNat := by
    rw [UInt64.toNat_add]
    exact Nat.mod_eq_of_lt (by omega)
  have hfit : (param.memStoreStart + param.memStoreAllocOffset.toUInt64 + bucketNum * 15848).toNat ≤
      param.memStoreReserve.toNat := h2
  rw [UInt64.toNat_add, hptr, hsize, Nat.mod_eq_of_lt (by omega)] at hfit
  subst hs
  refine ⟨rfl, rfl, h1, hptr, h4, ?_, rfl, h3, rfl, rfl, rfl,
    rfl, ?_, ?_⟩
  · exact hptr ▸ hfit
  · rw [UInt64.toUInt64_toInt64, UInt64.toNat_add, hsize]
    exact Nat.mod_eq_of_lt (by omega)
  · rw [hsize]

def HashStore.heads (s : HashStore) : Set UInt64 := {a | ∃ b < s.bucketNum, a = s.bucket b}

section Constructor

variable {tableId bucketNum a x y : UInt64} {param alloc : MemStoreAllocParam} {m m' : Memory} {s : HashStore}

theorem Constructed.head_place (K : Constructed tableId bucketNum param m s alloc m') (ha : a ∈ s.heads) :
    s.dataPtr.toNat ≤ a.toNat ∧ a.toNat + 15848 ≤ s.dataPtr.toNat + bucketNum.toNat * 15848 := by
  obtain ⟨b, hb, rfl⟩ := ha
  have hres : param.memStoreReserve.toNat < 2 ^ 64 := UInt64.toNat_lt _
  have hfit := K.fits
  rw [← K.bucketNum_eq] at hfit ⊢
  have hlt : b.toNat < s.bucketNum.toNat := hb
  rw [HashStore.bucket_toNat (by omega) hb]
  omega

theorem Constructed.head_ne_null (K : Constructed tableId bucketNum param m s alloc m') (ha : a ∈ s.heads) :
    a ≠ 0 := by
  have hplace := K.head_place ha
  intro h0
  rw [h0, UInt64.toNat_zero] at hplace
  apply K.ne_null
  apply UInt64.toNat_inj.mp
  rw [UInt64.toNat_zero]
  omega

theorem Constructed.heads_apart (K : Constructed tableId bucketNum param m s alloc m') (hx : x ∈ s.heads)
    (hy : y ∈ s.heads) : x = y ∨ Apart x y := by
  obtain ⟨b, hb, rfl⟩ := hx
  obtain ⟨c, hc, rfl⟩ := hy
  have hres : param.memStoreReserve.toNat < 2 ^ 64 := UInt64.toNat_lt _
  have hfit := K.fits
  rw [← K.bucketNum_eq] at hfit
  by_cases hbc : b = c
  · exact Or.inl (by rw [hbc])
  · have hne : b.toNat ≠ c.toNat := fun h => hbc (UInt64.toNat_inj.mp h)
    right
    unfold Apart
    rw [HashStore.bucket_toNat (by omega) hb, HashStore.bucket_toNat (by omega) hc]
    omega

theorem Constructed.next_head (K : Constructed tableId bucketNum param m s alloc m') (ha : a ∈ s.heads) :
    nextOf m' a = 0 := by
  have hplace := K.head_place ha
  rw [nextOf, readWord, K.mem, readNat_fill_zero m (by omega) (by omega)]
  rfl

theorem Constructed.slot_empty (K : Constructed tableId bucketNum param m s alloc m') (ha : a ∈ s.heads)
    {q : UInt64} (hq : q ∈ slotsOf a) : (itemAt m' q).valid = 0 := by
  have hplace := K.head_place ha
  have hfit := K.fits
  have hres : param.memStoreReserve.toNat < 2 ^ 64 := UInt64.toNat_lt _
  obtain ⟨i, hi, hqi⟩ := slot_offset (by omega) hq
  rw [itemAt_valid, K.mem]
  exact fill_inside m 0 (by omega) (by omega)

end Constructor

namespace MemoryNode

variable {n n' : MemoryNode} {C C' : UInt64 → List UInt64} {s : HashStore}

structure Built (n n' : MemoryNode) (C C' : UInt64 → List UInt64) (s : HashStore) : Prop where
  tables : n'.tables = n.tables ++ [s]
  pos : 0 < s.bucketNum
  roots : n'.roots = n.roots ∪ s.heads
  apart : ∀ a ∈ s.heads, a ∉ n.roots
  kept : ∀ a ∈ n.roots, C' a = C a
  item : ∀ a ∈ n.roots, ∀ q ∈ slots (C a), itemAt n'.mem q = itemAt n.mem q
  head : ∀ a ∈ s.heads, C' a = [a]
  empty : ∀ a ∈ s.heads, ∀ q ∈ slotsOf a, (itemAt n'.mem q).valid = 0

theorem roots_append (ht : n'.tables = n.tables ++ [s]) : n'.roots = n.roots ∪ s.heads := by
  ext a
  constructor
  · rintro ⟨t, hmem, b, hb, rfl⟩
    rw [ht, List.mem_append, List.mem_singleton] at hmem
    rcases hmem with h | rfl
    · exact Or.inl ⟨t, h, b, hb, rfl⟩
    · exact Or.inr ⟨b, hb, rfl⟩
  · rintro (⟨t, hmem, b, hb, rfl⟩ | ⟨b, hb, rfl⟩)
    · exact ⟨t, ht ▸ List.mem_append_left _ hmem, b, hb, rfl⟩
    · exact ⟨s, ht ▸ List.mem_append_right _ List.mem_cons_self, b, hb, rfl⟩

section Build

variable {tableId bucketNum a y : UInt64}

theorem Layout.build_apart (L : Layout n C)
    (K : Constructed tableId bucketNum n.alloc n.mem s n'.alloc n'.mem) (hy : y ∈ n.nodes C) :
    y.toNat + 15848 ≤ s.dataPtr.toNat ∨ s.dataPtr.toNat + bucketNum.toNat * 15848 ≤ y.toNat := by
  have hptr : s.dataPtr.toNat = n.allocTop := K.dataPtr_eq
  have hfit := K.fits
  rw [L.reserve] at hfit
  have hst : n.reserveStart = n.reserve.memStoreReserve.toNat := rfl
  rcases L.placed y hy with h | h <;> omega

theorem Layout.head_apart (L : Layout n C)
    (K : Constructed tableId bucketNum n.alloc n.mem s n'.alloc n'.mem) (ha : a ∈ s.heads)
    (hy : y ∈ n.nodes C) : Apart a y := by
  have h1 := K.head_place ha
  have h2 := L.build_apart K hy
  unfold Apart
  omega

theorem Layout.head_fresh (L : Layout n C)
    (K : Constructed tableId bucketNum n.alloc n.mem s n'.alloc n'.mem) (ha : a ∈ s.heads)
    {b : UInt64} (hb : b ∈ n.roots) : a ∉ C b := by
  intro hin
  have h := L.head_apart K ha ⟨b, hb, hin⟩
  unfold Apart at h
  omega

theorem Layout.build_outside (L : Layout n C)
    (K : Constructed tableId bucketNum n.alloc n.mem s n'.alloc n'.mem) (hy : y ∈ n.nodes C) {i : ℕ}
    (hi : i < 15848) : n'.mem (y.toNat + i) = n.mem (y.toNat + i) := by
  have h := L.build_apart K hy
  rw [K.mem]
  exact fill_outside _ _ _ _ _ (by omega)

open scoped Classical in
noncomputable def withHeads (C : UInt64 → List UInt64) (s : HashStore) (a : UInt64) : List UInt64 :=
  if a ∈ s.heads then [a] else C a

theorem Layout.build_forest (L : Layout n C)
    (K : Constructed tableId bucketNum n.alloc n.mem s n'.alloc n'.mem) :
    Forest (nextOf n'.mem) 0 (n.roots ∪ s.heads) (withHeads C s) := by
  have hold : Forest (nextOf n'.mem) 0 n.roots C := by
    apply L.forest.congr
    intro b hb y hy
    apply readWord_congr
    intro i hi
    rw [Nat.add_assoc]
    exact L.build_outside K ⟨b, hb, hy⟩ (by omega)
  apply hold.grow
  · intro a ha
    exact K.head_ne_null ha
  · intro a ha
    exact K.next_head ha
  · intro a ha b hb
    exact L.head_fresh K ha hb

theorem Layout.head_not_root (L : Layout n C)
    (K : Constructed tableId bucketNum n.alloc n.mem s n'.alloc n'.mem) (ha : a ∈ s.heads) :
    a ∉ n.roots := by
  intro hr
  exact L.head_fresh K ha hr ((L.forest.chain a hr).head_mem (L.root_ne_null hr))

theorem nodes_withHeads (ht : n'.tables = n.tables ++ [s]) (hy : y ∈ n'.nodes (withHeads C s)) :
    y ∈ n.nodes C ∨ y ∈ s.heads := by
  obtain ⟨a, ha, hya⟩ := hy
  rw [roots_append ht] at ha
  by_cases hh : a ∈ s.heads
  · rw [withHeads, if_pos hh, List.mem_singleton] at hya
    exact Or.inr (hya ▸ hh)
  · rw [withHeads, if_neg hh] at hya
    exact Or.inl ⟨a, ha.resolve_right hh, hya⟩

theorem Layout.build_effect (L : Layout n C) (n' : MemoryNode)
    (K : Constructed tableId bucketNum n.alloc n.mem s n'.alloc n'.mem)
    (ht : n'.tables = n.tables ++ [s]) (hr : n'.reserve = n.reserve) :
    Layout n' (withHeads C s) ∧ Built n n' C (withHeads C s) s := by
  have hroots := roots_append ht
  have hst : n'.reserveStart = n.reserveStart := by rw [reserveStart, reserveStart, hr]
  have hres : n'.reserveTop = n.reserveTop := by rw [reserveTop, reserveTop, hr]
  have hfit := K.fits
  rw [L.reserve] at hfit
  change _ ≤ n.reserveStart at hfit
  have hptr : s.dataPtr.toNat = n.allocTop := K.dataPtr_eq
  have htop : n'.allocTop = n.allocTop + bucketNum.toNat * 15848 := by
    rw [allocTop, allocTop, K.start, K.offset]
    omega
  constructor
  · refine ⟨hroots ▸ L.build_forest K, ?_, ?_, ?_, ?_, ?_, ?_⟩
    · intro y hy
      rcases nodes_withHeads ht hy with hy | hy
      · have hp := L.placed y hy
        unfold Placed at *
        omega
      · have hp := K.head_place hy
        exact Or.inl ⟨by omega, by omega⟩
    · intro x hx y hy
      rcases nodes_withHeads ht hx with hx | hx <;> rcases nodes_withHeads ht hy with hy | hy
      · exact L.apart x hx y hy
      · exact Or.inr (L.head_apart K hy hx).symm
      · exact Or.inr (L.head_apart K hx hy)
      · exact K.heads_apart hx hy
    · intro t hmem
      rw [ht, List.mem_append, List.mem_singleton] at hmem
      rcases hmem with hmem | rfl
      · have hA := L.area t hmem
        have hbelow := hA.below
        exact ⟨hA.pos, hA.ne_null, by omega, hst ▸ hA.apart, K.regionStart ▸ hA.region, hA.base⟩
      · refine ⟨K.bucketNum_eq ▸ K.pos, K.ne_null, ?_, ?_, K.regionStart ▸ K.region, ?_⟩
        · rw [K.bucketNum_eq]
          omega
        · rw [K.bucketNum_eq]
          omega
        · rw [K.region, K.baseOff_eq, UInt64.toUInt64_toInt64, UInt64.add_comm, UInt64.sub_add_cancel]
    · rw [ht, List.pairwise_append]
      refine ⟨L.ordered, List.pairwise_singleton _ _, ?_⟩
      intro t hmem u hu
      rw [List.mem_singleton.mp hu, HashStore.Before, hptr]
      exact (L.area t hmem).below
    · rw [K.reserve, hr]
      exact L.reserve
    · exact hres ▸ L.noWrap
  · refine ⟨ht, K.bucketNum_eq ▸ K.pos, hroots, fun a ha => L.head_not_root K ha, ?_, ?_, ?_, ?_⟩
    · intro a ha
      exact if_neg fun hh => L.head_not_root K hh ha
    · intro a ha q hq
      obtain ⟨y, hy, -, hqy⟩ := slot_node ha hq
      have hin := L.separated.slot_inside hy hqy
      apply loadItem_congr
      intro i hi
      have hout := L.build_outside K hy (i := q.toNat - y.toNat + i) (by omega)
      have he : y.toNat + (q.toNat - y.toNat + i) = q.toNat + i := by omega
      rwa [he] at hout
    · intro a ha
      exact if_pos ha
    · intro a ha q hq
      exact K.slot_empty ha hq

end Build

inductive Effect (n n' : MemoryNode) (C C' : UInt64 → List UInt64) : Op → Reply → Prop
  | build {tableId bucketNum : UInt64} {s : HashStore}
      (hK : Constructed tableId bucketNum n.alloc n.mem s n'.alloc n'.mem)
      (h : Built n n' C C' s) : Effect n n' C C' (.build tableId bucketNum) .built
  | insert {i : ℕ} {key p : UInt64} {d : DataItem} {s : HashStore} (hs : n.table i = .ok s)
      (h : Stored n n' C C' (s.bucket (s.getHash key)) p { d with valid := 1 })
      (hfree : p ∈ slots (C (s.bucket (s.getHash key))) → (itemAt n.mem p).valid = 0) :
      Effect n n' C C' (.insert i key d) (.item p)
  | putOld {i : ℕ} {key p : UInt64} {d : DataItem} {s : HashStore} (hs : n.table i = .ok s)
      (hl : lookup n.mem (C (s.bucket (s.getHash key))) key = some p)
      (h : Stored n n' C C' (s.bucket (s.getHash key)) p d) : Effect n n' C C' (.put i key d) (.item p)
  | putNew {i : ℕ} {key p : UInt64} {d : DataItem} {s : HashStore} (hs : n.table i = .ok s)
      (hl : lookup n.mem (C (s.bucket (s.getHash key))) key = none)
      (h : Stored n n' C C' (s.bucket (s.getHash key)) p { d with valid := 1 })
      (hfree : p ∈ slots (C (s.bucket (s.getHash key))) → (itemAt n.mem p).valid = 0) :
      Effect n n' C C' (.put i key d) (.item p)
  | load {i : ℕ} {key p : UInt64} {val : List UInt8} {stack : Vector UInt8 664} {s : HashStore}
      (hs : n.table i = .ok s)
      (h : Stored n n' C C' (s.bucket (s.getHash key)) p (s.loadedItem p s.tableId val key stack))
      (hfree : p ∈ slots (C (s.bucket (s.getHash key))) → (itemAt n.mem p).valid = 0) :
      Effect n n' C C' (.load i key val stack) (.item p)
  | deleteOld {i : ℕ} {key p : UInt64} {s : HashStore} (hs : n.table i = .ok s)
      (hl : lookup n.mem (C (s.bucket (s.getHash key))) key = some p)
      (h : Stored n n' C C' (s.bucket (s.getHash key)) p { itemAt n.mem p with valid := 0 }) :
      Effect n n' C C' (.delete i key) (.deleted true)
  | deleteNone {i : ℕ} {key : UInt64} {s : HashStore} (hs : n.table i = .ok s)
      (hl : lookup n.mem (C (s.bucket (s.getHash key))) key = none) (hn : n' = n) (hC : C' = C) :
      Effect n n' C C' (.delete i key) (.deleted false)

inductive Grows (n n' : MemoryNode) (C C' : UInt64 → List UInt64) : Prop
  | built {s : HashStore} (hB : Built n n' C C' s) (hnum : s.nodeNum = 0) (hr : n'.reserve = n.reserve)
  | kept (hC : C' = C) (ht : n'.tables = n.tables) (hr : n'.reserve = n.reserve)
  | appended {i : ℕ} {s : HashStore} {key p x : UInt64} {e : DataItem} (hs : n.table i = .ok s)
      (hfull : firstFree n.mem (C (s.bucket (s.getHash key))) = none)
      (hC : C' = Function.update C (s.bucket (s.getHash key)) (C (s.bucket (s.getHash key)) ++ [x]))
      (ht : n'.tables = n.tables.set i { s with nodeNum := s.nodeNum + 1 })
      (htop : n'.reserveTop = n.reserveTop + 15848)
      (hS : Stored n n' C C' (s.bucket (s.getHash key)) p e)
      (hnew : p ∉ slots (C (s.bucket (s.getHash key)))) (hv : e.valid ≠ 0)

theorem grows_commit {i : ℕ} {s : HashStore} {r : Inserted} (hs : n.table i = .ok s) (hC : C' = C)
    (hst : r.store = s) (hr : r.param = n.reserve) : Grows n (n.commit i r) C C' := by
  refine .kept hC ?_ hr
  obtain ⟨hi, hget⟩ := List.getElem?_eq_some_iff.mp (table_ok.mp hs)
  rw [commit, hst, ← hget]
  exact List.set_getElem_self hi

theorem firstFree_none {m : Memory} {ns : List UInt64} {q : UInt64} (h : firstFree m ns = none)
    (hq : q ∈ slots ns) : (itemAt m q).valid ≠ 0 := by
  have hn := List.find?_eq_none.mp h q hq
  simpa [isFree] using hn

theorem Grown.grows {i : ℕ} {s : HashStore} {r : Inserted} {key p : UInt64} {e : DataItem}
    (hG : Grown n C C' (s.bucket (s.getHash key)) s r) (hs : n.table i = .ok s)
    (hS : Stored n (n.commit i r) C C' (s.bucket (s.getHash key)) p e)
    (hfree : p ∈ slots (C (s.bucket (s.getHash key))) → (itemAt n.mem p).valid = 0) (hv : e.valid ≠ 0) :
    Grows n (n.commit i r) C C' := by
  cases hG with
  | kept hC hst hr => exact grows_commit hs hC hst hr
  | appended hfull hC hst htop =>
    refine .appended hs hfull hC (by rw [commit, hst]) htop hS ?_ hv
    intro hin
    exact firstFree_none hfull hin (hfree hin)

theorem Layout.step_grows (L : Layout n C) {op : Op} {r : Reply} (h : n.Step op n' r) :
    ∃ C', Layout n' C' ∧ Effect n n' C C' op r ∧ Grows n n' C C' := by
  have hone : (1 : UInt8) ≠ 0 := by decide
  obtain ⟨⟨fuel, hexec⟩, hle, hw⟩ := h
  cases op with
  | build tableId bucketNum =>
    obtain ⟨⟨s, alloc, m⟩, hc, hret⟩ := bind_ok.mp hexec
    obtain ⟨rfl, rfl⟩ := Prod.mk.inj (Except.ok.inj hret)
    have K := hashStore_ok hc hle
    have hb := L.build_effect { n with mem := m, alloc, tables := n.tables ++ [s] } K rfl rfl
    obtain ⟨-, hst, -, -⟩ := hashStore_inv hc
    exact ⟨_, hb.1, .build K hb.2, .built hb.2 (hst ▸ rfl) rfl⟩
  | insert i key d =>
    obtain ⟨s, hs, hexec⟩ := bind_ok.mp hexec
    obtain ⟨q, hq, hret⟩ := bind_ok.mp hexec
    obtain ⟨rfl, rfl⟩ := Prod.mk.inj (Except.ok.inj hret)
    obtain ⟨C', hL, hS, hfree, hG⟩ := L.insert_effect hs hq hle hw
    exact ⟨C', hL, .insert hs hS hfree, hG.grows hs hS hfree hone⟩
  | put i key d =>
    obtain ⟨s, hs, hexec⟩ := bind_ok.mp hexec
    obtain ⟨q, hq, hret⟩ := bind_ok.mp hexec
    obtain ⟨rfl, rfl⟩ := Prod.mk.inj (Except.ok.inj hret)
    obtain ⟨C', e, hL, hS, ⟨hl, rfl, hC, hst, hr⟩ | ⟨hl, rfl, hfree, hG⟩⟩ := L.put_effect hs hq hle hw
    · exact ⟨C', hL, .putOld hs hl hS, grows_commit hs hC hst hr⟩
    · exact ⟨C', hL, .putNew hs hl hS hfree, hG.grows hs hS hfree hone⟩
  | load i key val stack =>
    obtain ⟨s, hs, hexec⟩ := bind_ok.mp hexec
    obtain ⟨q, hq, hret⟩ := bind_ok.mp hexec
    obtain ⟨rfl, rfl⟩ := Prod.mk.inj (Except.ok.inj hret)
    obtain ⟨C', hL, hS, hfree, hG⟩ := L.load_effect hs hq hle hw
    exact ⟨C', hL, .load hs hS hfree, hG.grows hs hS hfree hone⟩
  | delete i key =>
    obtain ⟨s, hs, hexec⟩ := bind_ok.mp hexec
    obtain ⟨⟨b, m⟩, hq, hret⟩ := bind_ok.mp hexec
    obtain ⟨rfl, rfl⟩ := Prod.mk.inj (Except.ok.inj hret)
    rcases L.delete_effect hs hq with ⟨p, hl, rfl, hL, hS⟩ | ⟨hl, rfl, rfl⟩
    · exact ⟨C, hL, .deleteOld hs hl hS, .kept rfl rfl rfl⟩
    · exact ⟨C, L, .deleteNone hs hl rfl rfl, .kept rfl rfl rfl⟩

theorem Layout.step (L : Layout n C) {op : Op} {r : Reply} (h : n.Step op n' r) :
    ∃ C', Layout n' C' ∧ Effect n n' C C' op r := by
  obtain ⟨C', hL, hE, -⟩ := L.step_grows h
  exact ⟨C', hL, hE⟩

theorem Fresh.layout (hf : Fresh n) : Layout n fun _ => [] := by
  have hroots : n.roots = ∅ := by
    simp only [roots, hf.tables, List.not_mem_nil, false_and, exists_false, Set.ofPred_false]
  refine ⟨⟨?_, ?_⟩, ?_, ?_, ?_, ?_, hf.reserve, hf.noWrap⟩
  · intro a ha
    rw [hroots] at ha
    exact absurd ha (Set.notMem_empty a)
  · intro a ha
    rw [hroots] at ha
    exact absurd ha (Set.notMem_empty a)
  · rintro x ⟨a, -, hx⟩
    exact absurd hx List.not_mem_nil
  · rintro x ⟨a, -, hx⟩
    exact absurd hx List.not_mem_nil
  · intro s hs
    rw [hf.tables] at hs
    exact absurd hs List.not_mem_nil
  · rw [hf.tables]
    exact List.Pairwise.nil

theorem Run.invariant {ok : List (Op × Reply) → Op → Prop} {n₀ : MemoryNode} {h : List (Op × Reply)}
    {I : List (Op × Reply) → MemoryNode → (UInt64 → List UInt64) → Prop} (hf : Fresh n₀)
    (hstart : ∀ C, I [] n₀ C)
    (hstep : ∀ h n n' C C' op r, ok h op → Layout n C → Layout n' C' → Effect n n' C C' op r → I h n C →
      I (h ++ [(op, r)]) n' C')
    (hrun : Run ok n₀ h n) : ∃ C, Layout n C ∧ I h n C := by
  induction hrun with
  | start => exact ⟨_, hf.layout, hstart _⟩
  | step _ hok hs ih =>
    obtain ⟨C, hL, hI⟩ := ih
    obtain ⟨C', hL', hE⟩ := hL.step hs
    exact ⟨C', hL', hstep _ _ _ C C' _ _ hok hL hL' hE hI⟩

theorem Run.layout {ok : List (Op × Reply) → Op → Prop} {n₀ : MemoryNode} {h : List (Op × Reply)}
    (hf : Fresh n₀) (hrun : Run ok n₀ h n) : ∃ C, Layout n C := by
  obtain ⟨C, hL, -⟩ := hrun.invariant (I := fun _ _ _ => True) hf (fun _ => trivial) (by intros; trivial)
  exact ⟨C, hL⟩

end MemoryNode

end MetadataService.MemStore
