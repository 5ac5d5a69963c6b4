import MetadataService.NodeRuns
import MetadataService.WrappingBump
import Mathlib.Order.Interval.Set.LinearOrder

namespace MetadataService.MemStore

open ByteMemory WrappingBump

namespace MemStoreAllocParam

def next (param : MemStoreAllocParam) : UInt64 := param.memStoreStart + param.memStoreAllocOffset.toUInt64

def taken (param : MemStoreAllocParam) (size : UInt64) : MemStoreAllocParam :=
  { param with memStoreAllocOffset := (param.memStoreAllocOffset.toUInt64 + size).toInt64 }

theorem next_taken (param : MemStoreAllocParam) (size : UInt64) :
    (param.taken size).next = param.next + size := by
  simp only [next, taken, UInt64.toUInt64_toInt64, UInt64.add_assoc]

end MemStoreAllocParam

/-- Constructors one after the other over one `param`, each with its table id and its `bucket_num`. -/
def hashStores : List (UInt64 × UInt64) → MemStoreAllocParam → Memory →
    Except Fault (List HashStore × MemStoreAllocParam × Memory)
  | [], param, m => return ([], param, m)
  | (tableId, bucketNum) :: configs, param, m => do
    let (s, param, m) ← hashStore tableId bucketNum param m
    let (stores, param, m) ← hashStores configs param m
    return (s :: stores, param, m)

/-- The end of each table, as a number that is not reduced to 64 bits, is one of 64 bits. -/
def SizesFit : MemStoreAllocParam → List (UInt64 × UInt64) → Prop
  | _, [] => True
  | param, (_, bucketNum) :: configs =>
    param.next.toNat + bucketNum.toNat * 15848 < 2 ^ 64 ∧ SizesFit (param.taken (bucketNum * 15848)) configs

namespace HashStore

variable {s t : HashStore} {reserve : UInt64}

def nodeBytes (s : HashStore) (b : UInt64) : Set ℕ := block ((s.bucket b).toNat, 15848)

def Inside (s : HashStore) (reserve : UInt64) : Prop :=
  ∀ b < s.bucketNum, s.nodeBytes b ⊆ Set.Ico s.dataPtr.toNat reserve.toNat

def ApartFrom (s t : HashStore) : Prop :=
  ∀ b < s.bucketNum, ∀ c < t.bucketNum, Disjoint (s.nodeBytes b) (t.nodeBytes c)

theorem nodeBytes_subset {b : UInt64} :
    s.nodeBytes b ⊆ Set.Ico s.dataPtr.toNat reserve.toNat ↔
      s.dataPtr.toNat ≤ (s.bucket b).toNat ∧ (s.bucket b).toNat + 15848 ≤ reserve.toNat :=
  Set.Ico_subset_Ico_iff (Nat.lt_add_of_pos_right (Nat.succ_pos 15847))

theorem inside_of_fits (h : s.dataPtr.toNat + s.bucketNum.toNat * 15848 ≤ reserve.toNat) :
    s.Inside reserve := by
  have hreserve := reserve.toNat_lt
  intro b hb
  have hlt : b.toNat < s.bucketNum.toNat := hb
  have hbucket : (s.bucket b).toNat = b.toNat * 15848 + s.dataPtr.toNat := bucket_toNat (by omega) hb
  rw [nodeBytes_subset, hbucket]
  omega

theorem fits_of_inside (hpos : 0 < s.bucketNum) (h : s.Inside reserve) :
    s.dataPtr.toNat + s.bucketNum.toNat * 15848 ≤ reserve.toNat := by
  have hreserve := reserve.toNat_lt
  have hfirst : s.dataPtr.toNat ≤ reserve.toNat := by
    obtain ⟨hlow, hhigh⟩ := nodeBytes_subset.mp (h 0 hpos)
    omega
  -- As long as the first nodes fit, the address of the next one does not wrap.
  have hnodes : ∀ k ≤ s.bucketNum.toNat, s.dataPtr.toNat + k * 15848 ≤ reserve.toNat := by
    intro k
    induction k with
    | zero => simpa using hfirst
    | succ k ih =>
      intro hk
      have hprev := ih (Nat.le_of_succ_le hk)
      have hnum := s.bucketNum.toNat_lt
      have hkNat : (UInt64.ofNat k).toNat = k := by
        rw [UInt64.toNat_ofNat', Nat.mod_eq_of_lt (by omega)]
      have hb : UInt64.ofNat k < s.bucketNum := by
        rw [UInt64.lt_iff_toNat_lt, hkNat]
        exact Nat.lt_of_succ_le hk
      obtain ⟨-, hend⟩ := nodeBytes_subset.mp (h (UInt64.ofNat k) hb)
      have hbucket : (s.bucket (UInt64.ofNat k)).toNat = k * 15848 + s.dataPtr.toNat := by
        rw [bucket_toNat_of_lt (by omega), hkNat]
      rw [Nat.succ_mul, ← Nat.add_assoc, Nat.add_comm s.dataPtr.toNat, ← hbucket]
      exact hend
  exact hnodes _ le_rfl

theorem apartFrom_of_before (hs : s.dataPtr.toNat + s.bucketNum.toNat * 15848 ≤ t.dataPtr.toNat)
    (ht : t.dataPtr.toNat + t.bucketNum.toNat * 15848 ≤ reserve.toNat) : s.ApartFrom t := by
  have hreserve := reserve.toNat_lt
  intro b hb c hc
  have hlt : b.toNat < s.bucketNum.toNat := hb
  have hbucket : (s.bucket b).toNat = b.toNat * 15848 + s.dataPtr.toNat := bucket_toNat (by omega) hb
  obtain ⟨hlow, -⟩ := nodeBytes_subset.mp (inside_of_fits ht c hc)
  apply block_disjoint
  left
  rw [hbucket]
  omega

end HashStore

structure TablesPlaced (reserve : UInt64) (stores : List HashStore) : Prop where
  inside : ∀ s ∈ stores, s.Inside reserve
  apart : stores.Pairwise HashStore.ApartFrom
  reserve : ∀ s ∈ stores, ∀ b < s.bucketNum, Disjoint (s.nodeBytes b) (Set.Ici reserve.toNat)

section Constructors

variable {tableId bucketNum : UInt64} {param param' : MemStoreAllocParam} {m m' : Memory} {s : HashStore}
  {configs : List (UInt64 × UInt64)} {stores : List HashStore}

theorem hashStore_guards (h : hashStore tableId bucketNum param m = .ok (s, param', m')) :
    0 < s.bucketNum ∧ s.bucketNum = bucketNum ∧ s.dataPtr = param.next ∧
      param' = param.taken (bucketNum * 15848) ∧
      param.next + bucketNum * 15848 ≤ param.memStoreReserve := by
  obtain ⟨⟨h1, h2, -, -⟩, rfl, rfl, -⟩ := hashStore_inv h
  exact ⟨h1, rfl, rfl, rfl, h2⟩

theorem hashStores_cons (h : hashStores ((tableId, bucketNum) :: configs) param m = .ok (stores, param', m')) :
    ∃ s p m₁ rest, hashStore tableId bucketNum param m = .ok (s, p, m₁) ∧
      hashStores configs p m₁ = .ok (rest, param', m') ∧ stores = s :: rest := by
  obtain ⟨⟨s, p, m₁⟩, hs, h⟩ := bind_ok.mp h
  obtain ⟨⟨rest, p', m₂⟩, hrest, h⟩ := bind_ok.mp h
  obtain ⟨rfl, hp⟩ := Prod.mk.inj (Except.ok.inj h)
  obtain ⟨rfl, rfl⟩ := Prod.mk.inj hp
  exact ⟨s, p, m₁, rest, hs, hrest, rfl⟩

theorem end_toNat (hw : param.next.toNat + bucketNum.toNat * 15848 < 2 ^ 64) :
    (param.next + bucketNum * 15848).toNat = param.next.toNat + bucketNum.toNat * 15848 := by
  have hlit : (15848 : UInt64).toNat = 15848 := rfl
  rw [UInt64.toNat_add, UInt64.toNat_mul, hlit, Nat.mod_eq_of_lt (by omega : bucketNum.toNat * 15848 < 2 ^ 64),
    Nat.mod_eq_of_lt hw]

theorem hashStores_fits (h : hashStores configs param m = .ok (stores, param', m'))
    (hw : SizesFit param configs) :
    (∀ s ∈ stores, s.dataPtr.toNat + s.bucketNum.toNat * 15848 ≤ param.memStoreReserve.toNat ∧
        param.next.toNat ≤ s.dataPtr.toNat) ∧
      stores.Pairwise HashStore.ApartFrom := by
  induction configs generalizing param m stores with
  | nil =>
    obtain ⟨rfl, -⟩ := Prod.mk.inj (Except.ok.inj h)
    simp
  | cons config configs ih =>
    obtain ⟨s, p, m₁, rest, hs, hrest, rfl⟩ := hashStores_cons h
    obtain ⟨hsize, hsizes⟩ := hw
    obtain ⟨-, hnum, hptr, rfl, hguard⟩ := hashStore_guards hs
    obtain ⟨hplaced, hapart⟩ := ih hrest hsizes
    have hend := end_toNat hsize
    rw [UInt64.le_iff_toNat_le, hend] at hguard
    have hnext : ∀ t ∈ rest, t.dataPtr.toNat + t.bucketNum.toNat * 15848 ≤ param.memStoreReserve.toNat ∧
        s.dataPtr.toNat + s.bucketNum.toNat * 15848 ≤ t.dataPtr.toNat := by
      intro t ht
      obtain ⟨hfit, hbehind⟩ := hplaced t ht
      rw [MemStoreAllocParam.next_taken, hend] at hbehind
      rw [hptr, hnum]
      exact ⟨hfit, hbehind⟩
    refine ⟨List.forall_mem_cons.mpr ⟨?_, ?_⟩, List.pairwise_cons.mpr ⟨?_, hapart⟩⟩
    · rw [hptr, hnum]
      exact ⟨hguard, le_rfl⟩
    · intro t ht
      obtain ⟨hfit, hbehind⟩ := hnext t ht
      rw [hptr] at hbehind
      exact ⟨hfit, by omega⟩
    · intro t ht
      obtain ⟨hfit, hbehind⟩ := hnext t ht
      exact HashStore.apartFrom_of_before hbehind hfit

theorem sizesFit_of_inside (h : hashStores configs param m = .ok (stores, param', m'))
    (hin : ∀ s ∈ stores, s.Inside param.memStoreReserve) : SizesFit param configs := by
  induction configs generalizing param m stores with
  | nil => trivial
  | cons config configs ih =>
    obtain ⟨s, p, m₁, rest, hs, hrest, rfl⟩ := hashStores_cons h
    obtain ⟨hpos, hnum, hptr, rfl, -⟩ := hashStore_guards hs
    obtain ⟨hfirst, hins⟩ := List.forall_mem_cons.mp hin
    have hfit := HashStore.fits_of_inside hpos hfirst
    rw [hptr, hnum] at hfit
    exact ⟨hfit.trans_lt param.memStoreReserve.toNat_lt, ih hrest hins⟩

end Constructors

theorem hashStores_placed_iff {configs : List (UInt64 × UInt64)} {param param' : MemStoreAllocParam}
    {m m' : Memory} {stores : List HashStore} (h : hashStores configs param m = .ok (stores, param', m')) :
    TablesPlaced param.memStoreReserve stores ↔ SizesFit param configs := by
  constructor
  · intro hplaced
    exact sizesFit_of_inside h hplaced.inside
  · intro hw
    obtain ⟨hfits, hapart⟩ := hashStores_fits h hw
    have hin : ∀ s ∈ stores, s.Inside param.memStoreReserve :=
      fun s hs => HashStore.inside_of_fits (hfits s hs).1
    refine ⟨hin, hapart, fun s hs b hb => ?_⟩
    apply Set.disjoint_left.mpr
    intro x hx hr
    exact absurd (hin s hs b hb hx).2 (Nat.not_lt.mpr hr)

def tableAt (tableId bucketNum dataPtr : UInt64) : HashStore :=
  { tableId, baseOff := (dataPtr - 4096).toInt64, bucketNum, dataPtr, nodeNum := 0,
    tableSize := bucketNum * 15848, regionStartPtr := 4096 }

theorem hashStores_placed_two :
    ∃ param m, hashStores [(1, 2), (2, 3)] ⟨4096, 4096, 0, 83336⟩ (fun _ => 0) =
        .ok ([tableAt 1 2 4096, tableAt 2 3 35792], param, m) ∧
      TablesPlaced 83336 [tableAt 1 2 4096, tableAt 2 3 35792] := by
  have h : hashStores [(1, 2), (2, 3)] ⟨4096, 4096, 0, 83336⟩ (fun _ => 0) =
    .ok ([tableAt 1 2 4096, tableAt 2 3 35792], _, _) := rfl
  exact ⟨_, _, h, (hashStores_placed_iff h).mpr ⟨by decide, by decide, trivial⟩⟩

theorem hashStores_wrap_overlap :
    ∃ param m, hashStores [(1, 0x2000000000000000), (2, 1)] ⟨4096, 4096, 0, 19944⟩ (fun _ => 0) =
        .ok ([tableAt 1 0x2000000000000000 4096, tableAt 2 1 4096], param, m) ∧
      ¬ TablesPlaced 19944 [tableAt 1 0x2000000000000000 4096, tableAt 2 1 4096] := by
  refine ⟨_, _, rfl, fun h => ?_⟩
  have hfits := HashStore.fits_of_inside (by decide) (h.inside _ List.mem_cons_self)
  exact absurd hfits (by decide)

end MetadataService.MemStore
