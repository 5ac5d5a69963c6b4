import MetadataService.HashStore
import Mathlib.Data.List.Perm.Subperm

namespace MetadataService.MetaExchange

open ByteMemory MemStore

structure HashMeta where
  tableId : UInt64
  dataPtr : UInt64
  baseOff : Int64
  bucketNum : UInt64
  nodeSize : UInt64
deriving DecidableEq

def hashMeta (s : HashStore) : HashMeta := ⟨s.tableId, s.dataPtr, s.baseOff, s.bucketNum, 15848⟩

def memStoreMetaEnd : UInt64 := 0xE0FF0E0F

def writeMeta (m : Memory) (off : ℕ) (x : HashMeta) : Memory :=
  let m := writeWord m off x.tableId
  let m := writeWord m (off + 8) x.dataPtr
  let m := writeWord m (off + 16) x.baseOff.toUInt64
  let m := writeWord m (off + 24) x.bucketNum
  writeWord m (off + 32) x.nodeSize

def readMeta (m : Memory) (off : ℕ) : HashMeta where
  tableId := readWord m off
  dataPtr := readWord m (off + 8)
  baseOff := (readWord m (off + 16)).toInt64
  bucketNum := readWord m (off + 24)
  nodeSize := readWord m (off + 32)

def writeMetas (m : Memory) (off : ℕ) : List HashMeta → Memory
  | [] => m
  | x :: xs => writeMetas (writeMeta m off x) (off + 40) xs

structure Message where
  buffer : Memory
  size : ℕ

/-- The message is built in place in fresh memory, whatever that memory holds. -/
def prepareHashMeta (machineId : Int32) (tables : List HashStore) (fresh : Memory) : Message :=
  let metas := tables.map hashMeta
  let m := writeWord fresh 0 (UInt64.ofNat metas.length)
  let m := writeInt m 8 machineId
  let m := writeMetas m 12 metas
  ⟨writeWord m (12 + metas.length * 40) memStoreMetaEnd, 8 + 4 + metas.length * 40 + 8⟩

def recvBuf (msg : Message) (fresh : Memory) : Memory := fun a =>
  if a < msg.size then msg.buffer a else fresh a

inductive Crash
  | outOfBounds
  | fatal
deriving DecidableEq

structure MetaManager where
  primaryHashMetas : UInt64 → Option HashMeta
  primaryTableNodes : UInt64 → Option Int32
  backupHashMetas : Fin 15 → List HashMeta
  backupTableNodes : Fin 15 → List Int32

namespace MetaManager

def empty : MetaManager := ⟨fun _ => none, fun _ => none, fun _ => [], fun _ => []⟩

def addPrimary (mgr : MetaManager) (machineId : Int32) (x : HashMeta) : MetaManager :=
  { mgr with
    primaryHashMetas := Function.update mgr.primaryHashMetas x.tableId (some x)
    primaryTableNodes := Function.update mgr.primaryTableNodes x.tableId (some machineId) }

def addBackup (mgr : MetaManager) (machineId : Int32) (x : HashMeta) : Except Crash MetaManager :=
  if h : x.tableId.toNat < 15 then
    .ok { mgr with
      backupHashMetas := Function.update mgr.backupHashMetas ⟨_, h⟩
        (mgr.backupHashMetas ⟨_, h⟩ ++ [x])
      backupTableNodes := Function.update mgr.backupTableNodes ⟨_, h⟩
        (mgr.backupTableNodes ⟨_, h⟩ ++ [machineId]) }
  else .error .outOfBounds

end MetaManager

def primaryLoop (buf : Memory) (machineId : Int32) : ℕ → ℕ → MetaManager → MetaManager
  | 0, _, mgr => mgr
  | k + 1, off, mgr => primaryLoop buf machineId k (off + 40) (mgr.addPrimary machineId (readMeta buf off))

def backupLoop (buf : Memory) (machineId : Int32) : ℕ → ℕ → MetaManager → Except Crash MetaManager
  | 0, _, mgr => .ok mgr
  | k + 1, off, mgr => do
    let mgr ← mgr.addBackup machineId (readMeta buf off)
    backupLoop buf machineId k (off + 40) mgr

-- The counts of the header are not compared with the size of the buffer: what they lead to is read, also
-- where it lies behind the buffer.
def getMemStoreMeta (recv : Option Memory) (mgr : MetaManager) : Except Crash (Int32 × MetaManager) :=
  match recv with
  | none => .ok (-1, mgr)
  | some buf => do
    let primaryMetaNum := readWord buf 0
    let backupMetaNum := readWord buf 8
    let remoteMachineId := readInt buf 16
    if 100 ≤ remoteMachineId then throw .fatal
    let eof := 20 + 40 * (primaryMetaNum + backupMetaNum)
    if readWord buf eof.toNat = memStoreMetaEnd then
      let mgr := primaryLoop buf remoteMachineId primaryMetaNum.toNat 20 mgr
      let mgr ← backupLoop buf remoteMachineId backupMetaNum.toNat (20 + 40 * primaryMetaNum.toNat) mgr
      return (remoteMachineId, mgr)
    else return (-1, mgr)

section Encoder

theorem writeMeta_outside (m : Memory) (off : ℕ) (x : HashMeta) :
    SameOutside off 40 m (writeMeta m off x) := by
  have word (m : Memory) (k : ℕ) (v : UInt64) (hk : k + 8 ≤ 40) :
      SameOutside off 40 m (writeWord m (off + k) v) :=
    (writeWord_outside m _ v).widen (by omega) (by omega)
  apply SameOutside.trans (word m 0 _ (by omega))
  apply SameOutside.trans (word _ 8 _ (by omega))
  apply SameOutside.trans (word _ 16 _ (by omega))
  apply SameOutside.trans (word _ 24 _ (by omega))
  exact word _ 32 _ (by omega)

theorem writeMetas_outside (m : Memory) (off : ℕ) (xs : List HashMeta) :
    SameOutside off (xs.length * 40) m (writeMetas m off xs) := by
  induction xs generalizing m off with
  | nil => exact SameOutside.refl _ _ _
  | cons x xs ih =>
    rw [List.length_cons]
    apply SameOutside.trans
    · exact (writeMeta_outside m off x).widen (by omega) (by omega)
    · exact (ih (writeMeta m off x) (off + 40)).widen (by omega) (by omega)

variable (machineId : Int32) (tables : List HashStore) (fresh heap : Memory)

theorem recv_word {a : ℕ} (h : a + 8 ≤ 20 + tables.length * 40) :
    readWord (recvBuf (prepareHashMeta machineId tables fresh) heap) a =
      readWord (prepareHashMeta machineId tables fresh).buffer a := by
  apply readWord_congr
  intro i hi
  have hlt : a + i < (prepareHashMeta machineId tables fresh).size := by
    simp only [prepareHashMeta, List.length_map]
    omega
  exact if_pos hlt

theorem recv_num (hlen : 20 + tables.length * 40 ≤ 2 ^ 30) :
    (readWord (recvBuf (prepareHashMeta machineId tables fresh) heap) 0).toNat = tables.length := by
  rw [recv_word machineId tables fresh heap (by omega)]
  have hmetas := writeMetas_outside (writeInt (writeWord fresh 0 (UInt64.ofNat tables.length)) 8 machineId)
    12 (tables.map hashMeta)
  simp only [prepareHashMeta, List.length_map]
  rw [readWord_writeWord_apart _ _ (by omega), readWord_frame hmetas (by omega),
    readWord_frame (writeInt_outside _ _ _) (by omega), readWord_writeWord, UInt64.toNat_ofNat']
  exact Nat.mod_eq_of_lt (by omega)

theorem recv_end :
    readWord (recvBuf (prepareHashMeta machineId tables fresh) heap) (12 + tables.length * 40) =
      memStoreMetaEnd := by
  rw [recv_word machineId tables fresh heap (by omega)]
  simp only [prepareHashMeta, List.length_map, readWord_writeWord]

end Encoder

section Decoder

variable {buf : Memory} {id : Int32} {k off : ℕ} {mgr mgr' : MetaManager}

def metasAt (buf : Memory) : ℕ → ℕ → List HashMeta
  | 0, _ => []
  | k + 1, off => readMeta buf off :: metasAt buf k (off + 40)

theorem metasAt_length (buf : Memory) (k off : ℕ) : (metasAt buf k off).length = k := by
  induction k generalizing off with
  | zero => rfl
  | succ k ih => rw [metasAt, List.length_cons, ih]

theorem readMeta_mem {i : ℕ} (hi : i < k) : readMeta buf (off + i * 40) ∈ metasAt buf k off := by
  induction k generalizing off i with
  | zero => omega
  | succ k ih =>
    rw [metasAt]
    cases i with
    | zero =>
      rw [Nat.zero_mul, Nat.add_zero]
      exact List.mem_cons_self
    | succ i =>
      have he : off + (i + 1) * 40 = off + 40 + i * 40 := by omega
      rw [he]
      exact List.mem_cons_of_mem _ (ih (by omega))

theorem primaryLoop_metas (mgr : MetaManager) {t : UInt64} {x : HashMeta}
    (h : (primaryLoop buf id k off mgr).primaryHashMetas t = some x) :
    mgr.primaryHashMetas t = some x ∨ x ∈ metasAt buf k off := by
  induction k generalizing off mgr with
  | zero => exact Or.inl h
  | succ k ih =>
    rw [metasAt]
    rcases ih _ h with hx | hx
    · by_cases ht : t = (readMeta buf off).tableId
      · subst ht
        simp only [MetaManager.addPrimary, Function.update_self] at hx
        exact Or.inr (Option.some.inj hx ▸ List.mem_cons_self)
      · simp only [MetaManager.addPrimary, Function.update_of_ne ht] at hx
        exact Or.inl hx
    · exact Or.inr (List.mem_cons_of_mem _ hx)

theorem primaryLoop_backups (mgr : MetaManager) :
    (primaryLoop buf id k off mgr).backupHashMetas = mgr.backupHashMetas := by
  induction k generalizing off mgr with
  | zero => rfl
  | succ k ih =>
    rw [primaryLoop, ih]
    rfl

theorem addBackup_ok {x : HashMeta} (h : mgr.addBackup id x = .ok mgr') :
    mgr'.primaryHashMetas = mgr.primaryHashMetas ∧
      (∀ i, (mgr.backupHashMetas i).length ≤ (mgr'.backupHashMetas i).length) ∧
      ∃ i, (mgr.backupHashMetas i).length < (mgr'.backupHashMetas i).length := by
  unfold MetaManager.addBackup at h
  split_ifs at h with ht
  obtain rfl := Except.ok.inj h
  refine ⟨rfl, ?_, ?_⟩
  · intro i
    by_cases hi : i = ⟨_, ht⟩
    · simp [hi]
    · simp [Function.update_of_ne hi]
  · exact ⟨⟨_, ht⟩, by simp⟩

theorem backupLoop_ok (h : backupLoop buf id k off mgr = .ok mgr') :
    mgr'.primaryHashMetas = mgr.primaryHashMetas ∧
      (∀ i, (mgr.backupHashMetas i).length ≤ (mgr'.backupHashMetas i).length) ∧
      (0 < k → ∃ i, (mgr.backupHashMetas i).length < (mgr'.backupHashMetas i).length) := by
  induction k generalizing off mgr with
  | zero =>
    obtain rfl := Except.ok.inj h
    exact ⟨rfl, fun _ => le_rfl, fun h => absurd h (Nat.lt_irrefl 0)⟩
  | succ k ih =>
    obtain ⟨mgr₁, hadd, hrest⟩ := bind_ok.mp h
    obtain ⟨hsame, hle, i, hlt⟩ := addBackup_ok hadd
    obtain ⟨hsame', hle', -⟩ := ih hrest
    exact ⟨hsame'.trans hsame, fun j => (hle j).trans (hle' j), fun _ => ⟨i, hlt.trans_le (hle' i)⟩⟩

theorem getMemStoreMeta_ok {ret : Int32} (h : getMemStoreMeta (some buf) mgr = .ok (ret, mgr')) :
    (ret = -1 ∧ mgr' = mgr) ∨
      backupLoop buf (readInt buf 16) (readWord buf 8).toNat (20 + 40 * (readWord buf 0).toNat)
        (primaryLoop buf (readInt buf 16) (readWord buf 0).toNat 20 mgr) = .ok mgr' ∧
      ret = readInt buf 16 := by
  simp only [getMemStoreMeta] at h
  by_cases hid : 100 ≤ readInt buf 16
  · rw [if_pos hid] at h
    cases h
  rw [if_neg hid] at h
  split_ifs at h with heof
  · obtain ⟨mgr₂, hb, h⟩ := bind_ok.mp h
    obtain ⟨rfl, rfl⟩ := Prod.mk.inj (Except.ok.inj h)
    exact Or.inr ⟨hb, rfl⟩
  · obtain ⟨rfl, rfl⟩ := Prod.mk.inj (Except.ok.inj h)
    exact Or.inl ⟨rfl, rfl⟩

end Decoder

def RoundTrips (machineId : Int32) (tables : List HashStore) (fresh heap : Memory) (mgr : MetaManager) :
    Prop :=
  ∃ mgr', getMemStoreMeta (some (recvBuf (prepareHashMeta machineId tables fresh) heap)) mgr =
      .ok (machineId, mgr') ∧
    (∀ s ∈ tables, mgr'.primaryHashMetas s.tableId = some (hashMeta s) ∧
      mgr'.primaryTableNodes s.tableId = some machineId) ∧
    mgr'.backupHashMetas = mgr.backupHashMetas ∧ mgr'.backupTableNodes = mgr.backupTableNodes

theorem recv_backups (machineId : Int32) (fresh heap : Memory) :
    0 < (readWord (recvBuf (prepareHashMeta machineId [] fresh) heap) 8).toNat := by
  have hend := recv_end machineId [] fresh heap
  generalize recvBuf (prepareHashMeta machineId [] fresh) heap = m at hend
  have h1 := readNat_add m 8 4 4
  have h2 := readNat_add m 12 4 4
  have h3 := readNat_lt m 8 8
  have h4 := readNat_lt m 12 8
  have hend' := congrArg UInt64.toNat hend
  simp only [readWord, UInt64.toNat_ofNat', List.length_nil, Nat.zero_mul, Nat.add_zero,
    memStoreMetaEnd] at hend' ⊢
  simp only [Nat.reduceAdd, Nat.reducePow] at h1 h2 h3 h4 hend' ⊢
  have hval : UInt64.toNat 0xE0FF0E0F = 0xE0FF0E0F := rfl
  omega

theorem recv_last (machineId : Int32) (tables : List HashStore) (fresh heap : Memory)
    (hne : tables ≠ []) :
    ∃ x ∈ metasAt (recvBuf (prepareHashMeta machineId tables fresh) heap) tables.length 20,
      x.nodeSize = memStoreMetaEnd := by
  have hpos := List.length_pos_iff.mpr hne
  refine ⟨_, readMeta_mem (i := tables.length - 1) (by omega), ?_⟩
  have hoff : 20 + (tables.length - 1) * 40 + 32 = 12 + tables.length * 40 := by omega
  rw [readMeta, hoff]
  exact recv_end machineId tables fresh heap

theorem not_roundTrips (machineId : Int32) (h0 : 0 ≤ machineId) (tables : List HashStore)
    (fresh heap : Memory) (mgr : MetaManager) (hid : (tables.map HashStore.tableId).Nodup)
    (hlen : 20 + tables.length * 40 ≤ 2 ^ 30)
    (hnew : ∀ s ∈ tables, mgr.primaryHashMetas s.tableId = none) :
    ¬ RoundTrips machineId tables fresh heap mgr := by
  rintro ⟨mgr', hdec, hmetas, hback, -⟩
  rcases getMemStoreMeta_ok hdec with ⟨rfl, -⟩ | ⟨hbackup, -⟩
  · exact absurd h0 (by decide)
  obtain ⟨hkept, -, hlt⟩ := backupLoop_ok hbackup
  by_cases hne : tables = []
  · subst hne
    obtain ⟨i, hi⟩ := hlt (recv_backups machineId fresh heap)
    rw [hback, primaryLoop_backups] at hi
    exact Nat.lt_irrefl _ hi
  · rw [recv_num machineId tables fresh heap hlen] at hkept
    have hnodup : (tables.map hashMeta).Nodup := by
      apply List.Nodup.of_map HashMeta.tableId
      rw [List.map_map]
      exact hid
    have hsub : tables.map hashMeta ⊆
        metasAt (recvBuf (prepareHashMeta machineId tables fresh) heap) tables.length 20 := by
      intro x hx
      obtain ⟨s, hs, rfl⟩ := List.mem_map.mp hx
      have hget := (hmetas s hs).1
      rw [hkept] at hget
      rcases primaryLoop_metas _ hget with hold | hin
      · rw [hnew s hs] at hold
        cases hold
      · exact hin
    -- as many metas are decoded as were encoded, so the decoded ones are the encoded ones
    have hperm := (hnodup.subperm hsub).perm_of_length_le
      (by rw [metasAt_length, List.length_map])
    obtain ⟨x, hx, hend⟩ := recv_last machineId tables fresh heap hne
    obtain ⟨s, -, rfl⟩ := List.mem_map.mp (hperm.mem_iff.mpr hx)
    exact absurd hend (by decide : (15848 : UInt64) ≠ memStoreMetaEnd)

def sampleTable (tableId : UInt64) : HashStore := ⟨tableId, 0, 3, 4096, 0, 47544, 4096⟩

theorem not_roundTrips_two_tables :
    ¬ RoundTrips 1 [sampleTable 1, sampleTable 2] (fun _ => 0) (fun _ => 0) MetaManager.empty :=
  not_roundTrips 1 (by decide) _ _ _ _ (by decide) (by decide) fun _ _ => rfl

theorem one_table_rejected :
    ¬ RoundTrips 1 [sampleTable 0] (fun _ => 0) (fun _ => 0) MetaManager.empty := by
  rintro ⟨mgr', hdec, -⟩
  have hret : (getMemStoreMeta (some (recvBuf (prepareHashMeta 1 [sampleTable 0] fun _ => 0) fun _ => 0))
      MetaManager.empty).toOption.map Prod.fst = some (-1) := by decide +kernel
  rw [hdec] at hret
  have heq : (1 : Int32) = -1 := Option.some.inj hret
  exact absurd heq (by decide)

end MetadataService.MetaExchange
