import MetadataService.LoadedTables
import MetadataService.MapRefinement

namespace MetadataService.MemStore

open ByteMemory LinkedChain Loops

def Op.loaded : Op → Option (List UInt8)
  | .load _ _ val _ => some val
  | _ => none

def LoadRecordCall (h : List (Op × Reply)) : Op → Prop
  | .build _ _ => True
  | .insert _ _ _ => False
  | .put _ _ _ => False
  | .load i key _ _ => latest Op.loaded h i key = none
  | .delete _ _ => True

instance (h : List (Op × Reply)) (op : Op) : Decidable (LoadRecordCall h op) :=
  match op with
  | .build _ _ => inferInstanceAs (Decidable True)
  | .insert _ _ _ => inferInstanceAs (Decidable False)
  | .put _ _ _ => inferInstanceAs (Decidable False)
  | .load i key _ _ => inferInstanceAs (Decidable (latest Op.loaded h i key = none))
  | .delete _ _ => inferInstanceAs (Decidable True)

def DataItem.bytes (d : DataItem) : List UInt8 := d.value.toList.take d.valueSize.toNat

theorem valueSize_loaded (s : HashStore) (p tableId : UInt64) {val : List UInt8} (key : UInt64)
    (stack : Vector UInt8 664) (hv : val.length ≤ 664) :
    (s.loadedItem p tableId val key stack).valueSize.toNat = val.length := by
  rw [HashStore.loadedItem, ofLoad, UInt64.toNat_ofNat']
  exact Nat.mod_eq_of_lt (by omega)

theorem bytes_loaded (s : HashStore) (p tableId : UInt64) {val : List UInt8} (key : UInt64)
    (stack : Vector UInt8 664) (hv : val.length ≤ 664) :
    (s.loadedItem p tableId val key stack).bytes = val := by
  rw [DataItem.bytes, valueSize_loaded s p tableId key stack hv]
  simp only [HashStore.loadedItem, ofLoad]
  apply List.ext_getElem
  · rw [List.length_take, Vector.length_toList]
    omega
  · intro i hi hi'
    rw [List.getElem_take, Vector.getElem_toList, Vector.getElem_ofFn]
    exact (List.getElem_eq_getD _).symm

def rdmaItem (m : Memory) (regionStart offset : UInt64) : DataItem :=
  loadItem (fun a => m ((regionStart + offset).toNat + a)) 0

namespace MemoryNode

variable {n n' : MemoryNode} {C C' : UInt64 → List UInt64} {s : HashStore} {h : List (Op × Reply)}
  {op : Op} {r : Reply} {i : ℕ} {p key : UInt64}

theorem Run.strengthen {ok ok' : List (Op × Reply) → Op → Prop} {n₀ : MemoryNode}
    (hok : ∀ h op (n n' : MemoryNode) r, ok h op → n.Step op n' r → ok' h op) (hrun : Run ok n₀ h n) :
    Run ok' n₀ h n := by
  induction hrun with
  | start => exact .start
  | step _ hcall hstep ih => exact .step ih (hok _ _ _ _ _ hcall hstep) hstep

def Fits : Op → Prop
  | .load _ _ val _ => val.length ≤ 664
  | _ => True

theorem Step.fits (hstep : n.Step op n' r) : Fits op := by
  obtain ⟨⟨fuel, hexec⟩, -⟩ := hstep
  cases op with
  | load i key val stack =>
    obtain ⟨s, -, hexec⟩ := bind_ok.mp hexec
    obtain ⟨q, hq, -⟩ := bind_ok.mp hexec
    exact (require_bind.mp hq).1
  | build _ _ => trivial
  | insert _ _ _ => trivial
  | put _ _ _ => trivial
  | delete _ _ => trivial

structure Addressed (s : HashStore) (_ p : UInt64) (d : DataItem) : Prop where
  table : d.tableId = s.tableId
  offset : d.remoteOffset = s.getItemRemoteOffset p
  size : d.valueSize.toNat ≤ 664

theorem Addressed.of_shape {s t : HashStore} {b p : UInt64} {d : DataItem} (he : s.shape = t.shape)
    (h : Addressed s b p d) : Addressed t b p d := by
  have hid := congrArg HashStore.tableId he
  refine ⟨Eq.trans h.table hid, ?_, h.size⟩
  rw [h.offset, HashStore.getItemRemoteOffset, HashStore.getItemRemoteOffset,
    HashStore.regionStartPtr_shape he]

structure Recorded (h : List (Op × Reply)) (n : MemoryNode) (C : UInt64 → List UInt64) : Prop where
  keyed : Keyed n C
  agrees : Agrees Op.loaded DataItem.bytes h n C
  addressed : Holds Addressed n C

theorem Recorded.proper (R : Recorded h n C) (hok : LoadRecordCall h op) : Proper n C op := by
  cases op with
  | build _ _ => trivial
  | insert _ _ _ => exact hok.elim
  | put _ _ _ => exact hok.elim
  | load i key val stack => exact fun s hs => R.agrees.lookup_none hs hok
  | delete _ _ => trivial

theorem LoadRecordCall.tracks (hok : LoadRecordCall h op) (hfit : Fits op) :
    Tracks Op.loaded DataItem.bytes n op := by
  cases op with
  | build _ _ => trivial
  | insert _ _ _ => exact hok.elim
  | put _ _ _ => exact hok.elim
  | load i key val stack => exact fun s p _ => congrArg some (bytes_loaded s p _ key stack hfit).symm
  | delete _ _ => rfl

theorem Recorded.addressed_step (R : Recorded h n C) (L : Layout n C) (L' : Layout n' C')
    (hok : LoadRecordCall h op) (hfit : Fits op) (hE : Effect n n' C C' op r) : Holds Addressed n' C' := by
  have shape := fun (s t : HashStore) (b p : UInt64) (d : DataItem) => @Addressed.of_shape s t b p d
  cases hE with
  | build _ hB => exact R.addressed.built hB
  | insert _ _ _ => exact hok.elim
  | putOld _ _ _ => exact hok.elim
  | putNew _ _ _ _ => exact hok.elim
  | load hs S _ =>
    apply R.addressed.stored shape L L' hs S
    intro _
    exact ⟨rfl, rfl, (valueSize_loaded _ _ _ _ _ hfit).trans_le hfit⟩
  | deleteOld hs _ S => exact R.addressed.stored shape L L' hs S fun hv => absurd rfl hv
  | deleteNone _ _ hn hC => exact hn ▸ hC ▸ R.addressed

theorem Run.recorded {n₀ : MemoryNode} (hf : Fresh n₀) (hrun : Run LoadRecordCall n₀ h n) :
    ∃ C, Layout n C ∧ Recorded h n C := by
  have hfit : Run (fun h op => LoadRecordCall h op ∧ Fits op) n₀ h n :=
    hrun.strengthen fun _ _ _ _ _ hok hstep => ⟨hok, hstep.fits⟩
  apply hfit.invariant hf
  · intro C
    refine ⟨hf.keyed C, hf.agrees C, ?_⟩
    intro s hs
    obtain ⟨i, hi⟩ := table_of_mem hs
    exact absurd hi (hf.table_ne i s)
  · intro h n n' C C' op r hok L L' hE R
    have hp := R.proper hok.1
    exact ⟨R.keyed.step L L' hp hE, R.agrees.step R.keyed L L' hp (LoadRecordCall.tracks hok.1 hok.2) hE,
      R.addressed_step L L' hok.1 hok.2 hE⟩

def lockAddr (n : MemoryNode) (d : DataItem) : ℕ := (n.alloc.memRegionStart + getRemoteLockAddr d).toNat

def versionAddr (n : MemoryNode) (d : DataItem) : ℕ :=
  (n.alloc.memRegionStart + getRemoteVersionAddr d).toNat

/-- What the item of slot `p` of table `i` says about itself, and where its offsets lead. -/
structure SelfAddressed (h : List (Op × Reply)) (n : MemoryNode) (i : ℕ) (s : HashStore) (p : UInt64)
    (d : DataItem) : Prop where
  offset : d.remoteOffset = (p - n.alloc.memRegionStart).toInt64
  table : d.tableId = s.tableId
  home : ∃ x, Reach (nextOf n.mem) 0 (s.bucket (s.getHash d.key)) x ∧ p ∈ slotsOf x
  value : latest Op.loaded h i d.key = some d.bytes ∧ d.bytes.length = d.valueSize.toNat
  read : rdmaItem n.mem n.alloc.memRegionStart d.remoteOffset.toUInt64 = d
  lock : readWord n.mem (n.lockAddr d) = d.lock ∧
    ∀ v, itemAt (writeWord n.mem (n.lockAddr d) v) p = { d with lock := v }
  version : readWord n.mem (n.versionAddr d) = d.version ∧
    ∀ v, itemAt (writeWord n.mem (n.versionAddr d) v) p = { d with version := v }

def SelfAddressing (h : List (Op × Reply)) (n : MemoryNode) : Prop :=
  ∀ i s, n.table i = .ok s → ∀ p, s.Slot n.mem p → (itemAt n.mem p).valid ≠ 0 →
    SelfAddressed h n i s p (itemAt n.mem p)

theorem Layout.slot_room (L : Layout n C) (hs : s ∈ n.tables) (hp : s.Slot n.mem p) :
    p.toNat + 720 < 2 ^ 64 := by
  obtain ⟨b, -, hr, hpb⟩ := L.slot_mem hs hp
  obtain ⟨x, hx, -, hpx⟩ := slot_node hr hpb
  have hin := L.separated.slot_inside hx hpx
  have hspace := L.separated.space x hx
  omega

theorem region_addr (start p : UInt64) {k : UInt64} (hk : p.toNat + k.toNat < 2 ^ 64) :
    (start + ((p - start).toInt64.toUInt64 + k)).toNat = p.toNat + k.toNat := by
  have hp : start + ((p - start).toInt64.toUInt64 + k) = p + k := by
    rw [UInt64.toUInt64_toInt64]
    grind
  rw [hp, UInt64.toNat_add]
  exact Nat.mod_eq_of_lt hk

theorem region_item (m : Memory) (start p : UInt64) :
    rdmaItem m start (p - start).toInt64.toUInt64 = itemAt m p := by
  have hp : start + (p - start).toInt64.toUInt64 = p := by
    rw [UInt64.toUInt64_toInt64]
    grind
  rw [rdmaItem, hp]
  exact loadItem_shift m p.toNat

theorem Recorded.selfAddressed (R : Recorded h n C) (L : Layout n C) (hs : n.table i = .ok s)
    (hp : s.Slot n.mem p) (hv : (itemAt n.mem p).valid ≠ 0) :
    SelfAddressed h n i s p (itemAt n.mem p) := by
  have hmem := table_mem hs
  have hroom := L.slot_room hmem hp
  obtain ⟨b, hb, x, hx, hpx⟩ := hp
  have hr : s.bucket b ∈ n.roots := ⟨s, hmem, b, hb, rfl⟩
  have hpb : p ∈ slots (C (s.bucket b)) := mem_slots.mpr ⟨x, L.reach_mem hr hx, hpx⟩
  obtain ⟨hid, hoff, hsize⟩ := R.addressed s hmem b hb p hpb hv
  have hhome : s.getHash (itemAt n.mem p).key = b := R.keyed.home s hmem b hb p hpb hv
  rw [HashStore.getItemRemoteOffset, (L.area s hmem).region] at hoff
  have hlookup : lookup n.mem (C (s.bucket (s.getHash (itemAt n.mem p).key))) (itemAt n.mem p).key =
      some p := by
    rw [hhome]
    apply lookup_eq_some hpb (holds_iff.mpr ⟨hv, rfl⟩)
    intro q hq hne
    by_contra hh
    rw [Bool.not_eq_false, holds_iff] at hh
    exact hne (R.keyed.once _ hr q hq p hpb hh.1 hv hh.2)
  have hlatest := R.agrees.item i s (itemAt n.mem p).key hs
  rw [hlookup, Option.map_some] at hlatest
  have hlock : n.lockAddr (itemAt n.mem p) = p.toNat + 40 := by
    rw [lockAddr, getRemoteLockAddr, hoff]
    exact region_addr _ p (k := 40) (by change p.toNat + 40 < _; omega)
  have hversion : n.versionAddr (itemAt n.mem p) = p.toNat + 32 := by
    rw [versionAddr, getRemoteVersionAddr, hoff]
    exact region_addr _ p (k := 32) (by change p.toNat + 32 < _; omega)
  refine ⟨hoff, hid, ?_, ⟨hlatest.symm, ?_⟩, ?_, ?_, ?_⟩
  · rw [hhome]
    exact ⟨x, hx, hpx⟩
  · rw [DataItem.bytes, List.length_take, Vector.length_toList]
    omega
  · rw [hoff]
    exact region_item n.mem _ p
  · rw [hlock]
    exact ⟨rfl, fun v => loadItem_write_lock n.mem p.toNat v⟩
  · rw [hversion]
    exact ⟨rfl, fun v => loadItem_write_version n.mem p.toNat v⟩

theorem run_selfAddressing {n₀ : MemoryNode} (hf : Fresh n₀) (hrun : Run LoadRecordCall n₀ h n) :
    SelfAddressing h n := by
  obtain ⟨C, L, R⟩ := hrun.recorded hf
  intro i s hs p hp hv
  exact R.selfAddressed L hs hp hv

theorem run_selfAddressing_reused_slot :
    ∃ h n s, Run LoadRecordCall smallNode h n ∧ n.table 0 = .ok s ∧ s.Slot n.mem 4096 ∧
      (itemAt n.mem 4096).key = 6 ∧ (itemAt n.mem 4096).valid ≠ 0 ∧
      SelfAddressed h n 0 s 4096 (itemAt n.mem 4096) := by
  obtain ⟨h, n, hrun, hl⟩ := replay_any LoadRecordCall 3 smallNode
    [.build 1 1, .load 0 5 [1, 2] (Vector.replicate 664 0), .load 0 7 [3] (Vector.replicate 664 0),
      .delete 0 5, .load 0 6 [4, 5, 6] (Vector.replicate 664 9)]
    (fun _ n => (itemAt n.mem 4096).key == 6 && (itemAt n.mem 4096).valid != 0 && match n.tables with
      | [s] => s.bucketNum == 1 && s.bucket 0 == 4096
      | _ => false) (by decide +kernel)
  simp only [Bool.and_eq_true, beq_iff_eq, bne_iff_ne] at hl
  obtain ⟨⟨hk, hv⟩, ht⟩ := hl
  split at ht
  · rename_i s hs
    simp only [Bool.and_eq_true, beq_iff_eq] at ht
    have htable : n.table 0 = .ok s := table_ok.mpr (by rw [hs]; rfl)
    have hslot : s.Slot n.mem 4096 := by
      refine ⟨0, by rw [ht.1]; decide, 4096, ?_, mem_slotsOf.mpr ⟨0, by decide, by decide⟩⟩
      rw [ht.2]
      exact .here (by decide)
    exact ⟨h, n, s, hrun, htable, hslot, hk, hv,
      run_selfAddressing smallNode_fresh hrun 0 s htable 4096 hslot hv⟩
  · cases ht

end MemoryNode

end MetadataService.MemStore
