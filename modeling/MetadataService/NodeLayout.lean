import MetadataService.MemoryNode

namespace MetadataService.MemStore

open ByteMemory LinkedChain Loops

def Apart (x y : UInt64) : Prop := x.toNat + 15848 ≤ y.toNat ∨ y.toNat + 15848 ≤ x.toNat

structure Separated (N : Set UInt64) : Prop where
  space : ∀ x ∈ N, x.toNat + 15848 ≤ 2 ^ 64
  apart : ∀ x ∈ N, ∀ y ∈ N, x = y ∨ Apart x y

section Slots

variable {N : Set UInt64} {x y p q : UInt64} {m m' : Memory}

theorem slotPtr_toNat (hx : x.toNat + 15848 ≤ 2 ^ 64) {i : ℕ} (hi : i < 22) :
    (slotPtr x i).toNat = x.toNat + i * 720 := by
  rw [slotPtr, UInt64.toNat_add, UInt64.toNat_ofNat', Nat.mod_eq_of_lt (a := i * 720) (by omega)]
  exact Nat.mod_eq_of_lt (by omega)

theorem slotPtr_zero (x : UInt64) : slotPtr x 0 = x := by
  rw [slotPtr, Nat.zero_mul]
  exact UInt64.add_zero x

theorem mem_slotsOf : p ∈ slotsOf x ↔ ∃ i < 22, p = slotPtr x i := by
  simp only [slotsOf, List.mem_map, List.mem_range, eq_comm]

theorem slot_offset (hx : x.toNat + 15848 ≤ 2 ^ 64) (hp : p ∈ slotsOf x) :
    ∃ i < 22, p.toNat = x.toNat + i * 720 := by
  obtain ⟨i, hi, rfl⟩ := mem_slotsOf.mp hp
  exact ⟨i, hi, slotPtr_toNat hx hi⟩

theorem itemAt_valid (m : Memory) (p : UInt64) : (itemAt m p).valid = m (p.toNat + 712) := rfl

theorem mem_slots {ns : List UInt64} : p ∈ slots ns ↔ ∃ x ∈ ns, p ∈ slotsOf x := List.mem_flatMap

theorem Separated.slots_apart (S : Separated N) (hx : x ∈ N) (hy : y ∈ N) (hp : p ∈ slotsOf x)
    (hq : q ∈ slotsOf y) (hne : p ≠ q) : p.toNat + 720 ≤ q.toNat ∨ q.toNat + 720 ≤ p.toNat := by
  obtain ⟨i, hi, hpi⟩ := slot_offset (S.space x hx) hp
  obtain ⟨j, hj, hqj⟩ := slot_offset (S.space y hy) hq
  have hne' : p.toNat ≠ q.toNat := fun h => hne (UInt64.toNat_inj.mp h)
  rcases S.apart x hx y hy with rfl | h
  · have : i ≠ j := by rintro rfl; omega
    omega
  · unfold Apart at h
    omega

theorem Separated.slot_inside (S : Separated N) (hx : x ∈ N) (hp : p ∈ slotsOf x) :
    x.toNat ≤ p.toNat ∧ p.toNat + 720 ≤ x.toNat + 15840 := by
  obtain ⟨i, hi, hpi⟩ := slot_offset (S.space x hx) hp
  omega

theorem Separated.node_eq (S : Separated N) (hx : x ∈ N) (hy : y ∈ N) (hpx : p ∈ slotsOf x)
    (hpy : p ∈ slotsOf y) : x = y := by
  have h1 := S.slot_inside hx hpx
  have h2 := S.slot_inside hy hpy
  rcases S.apart x hx y hy with h | h
  · exact h
  · unfold Apart at h
    omega

theorem Separated.next_of_slot_write (S : Separated N) (hx : x ∈ N) (hp : p ∈ slotsOf x)
    (hm : SameOutside p.toNat 714 m m') (hy : y ∈ N) : nextOf m' y = nextOf m y := by
  have h1 := S.slot_inside hx hp
  apply readWord_frame hm
  rcases S.apart x hx y hy with rfl | h
  · omega
  · unfold Apart at h
    omega

theorem Separated.item_of_slot_write (S : Separated N) (hx : x ∈ N) (hp : p ∈ slotsOf x)
    (hm : SameOutside p.toNat 714 m m') (hy : y ∈ N) (hq : q ∈ slotsOf y) (hne : q ≠ p) :
    itemAt m' q = itemAt m q := by
  have h1 := S.slots_apart hx hy hp hq (Ne.symm hne)
  exact loadItem_frame hm (by omega)

theorem Separated.mono {M : Set UInt64} (S : Separated N) (h : M ⊆ N) : Separated M :=
  ⟨fun x hx => S.space x (h hx), fun x hx y hy => S.apart x (h hx) y (h hy)⟩

theorem Separated.insert (S : Separated N) (hx : x.toNat + 15848 ≤ 2 ^ 64)
    (ha : ∀ y ∈ N, Apart x y) : Separated (N ∪ {x}) := by
  refine ⟨?_, ?_⟩
  · rintro y (hy | rfl)
    · exact S.space y hy
    · exact hx
  · rintro y (hy | rfl) z (hz | rfl)
    · exact S.apart y hy z hz
    · exact Or.inr (ha y hy).symm
    · exact Or.inr (ha z hz)
    · exact Or.inl rfl

end Slots

section Linking

variable {m : Memory} {l x y p : UInt64} {d : DataItem}

theorem linkNode_outside (b : ℕ) (hx : b < x.toNat ∨ x.toNat + 15848 ≤ b)
    (hl : b < l.toNat + 15840 ∨ l.toNat + 15848 ≤ b) : linkNode m l x d b = m b := by
  unfold linkNode
  rw [writeWord_outside _ _ _ _ hl, writeWord_outside _ _ _ _ (by omega),
    setValid_outside _ _ _ _ (by omega), storeItem_outside _ _ _ _ (by omega),
    fill_outside _ _ _ _ _ hx]

theorem linkNode_next_last : nextOf (linkNode m l x d) l = x := by
  rw [nextOf, linkNode, readWord_writeWord]

theorem linkNode_next_new (hx : Apart x l) : nextOf (linkNode m l x d) x = 0 := by
  unfold Apart at hx
  rw [nextOf, linkNode, readWord_writeWord_apart _ _ (by omega), readWord_writeWord]

theorem linkNode_next_old (hx : Apart x y) (hl : Apart l y) :
    nextOf (linkNode m l x d) y = nextOf m y := by
  unfold Apart at hx hl
  exact readWord_congr fun i hi => linkNode_outside _ (by omega) (by omega)

theorem linkNode_item_old (S : Separated {l, y}) (hx : Apart x y) (hp : p ∈ slotsOf y) :
    itemAt (linkNode m l x d) p = itemAt m p := by
  have h1 := S.slot_inside (by simp) hp
  have h2 := S.apart l (by simp) y (by simp)
  apply loadItem_congr
  intro i hi
  unfold Apart at hx h2
  apply linkNode_outside
  · omega
  · rcases h2 with rfl | h2 <;> omega

theorem linkNode_item_first (hl : Apart x l) :
    itemAt (linkNode m l x d) (slotPtr x 0) = { d with valid := 1 } := by
  unfold Apart at hl
  rw [slotPtr_zero, itemAt, linkNode, loadItem_frame (writeWord_outside _ _ _) (by omega),
    loadItem_frame (writeWord_outside _ _ _) (by omega), loadItem_setValid, loadItem_storeItem]

theorem linkNode_item_rest (hl : Apart x l) (hx : x.toNat + 15848 ≤ 2 ^ 64) (hp : p ∈ slotsOf x)
    (hne : p ≠ slotPtr x 0) : (itemAt (linkNode m l x d) p).valid = 0 := by
  obtain ⟨i, hi, rfl⟩ := mem_slotsOf.mp hp
  have h0 : i ≠ 0 := by rintro rfl; exact hne rfl
  unfold Apart at hl
  rw [itemAt_valid, slotPtr_toNat hx hi]
  unfold linkNode
  rw [writeWord_outside _ _ _ _ (by omega), writeWord_outside _ _ _ _ (by omega),
    setValid_outside _ _ _ _ (by omega), storeItem_outside _ _ _ _ (by omega),
    fill_inside _ _ (by omega) (by omega)]

end Linking

end MetadataService.MemStore
