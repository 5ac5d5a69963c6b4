import Mathlib.Data.Nat.Basic
import Mathlib.Tactic.Ring

namespace MetadataService.ByteMemory

abbrev Memory := ℕ → UInt8

def byteOf (v i : ℕ) : UInt8 := UInt8.ofNat (v / 256 ^ i)

def readNat (m : Memory) : ℕ → ℕ → ℕ
  | _, 0 => 0
  | a, n + 1 => (m a).toNat + 256 * readNat m (a + 1) n

def writeNat (m : Memory) (a n v : ℕ) : Memory := fun b =>
  if a ≤ b ∧ b < a + n then byteOf v (b - a) else m b

def readWord (m : Memory) (a : ℕ) : UInt64 := UInt64.ofNat (readNat m a 8)

def writeWord (m : Memory) (a : ℕ) (v : UInt64) : Memory := writeNat m a 8 v.toNat

def readInt (m : Memory) (a : ℕ) : Int32 := (UInt32.ofNat (readNat m a 4)).toInt32

def writeInt (m : Memory) (a : ℕ) (v : Int32) : Memory := writeNat m a 4 v.toUInt32.toNat

def writeByte (m : Memory) (a : ℕ) (x : UInt8) : Memory := fun b => if b = a then x else m b

def fill (m : Memory) (a n : ℕ) (x : UInt8) : Memory := fun b =>
  if a ≤ b ∧ b < a + n then x else m b

def writeVector {n : ℕ} (m : Memory) (a : ℕ) (v : Vector UInt8 n) : Memory := fun b =>
  if h : a ≤ b ∧ b < a + n then v[b - a] else m b

def readVector (m : Memory) (a n : ℕ) : Vector UInt8 n := Vector.ofFn fun i => m (a + i)

def SameOutside (a n : ℕ) (m m' : Memory) : Prop := ∀ b, b < a ∨ a + n ≤ b → m' b = m b

theorem SameOutside.refl (a n : ℕ) (m : Memory) : SameOutside a n m m := fun _ _ => rfl

theorem SameOutside.trans {a n : ℕ} {m m' m'' : Memory} (h : SameOutside a n m m')
    (h' : SameOutside a n m' m'') : SameOutside a n m m'' :=
  fun b hb => (h' b hb).trans (h b hb)

theorem SameOutside.widen {a n c k : ℕ} {m m' : Memory} (h : SameOutside a n m m')
    (ha : c ≤ a) (hn : a + n ≤ c + k) : SameOutside c k m m' :=
  fun b hb => h b (by omega)

theorem writeNat_outside (m : Memory) (a n v : ℕ) : SameOutside a n m (writeNat m a n v) := by
  intro b hb
  simp only [writeNat, if_neg (show ¬ (a ≤ b ∧ b < a + n) by omega)]

theorem writeWord_outside (m : Memory) (a : ℕ) (v : UInt64) :
    SameOutside a 8 m (writeWord m a v) := writeNat_outside m a 8 _

theorem writeInt_outside (m : Memory) (a : ℕ) (v : Int32) :
    SameOutside a 4 m (writeInt m a v) := writeNat_outside m a 4 _

theorem writeByte_outside (m : Memory) (a : ℕ) (x : UInt8) : SameOutside a 1 m (writeByte m a x) := by
  intro b hb
  simp only [writeByte, if_neg (show b ≠ a by omega)]

theorem fill_outside (m : Memory) (a n : ℕ) (x : UInt8) : SameOutside a n m (fill m a n x) := by
  intro b hb
  simp only [fill, if_neg (show ¬ (a ≤ b ∧ b < a + n) by omega)]

theorem writeVector_outside {n : ℕ} (m : Memory) (a : ℕ) (v : Vector UInt8 n) :
    SameOutside a n m (writeVector m a v) := by
  intro b hb
  simp only [writeVector, dif_neg (show ¬ (a ≤ b ∧ b < a + n) by omega)]

theorem fill_inside (m : Memory) {a n b : ℕ} (x : UInt8) (ha : a ≤ b) (hb : b < a + n) :
    fill m a n x b = x := if_pos ⟨ha, hb⟩

@[simp] theorem writeByte_self (m : Memory) (a : ℕ) (x : UInt8) : writeByte m a x a = x := if_pos rfl

theorem readNat_congr {m m' : Memory} {a n : ℕ} (h : ∀ i < n, m' (a + i) = m (a + i)) :
    readNat m' a n = readNat m a n := by
  induction n generalizing a with
  | zero => rfl
  | succ n ih =>
    have h0 := h 0 (Nat.succ_pos n)
    have ht := ih (a := a + 1) (fun i hi => by
      have := h (i + 1) (by omega)
      rwa [show a + (i + 1) = a + 1 + i by omega] at this)
    simp only [Nat.add_zero] at h0
    simp only [readNat, h0, ht]

theorem readNat_frame {m m' : Memory} {a n b k : ℕ} (h : SameOutside a n m m')
    (hd : b + k ≤ a ∨ a + n ≤ b) : readNat m' b k = readNat m b k :=
  readNat_congr fun i hi => h _ (by omega)

theorem readWord_congr {m m' : Memory} {a : ℕ} (h : ∀ i < 8, m' (a + i) = m (a + i)) :
    readWord m' a = readWord m a := by
  rw [readWord, readNat_congr h, readWord]

theorem readWord_frame {m m' : Memory} {a n b : ℕ} (h : SameOutside a n m m')
    (hd : b + 8 ≤ a ∨ a + n ≤ b) : readWord m' b = readWord m b := by
  rw [readWord, readNat_frame h hd, readWord]

theorem byteOf_succ (v i : ℕ) : byteOf v (i + 1) = byteOf (v / 256) i := by
  rw [byteOf, byteOf, pow_succ', Nat.div_div_eq_div_mul]

theorem readNat_of_bytes {m : Memory} {a n v : ℕ} (h : ∀ i < n, m (a + i) = byteOf v i) :
    readNat m a n = v % 256 ^ n := by
  induction n generalizing a v with
  | zero => simp [readNat, Nat.mod_one]
  | succ n ih =>
    have h0 := h 0 (Nat.succ_pos n)
    have ht := ih (a := a + 1) (v := v / 256) (fun i hi => by
      have := h (i + 1) (by omega)
      rwa [byteOf_succ, show a + (i + 1) = a + 1 + i by omega] at this)
    simp only [Nat.add_zero, byteOf, pow_zero, Nat.div_one] at h0
    have hv : v % 256 ^ (n + 1) = v % 256 + 256 * (v / 256 % 256 ^ n) := by
      rw [pow_succ', Nat.mod_mul]
    rw [readNat, h0, ht, hv, UInt8.toNat_ofNat']

theorem readNat_writeNat (m : Memory) (a n v : ℕ) : readNat (writeNat m a n v) a n = v % 256 ^ n :=
  readNat_of_bytes fun i hi => by
    simp only [writeNat, if_pos (show a ≤ a + i ∧ a + i < a + n by omega), Nat.add_sub_cancel_left]

@[simp] theorem readWord_writeWord (m : Memory) (a : ℕ) (v : UInt64) :
    readWord (writeWord m a v) a = v := by
  have hv : v.toNat % 256 ^ 8 = v.toNat := Nat.mod_eq_of_lt v.toNat_lt
  rw [readWord, writeWord, readNat_writeNat, hv, UInt64.ofNat_toNat]

theorem readNat_add (m : Memory) (a n k : ℕ) :
    readNat m a (n + k) = readNat m a n + 256 ^ n * readNat m (a + n) k := by
  induction n generalizing a with
  | zero => simp [readNat]
  | succ n ih =>
    rw [Nat.succ_add, readNat, ih, readNat, show a + 1 + n = a + (n + 1) by omega, pow_succ]
    ring

theorem readNat_lt (m : Memory) (a n : ℕ) : readNat m a n < 256 ^ n := by
  induction n generalizing a with
  | zero => simp [readNat]
  | succ n ih =>
    have hb : (m a).toNat < 256 := UInt8.toNat_lt _
    have ht := ih (a + 1)
    have hp : 256 ^ (n + 1) = 256 ^ n * 256 := pow_succ _ _
    simp only [readNat]
    omega

theorem readNat_inj {m m' : Memory} {a n : ℕ} (h : readNat m' a n = readNat m a n) :
    ∀ i < n, m' (a + i) = m (a + i) := by
  induction n generalizing a with
  | zero => simp
  | succ n ih =>
    have hlt := (m a).toNat_lt
    have hlt' := (m' a).toNat_lt
    rw [readNat, readNat] at h
    intro i hi
    cases i with
    | zero =>
      rw [Nat.add_zero]
      exact UInt8.toNat_inj.mp (by omega)
    | succ i =>
      have hrest := ih (a := a + 1) (by omega) i (by omega)
      rwa [Nat.add_assoc, Nat.add_comm 1 i] at hrest

theorem readWord_inj {m m' : Memory} {a : ℕ} (h : readWord m' a = readWord m a) :
    ∀ i < 8, m' (a + i) = m (a + i) := by
  apply readNat_inj
  have hnat := congrArg UInt64.toNat h
  have hlt : ∀ m : Memory, readNat m a 8 < 2 ^ 64 := fun m => readNat_lt m a 8
  rwa [readWord, readWord, UInt64.toNat_ofNat', UInt64.toNat_ofNat', Nat.mod_eq_of_lt (hlt m'),
    Nat.mod_eq_of_lt (hlt m)] at hnat

theorem readNat_fill_zero (m : Memory) {a n b k : ℕ} (ha : a ≤ b) (hb : b + k ≤ a + n) :
    readNat (fill m a n 0) b k = 0 := by
  have h : readNat (fill m a n 0) b k = 0 % 256 ^ k := readNat_of_bytes fun i hi => by
    rw [fill_inside m 0 (by omega) (by omega), byteOf, Nat.zero_div]
    rfl
  rw [h, Nat.zero_mod]

theorem readVector_writeVector {n : ℕ} (m : Memory) (a : ℕ) (v : Vector UInt8 n) :
    readVector (writeVector m a v) a n = v := by
  ext i hi
  simp only [readVector, Vector.getElem_ofFn, writeVector]
  rw [dif_pos ⟨by omega, by omega⟩]
  simp only [Nat.add_sub_cancel_left]

theorem readVector_congr {m m' : Memory} {a n : ℕ} (h : ∀ i < n, m' (a + i) = m (a + i)) :
    readVector m' a n = readVector m a n := by
  ext i hi
  simp only [readVector, Vector.getElem_ofFn]
  rw [h i hi]

theorem readVector_frame {m m' : Memory} {a n b k : ℕ} (h : SameOutside a n m m')
    (hd : b + k ≤ a ∨ a + n ≤ b) : readVector m' b k = readVector m b k :=
  readVector_congr fun i hi => h _ (by omega)

section Frames

variable (m : Memory) {a b k n : ℕ} (v : UInt64) (x : UInt8) (w : Vector UInt8 n)

theorem readWord_writeWord_apart (h : b + 8 ≤ a ∨ a + 8 ≤ b) :
    readWord (writeWord m a v) b = readWord m b := readWord_frame (writeWord_outside m a v) h

theorem readWord_writeByte_apart (h : b + 8 ≤ a ∨ a + 1 ≤ b) :
    readWord (writeByte m a x) b = readWord m b := readWord_frame (writeByte_outside m a x) h

theorem readWord_writeVector_apart (h : b + 8 ≤ a ∨ a + n ≤ b) :
    readWord (writeVector m a w) b = readWord m b := readWord_frame (writeVector_outside m a w) h

theorem readVector_writeWord_apart (h : b + k ≤ a ∨ a + 8 ≤ b) :
    readVector (writeWord m a v) b k = readVector m b k :=
  readVector_frame (writeWord_outside m a v) h

theorem readVector_writeByte_apart (h : b + k ≤ a ∨ a + 1 ≤ b) :
    readVector (writeByte m a x) b k = readVector m b k :=
  readVector_frame (writeByte_outside m a x) h

theorem writeWord_apply_apart (h : b < a ∨ a + 8 ≤ b) : writeWord m a v b = m b :=
  writeWord_outside m a v b h

theorem writeByte_apply_apart (h : b < a ∨ a + 1 ≤ b) : writeByte m a x b = m b :=
  writeByte_outside m a x b h

end Frames

end MetadataService.ByteMemory
