import Mathlib.Data.Nat.Size
import Mathlib.Order.Bounds.Defs
import MetadataService.HashStore

namespace MetadataService.Micro

open MemStore

def smear (s v : UInt64) : UInt64 := v ||| (v >>> s)

def alignPow2 (v : UInt64) : UInt64 :=
  let v := v - 1
  let v := smear 1 v
  let v := smear 2 v
  let v := smear 4 v
  let v := smear 8 v
  let v := smear 16 v
  let v := smear 32 v
  v + 1

def Covers (n x y : ℕ) : Prop := ∀ i, y.testBit i = true ↔ ∃ j < n, x.testBit (i + j) = true

theorem covers_one (x : ℕ) : Covers 1 x x := by
  intro i
  constructor
  · intro h
    exact ⟨0, Nat.one_pos, h⟩
  · rintro ⟨j, hj, h⟩
    obtain rfl : j = 0 := by omega
    exact h

theorem Covers.smear {s v : UInt64} {x : ℕ} (h : Covers s.toNat x v.toNat) (hs : s.toNat < 64) :
    Covers (2 * s.toNat) x (smear s v).toNat := by
  intro i
  rw [Micro.smear, UInt64.toNat_or, UInt64.toNat_shiftRight, Nat.mod_eq_of_lt hs, Nat.testBit_or,
    Nat.testBit_shiftRight, Bool.or_eq_true, h i, h (s.toNat + i)]
  constructor
  · rintro (⟨j, hj, hx⟩ | ⟨j, hj, hx⟩)
    · exact ⟨j, by omega, hx⟩
    · refine ⟨s.toNat + j, by omega, ?_⟩
      rwa [← Nat.add_assoc, Nat.add_comm i]
  · rintro ⟨j, hj, hx⟩
    by_cases hlt : j < s.toNat
    · exact Or.inl ⟨j, hlt, hx⟩
    · refine Or.inr ⟨j - s.toNat, by omega, ?_⟩
      have hsum : s.toNat + i + (j - s.toNat) = i + j := by omega
      rwa [hsum]

-- All 64 bits from any position on are looked at, so every bit up to the leading one of `x` is set.
theorem Covers.eq_pred {x y : ℕ} (h : Covers 64 x y) (hx : x < 2 ^ 64) : y = 2 ^ x.size - 1 := by
  apply Nat.eq_of_testBit_eq
  intro i
  rw [Nat.testBit_two_pow_sub_one, Bool.eq_iff_iff, h i, decide_eq_true_eq, Nat.lt_size]
  constructor
  · rintro ⟨j, -, hj⟩
    exact (Nat.pow_le_pow_right (by decide) (Nat.le_add_right i j)).trans (Nat.ge_two_pow_of_testBit hj)
  · intro hle
    obtain ⟨j, hij, hj⟩ := Nat.exists_ge_and_testBit_of_ge_two_pow hle
    have hj64 : j < 64 := by
      by_contra hge
      have hpow : 2 ^ 64 ≤ 2 ^ j := Nat.pow_le_pow_right (by decide) (by omega)
      have := Nat.ge_two_pow_of_testBit hj
      omega
    refine ⟨j - i, by omega, ?_⟩
    rwa [Nat.add_sub_cancel' hij]

theorem alignPow2_toNat {v : UInt64} (hv : 1 ≤ v.toNat) (hmax : v.toNat ≤ 2 ^ 63) :
    (alignPow2 v).toNat = 2 ^ (v.toNat - 1).size := by
  have hone : (1 : UInt64) ≤ v := by
    rw [UInt64.le_iff_toNat_le]
    exact hv
  have hpred : (v - 1).toNat = v.toNat - 1 := UInt64.toNat_sub_of_le _ _ hone
  have h1 : Covers 1 (v.toNat - 1) (v - 1).toNat := hpred ▸ covers_one _
  have h2 : Covers 2 _ _ := Covers.smear (s := 1) h1 (by decide)
  have h4 : Covers 4 _ _ := Covers.smear (s := 2) h2 (by decide)
  have h8 : Covers 8 _ _ := Covers.smear (s := 4) h4 (by decide)
  have h16 : Covers 16 _ _ := Covers.smear (s := 8) h8 (by decide)
  have h32 : Covers 32 _ _ := Covers.smear (s := 16) h16 (by decide)
  have h64 : Covers 64 _ _ := Covers.smear (s := 32) h32 (by decide)
  have hsize : (v.toNat - 1).size ≤ 63 := Nat.size_le.mpr (by omega)
  have hpow : 2 ^ (v.toNat - 1).size ≤ 2 ^ 63 := Nat.pow_le_pow_right (by decide) hsize
  have hpos : 0 < 2 ^ (v.toNat - 1).size := Nat.two_pow_pos _
  have hall := h64.eq_pred (by omega)
  rw [alignPow2, UInt64.toNat_add, hall, UInt64.toNat_one]
  omega

def RoundsUp (v p : ℕ) : Prop := IsLeast {q | (∃ e, q = 2 ^ e) ∧ v ≤ q} p

theorem roundsUp_size {v : ℕ} (hv : 1 ≤ v) : RoundsUp v (2 ^ (v - 1).size) := by
  constructor
  · have hlt : v - 1 < 2 ^ (v - 1).size := Nat.lt_size_self _
    exact ⟨⟨_, rfl⟩, by omega⟩
  · rintro q ⟨⟨e, rfl⟩, hle⟩
    apply Nat.pow_le_pow_right (by decide)
    apply Nat.size_le.mpr
    omega

/-- What `JsonConfig::get` finds in the file, if anything; a number with a fraction or an exponent is no
integer. -/
inductive JsonValue
  | int (z : ℤ)
  | other

def getInt64 : Option JsonValue → Except Fault Int64
  | some (.int z) => if -2 ^ 63 ≤ z ∧ z < 2 ^ 63 then .ok (Int64.ofInt z) else .error .assertion
  | _ => .error .assertion

structure MICRO where
  numKeysGlobal : UInt64

def micro (conf : Option JsonValue) : Except Fault MICRO := do
  let numKeys ← getInt64 conf
  return ⟨alignPow2 numKeys.toUInt64⟩

structure ZipfGen where
  n : UInt64

def zipfGen (n : UInt64) : Except Fault ZipfGen := do
  require (0 < n)
  return ⟨n⟩

structure Worker where
  numKeysGlobal : UInt64
  zipfGen : ZipfGen

def runThread (conf : Option JsonValue) : Except Fault Worker := do
  let numKeysGlobal := alignPow2 (← getInt64 conf).toUInt64
  return ⟨numKeysGlobal, ← zipfGen numKeysGlobal⟩

theorem toNat_toUInt64 {n : Int64} (h : 1 ≤ n) : 1 ≤ n.toInt ∧ (n.toUInt64.toNat : ℤ) = n.toInt := by
  have hone : (1 : Int64).toInt ≤ n.toInt := Int64.le_iff_toInt_le.mp h
  have hpos : 1 ≤ n.toInt := hone
  have hzero : 0 ≤ n := by
    rw [Int64.le_iff_toInt_le, Int64.toInt_zero]
    omega
  refine ⟨hpos, ?_⟩
  rw [Int64.toNat_toUInt64_of_le hzero]
  exact Int.toNat_of_nonneg (by omega)

theorem roundsUp_alignPow2 {v : UInt64} (hv : 1 ≤ v.toNat) (hmax : v.toNat ≤ 2 ^ 63) :
    RoundsUp v.toNat (alignPow2 v).toNat := by
  rw [alignPow2_toNat hv hmax]
  exact roundsUp_size hv

structure KeysAgree (conf : Option JsonValue) : Prop where
  read : ∀ numKeys, getInt64 conf = .ok numKeys → 1 ≤ numKeys →
    ∃ server worker, micro conf = .ok server ∧ runThread conf = .ok worker ∧
      worker.numKeysGlobal = server.numKeysGlobal ∧ worker.zipfGen.n = server.numKeysGlobal ∧
      numKeys.toInt ≤ server.numKeysGlobal.toNat
  unread : ∀ e, getInt64 conf = .error e → micro conf = .error e ∧ runThread conf = .error e

theorem keysAgree (conf : Option JsonValue) : KeysAgree conf := by
  constructor
  · intro numKeys hconf h
    obtain ⟨hpos, hcast⟩ := toNat_toUInt64 h
    have hmax : numKeys.toInt < 2 ^ 63 := numKeys.toInt_lt
    have hround := roundsUp_alignPow2 (v := numKeys.toUInt64) (by omega) (by omega)
    have hle : numKeys.toUInt64.toNat ≤ (alignPow2 numKeys.toUInt64).toNat := hround.1.2
    have hzipf : 0 < alignPow2 numKeys.toUInt64 := by
      rw [UInt64.lt_iff_toNat_lt, UInt64.toNat_zero]
      omega
    refine ⟨⟨alignPow2 numKeys.toUInt64⟩, ⟨alignPow2 numKeys.toUInt64, ⟨alignPow2 numKeys.toUInt64⟩⟩, ?_, ?_,
      rfl, rfl, ?_⟩
    · rw [micro, hconf]
      rfl
    · rw [runThread, hconf]
      simp [zipfGen, require, hzipf, bind, Except.bind, pure, Except.pure]
    · change numKeys.toInt ≤ ((alignPow2 numKeys.toUInt64).toNat : ℤ)
      omega
  · intro e hconf
    rw [micro, runThread, hconf]
    exact ⟨rfl, rfl⟩

theorem alignPow2_rounds_up :
    (∀ v : UInt64, 1 ≤ v.toNat → v.toNat ≤ 2 ^ 63 → RoundsUp v.toNat (alignPow2 v).toNat) ∧
      ∀ conf, KeysAgree conf :=
  ⟨fun _ => roundsUp_alignPow2, keysAgree⟩

example : alignPow2 1 = 1 ∧ alignPow2 64 = 64 ∧ alignPow2 65 = 128 ∧ alignPow2 1000000 = 1048576 := by
  decide

end MetadataService.Micro
