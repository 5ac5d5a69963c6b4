import Mathlib.Data.Nat.Bitwise
import Mathlib.Data.UInt

namespace MetadataService.CT

def r2 (n : UInt64) : List UInt64 := [n, n + 2 * 64, n + 1 * 64, n + 3 * 64]

def r4 (n : UInt64) : List UInt64 := r2 n ++ r2 (n + 2 * 16) ++ r2 (n + 1 * 16) ++ r2 (n + 3 * 16)

def r6 (n : UInt64) : List UInt64 := r4 n ++ r4 (n + 2 * 4) ++ r4 (n + 1 * 4) ++ r4 (n + 3 * 4)

def reverse8bits : List UInt64 := r6 0 ++ r6 2 ++ r6 1 ++ r6 3

def reverse8 (hash : UInt64) : UInt64 := reverse8bits.getD (hash &&& 0xff).toNat 0

def reverse (hash : UInt64) : UInt64 :=
  reverse8 hash <<< 56 ||| reverse8 (hash >>> 8) <<< 48 ||| reverse8 (hash >>> 16) <<< 40 |||
  reverse8 (hash >>> 24) <<< 32 ||| reverse8 (hash >>> 32) <<< 24 ||| reverse8 (hash >>> 40) <<< 16 |||
  reverse8 (hash >>> 48) <<< 8 ||| reverse8 (hash >>> 56)

def regularKey (hash : UInt64) : UInt64 := reverse (hash ||| 0x8000000000000000)

def dummyKey (hash : UInt64) : UInt64 := reverse hash

def builtinClzl (x : UInt64) : UInt64 := 63 - x.log2

def getBucketParent (b : UInt64) : UInt64 := ~~~(0x8000000000000000 >>> builtinClzl b) &&& b

theorem reverse8bits_length : reverse8bits.length = 256 := by
  decide +kernel

theorem reverse8bits_zipIdx : ∀ p ∈ reverse8bits.zipIdx,
    p.1.toNat < 256 ∧ ∀ j : Fin 8, p.1.toNat.testBit j = p.2.testBit (7 - j) := by
  decide +kernel

theorem reverse8bits_getD {b : ℕ} (hb : b < 256) : (reverse8bits.getD b 0).toNat < 256 ∧
    ∀ j : Fin 8, (reverse8bits.getD b 0).toNat.testBit j = b.testBit (7 - j) := by
  rw [← reverse8bits_length] at hb
  rw [List.getD_eq_getElem _ _ hb]
  apply reverse8bits_zipIdx (reverse8bits[b], b)
  exact List.mk_mem_zipIdx_iff_getElem?.mpr (List.getElem?_eq_getElem hb)

theorem reverse8_bit (x : UInt64) (j : ℕ) :
    (reverse8 x).toNat.testBit j = (decide (j < 8) && x.toNat.testBit (7 - j)) := by
  have hb : (x &&& 0xff).toNat = x.toNat % 256 := by
    rw [UInt64.toNat_and]
    exact Nat.and_two_pow_sub_one_eq_mod x.toNat 8
  have hlt : x.toNat % 256 < 256 := Nat.mod_lt _ (by decide)
  obtain ⟨hsmall, hbits⟩ := reverse8bits_getD hlt
  rw [reverse8, hb]
  by_cases hj : j < 8
  · have hmod : (x.toNat % 2 ^ 8).testBit (7 - j) = x.toNat.testBit (7 - j) := by
      rw [Nat.testBit_mod_two_pow, decide_eq_true (by omega : 7 - j < 8), Bool.true_and]
    rw [decide_eq_true hj, Bool.true_and]
    exact (hbits ⟨j, hj⟩).trans hmod
  · have hpow : 2 ^ 8 ≤ 2 ^ j := Nat.pow_le_pow_right (by decide) (by omega)
    rw [decide_eq_false hj, Bool.false_and]
    exact Nat.testBit_lt_two_pow (Nat.lt_of_lt_of_le hsmall hpow)

theorem place_bit (x s d : UInt64) (hsd : s.toNat + d.toNat = 56) (i : ℕ) :
    (reverse8 (x >>> s) <<< d).toNat.testBit i =
      (decide (d.toNat ≤ i ∧ i < d.toNat + 8) && x.toNat.testBit (63 - i)) := by
  have hs : s.toNat % 64 = s.toNat := Nat.mod_eq_of_lt (by omega)
  have hd : d.toNat % 64 = d.toNat := Nat.mod_eq_of_lt (by omega)
  rw [UInt64.toNat_shiftLeft, hd, Nat.testBit_mod_two_pow, Nat.testBit_shiftLeft, reverse8_bit,
    UInt64.toNat_shiftRight, hs, Nat.testBit_shiftRight]
  by_cases hi : d.toNat ≤ i ∧ i < d.toNat + 8
  · have hpos : s.toNat + (7 - (i - d.toNat)) = 63 - i := by omega
    have h64 : i < 64 := by omega
    have h8 : i - d.toNat < 8 := by omega
    simp [hpos, h64, h8, hi.1, hi]
  · rw [decide_eq_false hi, Bool.false_and]
    by_cases hle : d.toNat ≤ i
    · have h8 : ¬ i - d.toNat < 8 := by omega
      simp [h8]
    · simp [hle]

theorem reverse_bit (x : UInt64) {i : ℕ} (hi : i < 64) :
    (reverse x).toNat.testBit i = x.toNat.testBit (63 - i) := by
  have h0 := place_bit x 0 56 rfl i
  have h7 := place_bit x 56 0 rfl i
  rw [UInt64.shiftRight_zero] at h0
  rw [UInt64.shiftLeft_zero] at h7
  simp only [reverse, UInt64.toNat_or, Nat.testBit_or, h0, place_bit x 8 48 rfl, place_bit x 16 40 rfl,
    place_bit x 24 32 rfl, place_bit x 32 24 rfl, place_bit x 40 16 rfl, place_bit x 48 8 rfl, h7,
    ← Bool.and_or_distrib_right, UInt64.toNat_ofNat]
  -- the eight ranges of bits cover the word
  have hcover : (decide (56 ≤ i ∧ i < 56 + 8) || decide (48 ≤ i ∧ i < 48 + 8) ||
      decide (40 ≤ i ∧ i < 40 + 8) || decide (32 ≤ i ∧ i < 32 + 8) || decide (24 ≤ i ∧ i < 24 + 8) ||
      decide (16 ≤ i ∧ i < 16 + 8) || decide (8 ≤ i ∧ i < 8 + 8) || decide (0 ≤ i ∧ i < 0 + 8)) = true := by
    simp only [Bool.or_eq_true, decide_eq_true_eq]
    omega
  simpa using congrArg (· && x.toNat.testBit (63 - i)) hcover

theorem testBit_beyond (x : UInt64) {i : ℕ} (hi : 64 ≤ i) : x.toNat.testBit i = false := by
  have hpow : 2 ^ 64 ≤ 2 ^ i := Nat.pow_le_pow_right (by decide) hi
  exact Nat.testBit_lt_two_pow (Nat.lt_of_lt_of_le x.toNat_lt hpow)

theorem ext_bit {x y : UInt64} (h : ∀ i < 64, x.toNat.testBit i = y.toNat.testBit i) : x = y := by
  apply UInt64.toNat_inj.mp
  apply Nat.eq_of_testBit_eq
  intro i
  by_cases hi : i < 64
  · exact h i hi
  · rw [testBit_beyond x (by omega), testBit_beyond y (by omega)]

theorem reverse_reverse (x : UInt64) : reverse (reverse x) = x := by
  apply ext_bit
  intro i hi
  rw [reverse_bit _ hi, reverse_bit _ (by omega)]
  congr 1
  omega

theorem reverse_injective : Function.Injective reverse :=
  Function.LeftInverse.injective reverse_reverse

theorem reverse_and (x y : UInt64) : reverse (x &&& y) = reverse x &&& reverse y := by
  apply ext_bit
  intro i hi
  simp [reverse_bit _ hi]

theorem reverse_and_le (x y : UInt64) : reverse (x &&& y) ≤ reverse x := by
  rw [reverse_and, UInt64.le_iff_toNat_le, UInt64.toNat_and]
  exact Nat.and_le_left

theorem reverse_and_lt {x y : UInt64} (h : x &&& y ≠ x) : reverse (x &&& y) < reverse x :=
  UInt64.lt_of_le_of_ne (reverse_and_le x y) fun he => h (reverse_injective he)

theorem regularKey_odd (hash : UInt64) : (regularKey hash).toNat % 2 = 1 := by
  have hbit := reverse_bit (hash ||| 0x8000000000000000) (i := 0) (by decide)
  rw [UInt64.toNat_or, Nat.testBit_or] at hbit
  have htop : (0x8000000000000000 : UInt64).toNat.testBit 63 = true := by decide
  rw [Nat.sub_zero, htop, Bool.or_true, Nat.testBit_zero] at hbit
  simpa [regularKey] using hbit

theorem dummyKey_even {b : UInt64} (hb : b.toNat < 2 ^ 63) : (dummyKey b).toNat % 2 = 0 := by
  have hbit := reverse_bit b (i := 0) (by decide)
  rw [Nat.sub_zero, Nat.testBit_lt_two_pow hb, Nat.testBit_zero] at hbit
  have hne : ¬ (reverse b).toNat % 2 = 1 := by simpa using hbit
  rw [dummyKey]
  omega

theorem dummyKey_and_lt (hash : UInt64) {mask : UInt64} (hm : mask.toNat < 2 ^ 63) :
    dummyKey (hash &&& mask) < regularKey hash := by
  have hand : hash &&& mask = (hash ||| 0x8000000000000000) &&& (hash &&& mask) := by
    apply ext_bit
    intro i _
    simp only [UInt64.toNat_and, UInt64.toNat_or, Nat.testBit_and, Nat.testBit_or]
    cases hash.toNat.testBit i <;> simp
  have hle : (hash &&& mask).toNat ≤ mask.toNat := by
    rw [UInt64.toNat_and]
    exact Nat.and_le_right
  have heven := dummyKey_even (Nat.lt_of_le_of_lt hle hm)
  have hodd := regularKey_odd hash
  have hkey : dummyKey (hash &&& mask) ≤ regularKey hash := by
    rw [dummyKey, hand]
    exact reverse_and_le _ _
  refine UInt64.lt_of_le_of_ne hkey fun he => ?_
  rw [he] at heven
  omega

theorem getBucketParent_ne {b : UInt64} (hb : b ≠ 0) : getBucketParent b ≠ b := by
  have hb0 : b.toNat ≠ 0 := fun h => hb (UInt64.toNat_inj.mp h)
  have hlog : b.toNat.log2 < 64 := (Nat.log2_lt hb0).mpr b.toNat_lt
  have hclz : (builtinClzl b).toNat = 63 - b.toNat.log2 := by
    rw [builtinClzl, UInt64.toNat_sub_of_le]
    · rfl
    · rw [UInt64.le_iff_toNat_le]
      exact Nat.le_of_lt_succ hlog
  have hbit : (0x8000000000000000 >>> builtinClzl b).toNat.testBit b.toNat.log2 = true := by
    have hmod : (63 - b.toNat.log2) % 64 = 63 - b.toNat.log2 := Nat.mod_eq_of_lt (by omega)
    have hsum : 63 - b.toNat.log2 + b.toNat.log2 = 63 := by omega
    rw [UInt64.toNat_shiftRight, hclz, hmod, Nat.testBit_shiftRight, hsum]
    decide
  -- the leading bit of the bucket is the one that is cleared
  intro he
  have htest : (getBucketParent b).toNat.testBit b.toNat.log2 = b.toNat.testBit b.toNat.log2 := by rw [he]
  rw [Nat.testBit_log2 hb0] at htest
  have hnot : (~~~(0x8000000000000000 >>> builtinClzl b)).toNat.testBit b.toNat.log2 = false := by
    have hzero : 0x8000000000000000 >>> builtinClzl b &&& ~~~(0x8000000000000000 >>> builtinClzl b) = 0 :=
      UInt64.and_not_self
    have hself := congrArg (fun x : UInt64 => x.toNat.testBit b.toNat.log2) hzero
    rw [UInt64.toNat_and, Nat.testBit_and, hbit, Bool.true_and] at hself
    simpa using hself
  rw [getBucketParent, UInt64.toNat_and, Nat.testBit_and, hnot] at htest
  cases htest

theorem getBucketParent_lt {b : UInt64} (hb : b ≠ 0) : (getBucketParent b).toNat < b.toNat := by
  have hle : (getBucketParent b).toNat ≤ b.toNat := by
    rw [getBucketParent, UInt64.toNat_and]
    exact Nat.and_le_right
  have hne : (getBucketParent b).toNat ≠ b.toNat := fun h => getBucketParent_ne hb (UInt64.toNat_inj.mp h)
  omega

theorem dummyKey_parent_lt {b : UInt64} (hb : b ≠ 0) : dummyKey (getBucketParent b) < dummyKey b := by
  have hcomm : getBucketParent b = b &&& ~~~(0x8000000000000000 >>> builtinClzl b) := UInt64.and_comm ..
  have hne := getBucketParent_ne hb
  rw [hcomm] at hne
  rw [hcomm]
  exact reverse_and_lt hne

theorem mask_toNat {i : ℕ} (hi : i < 64) : (UInt64.ofNat (2 ^ i) - 1).toNat = 2 ^ i - 1 := by
  have hpow : 2 ^ i < 2 ^ 64 := Nat.pow_lt_pow_right (by decide) hi
  rw [UInt64.toNat_sub_of_le]
  · rw [UInt64.toNat_ofNat_of_lt' hpow]
    rfl
  · rw [UInt64.le_iff_toNat_le, UInt64.toNat_ofNat_of_lt' hpow]
    exact Nat.one_le_two_pow

theorem bucket_eq_and (h : UInt64) {i : ℕ} (hi : i < 64) :
    UInt64.ofNat (h.toNat % 2 ^ i) = h &&& (UInt64.ofNat (2 ^ i) - 1) := by
  have hlt : h.toNat % 2 ^ i < UInt64.size := Nat.lt_of_le_of_lt (Nat.mod_le ..) h.toNat_lt
  apply UInt64.toNat_inj.mp
  rw [UInt64.toNat_ofNat_of_lt' hlt, UInt64.toNat_and, mask_toNat hi, Nat.and_two_pow_sub_one_eq_mod]

theorem bucket_toNat (h : UInt64) (i : ℕ) : (UInt64.ofNat (h.toNat % 2 ^ i)).toNat = h.toNat % 2 ^ i :=
  UInt64.toNat_ofNat_of_lt' (Nat.lt_of_le_of_lt (Nat.mod_le ..) h.toNat_lt)

theorem dummyKey_dvd {b : UInt64} {i : ℕ} (hb : b.toNat < 2 ^ i) : 2 ^ (64 - i) ∣ (dummyKey b).toNat := by
  apply Nat.dvd_of_mod_eq_zero
  apply Nat.eq_of_testBit_eq
  intro j
  rw [Nat.testBit_mod_two_pow, Nat.zero_testBit]
  by_cases hj : j < 64 - i
  · have hpow : 2 ^ i ≤ 2 ^ (63 - j) := Nat.pow_le_pow_right (by decide) (by omega)
    rw [dummyKey, reverse_bit b (by omega), Nat.testBit_lt_two_pow (Nat.lt_of_lt_of_le hb hpow),
      Bool.and_false]
  · rw [decide_eq_false hj, Bool.false_and]

-- The first `i` bits of the two keys are the last `i` bits of the hash; the top bit is none of them.
theorem regularKey_quotient (h : UInt64) {i : ℕ} (hi : i < 64) :
    (regularKey h).toNat / 2 ^ (64 - i) = (dummyKey (UInt64.ofNat (h.toNat % 2 ^ i))).toNat / 2 ^ (64 - i) := by
  apply Nat.eq_of_testBit_eq
  intro j
  rw [Nat.testBit_div_two_pow, Nat.testBit_div_two_pow]
  by_cases hj : j + (64 - i) < 64
  · have htop : (0x8000000000000000 : UInt64).toNat.testBit (63 - (j + (64 - i))) = false := by
      have hpow : (0x8000000000000000 : UInt64).toNat = 2 ^ 63 := rfl
      rw [hpow, Nat.testBit_two_pow_of_ne (by omega)]
    have hlow : 63 - (j + (64 - i)) < i := by omega
    rw [regularKey, dummyKey, reverse_bit _ hj, reverse_bit _ hj, UInt64.toNat_or, Nat.testBit_or, htop,
      Bool.or_false, bucket_toNat, Nat.testBit_mod_two_pow, decide_eq_true hlow, Bool.true_and]
  · rw [testBit_beyond _ (by omega), testBit_beyond _ (by omega)]

/-- With `2 ^ i` buckets, the items with the hash `h` stand behind the head of bucket `b` and before that
of any bucket that follows it, and `b` stands behind the bucket it was split from. -/
structure StandsUnder (h : UInt64) (i : ℕ) (b : UInt64) : Prop where
  below : dummyKey b < regularKey h
  nearest : ∀ b' : UInt64, b'.toNat < 2 ^ i → b' ≠ b →
    ¬ (dummyKey b < dummyKey b' ∧ dummyKey b' < regularKey h)
  parent : 0 < b → getBucketParent b < b ∧ dummyKey (getBucketParent b) < dummyKey b

theorem standsUnder_bucket (h : UInt64) {i : ℕ} (hi : i < 64) :
    StandsUnder h i (UInt64.ofNat (h.toNat % 2 ^ i)) := by
  constructor
  · have hmask : (UInt64.ofNat (2 ^ i) - 1).toNat < 2 ^ 63 := by
      have hpow : 2 ^ i ≤ 2 ^ 63 := Nat.pow_le_pow_right (by decide) (by omega)
      have hpos : 0 < 2 ^ i := Nat.two_pow_pos i
      rw [mask_toNat hi]
      omega
    rw [bucket_eq_and h hi]
    exact dummyKey_and_lt h hmask
  · rintro b' hb' - ⟨hlt, hitem⟩
    rw [UInt64.lt_iff_toNat_lt] at hlt hitem
    have hquot := regularKey_quotient h hi
    -- the keys of buckets are multiples of `2 ^ (64 - i)`, and no multiple lies between the two
    have hle : (dummyKey b').toNat ≤ (dummyKey (UInt64.ofNat (h.toNat % 2 ^ i))).toNat := by
      calc (dummyKey b').toNat
        _ = (dummyKey b').toNat / 2 ^ (64 - i) * 2 ^ (64 - i) := (Nat.div_mul_cancel (dummyKey_dvd hb')).symm
        _ ≤ (regularKey h).toNat / 2 ^ (64 - i) * 2 ^ (64 - i) :=
          Nat.mul_le_mul_right _ (Nat.div_le_div_right (Nat.le_of_lt hitem))
        _ = (dummyKey (UInt64.ofNat (h.toNat % 2 ^ i))).toNat / 2 ^ (64 - i) * 2 ^ (64 - i) := by rw [hquot]
        _ ≤ (dummyKey (UInt64.ofNat (h.toNat % 2 ^ i))).toNat := Nat.div_mul_le_self ..
    omega
  · intro hpos
    have hne : UInt64.ofNat (h.toNat % 2 ^ i) ≠ 0 := (UInt64.ne_of_lt hpos).symm
    exact ⟨UInt64.lt_iff_toNat_lt.mpr (getBucketParent_lt hne), dummyKey_parent_lt hne⟩

theorem splitOrder_stands_under :
    (∀ (x : UInt64) (j : ℕ), j < 64 → (reverse x).toNat.testBit j = x.toNat.testBit (63 - j)) ∧
      ∀ (h : UInt64) (i : ℕ), i < 64 → StandsUnder h i (UInt64.ofNat (h.toNat % 2 ^ i)) :=
  ⟨fun x _ hj => reverse_bit x hj, fun h _ hi => standsUnder_bucket h hi⟩

end MetadataService.CT
