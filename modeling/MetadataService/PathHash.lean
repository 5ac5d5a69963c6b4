import MetadataService.PathResolution
import Mathlib.Algebra.BigOperators.Fin
import Mathlib.Data.Int.ModEq
import Mathlib.Tactic.Linarith
import Mathlib.Tactic.Ring

namespace MetadataService.Dmc

def charTerm (c : UInt8) : ℤ := c.toInt8.toInt - 97 + 1

def pathPolynomial (s : List UInt8) : ℤ := ∑ i : Fin s.length, charTerm s[i] * 31 ^ (i : ℕ)

/-- Every term leaves the residue of the terms before it non-negative. -/
def TermsFit (s : List UInt8) : Prop :=
  ∀ i (h : i < s.length),
    0 ≤ pathPolynomial (s.take i) % 1000000009 + charTerm s[i] * (31 ^ i % 1000000009)

def hashStep (st : UInt64 × UInt64) (c : UInt8) : UInt64 × UInt64 :=
  ((st.1 + (c.toInt8.toInt32 - 97 + 1).toInt64.toUInt64 * st.2) % 1000000009, st.2 * 31 % 1000000009)

theorem computeHash_eq (s : List UInt8) : computeHash s = (s.foldl hashStep (0, 1)).1 := rfl

def stepValue (st : UInt64 × UInt64) (c : UInt8) : ℤ := st.1.toNat + charTerm c * st.2.toNat

def wraps : List UInt8 → UInt64 × UInt64 → ℕ
  | [], _ => 0
  | c :: s, st => (if stepValue st c < 0 then 1 else 0) + wraps s (hashStep st c)

theorem pathPolynomial_cons (c : UInt8) (s : List UInt8) :
    pathPolynomial (c :: s) = charTerm c + 31 * pathPolynomial s := by
  simp only [pathPolynomial, List.length_cons]
  rw [Fin.sum_univ_succ, Finset.mul_sum]
  congr 1
  · simp
  · apply Finset.sum_congr rfl
    intro i _
    simp only [Fin.val_succ, pow_succ]
    change charTerm s[i] * _ = _
    ring

theorem charTerm_bounds (c : UInt8) : -224 ≤ charTerm c ∧ charTerm c ≤ 31 := by
  have hlow := c.toInt8.le_toInt
  have hhigh := c.toInt8.toInt_lt
  unfold charTerm
  omega

theorem toNat_toUInt64_emod (x : Int64) : (x.toUInt64.toNat : ℤ) = x.toInt % 2 ^ 64 := by
  have hbv : x.toInt = _ := BitVec.toInt_eq_toNat_cond _
  have hlt := x.toUInt64.toNat_lt
  change (x.toBitVec.toNat : ℤ) = _
  change x.toBitVec.toNat < _ at hlt
  split_ifs at hbv <;> omega

theorem charTerm_word (c : UInt8) :
    ((c.toInt8.toInt32 - 97 + 1).toInt64.toUInt64.toNat : ℤ) = charTerm c % 2 ^ 64 := by
  have hlow := c.toInt8.le_toInt
  have hhigh := c.toInt8.toInt_lt
  have h97 : (97 : Int32).toInt = 97 := by decide
  have h1 : (1 : Int32).toInt = 1 := by decide
  have hsub : (c.toInt8.toInt32 - 97).toInt = c.toInt8.toInt - 97 := by
    rw [Int32.toInt_sub, Int8.toInt_toInt32, h97]
    exact Int.bmod_eq_of_le (by omega) (by omega)
  have hadd : (c.toInt8.toInt32 - 97 + 1).toInt = charTerm c := by
    rw [Int32.toInt_add, hsub, h1]
    exact Int.bmod_eq_of_le (by omega) (by omega)
  rw [toNat_toUInt64_emod, Int32.toInt_toInt64, hadd]

section Step

variable {st : UInt64 × UInt64} {c : UInt8}

theorem stepValue_bounds (hh : st.1.toNat < 1000000009) (hp : st.2.toNat < 1000000009) :
    -(2 ^ 64) ≤ stepValue st c ∧ stepValue st c < 2 ^ 64 := by
  obtain ⟨hlow, hhigh⟩ := charTerm_bounds c
  have hp0 : (0 : ℤ) ≤ st.2.toNat := Int.natCast_nonneg _
  have h1 := mul_le_mul_of_nonneg_right hlow hp0
  have h2 := mul_le_mul_of_nonneg_right hhigh hp0
  unfold stepValue
  constructor <;> omega

theorem step_word (st : UInt64 × UInt64) (c : UInt8) :
    ((st.1 + (c.toInt8.toInt32 - 97 + 1).toInt64.toUInt64 * st.2).toNat : ℤ) = stepValue st c % 2 ^ 64 := by
  rw [UInt64.toNat_add, UInt64.toNat_mul]
  push_cast
  rw [charTerm_word, stepValue]
  apply Int.ModEq.add_left
  exact (Int.mod_modEq _ _).trans ((Int.mod_modEq _ _).mul_right _)

theorem hashStep_hash (hh : st.1.toNat < 1000000009) (hp : st.2.toNat < 1000000009) :
    ((hashStep st c).1.toNat : ℤ) =
      (stepValue st c + 2 ^ 64 * (if stepValue st c < 0 then 1 else 0 : ℕ)) % 1000000009 := by
  obtain ⟨hlow, hhigh⟩ := stepValue_bounds (c := c) hh hp
  have hword := step_word st c
  have hlit : (1000000009 : UInt64).toNat = 1000000009 := rfl
  rw [hashStep, UInt64.toNat_mod, hlit]
  push_cast
  rw [hword]
  congr 1
  split_ifs with hneg
  · push_cast
    omega
  · push_cast
    omega

theorem hashStep_pow (hp : st.2.toNat < 1000000009) :
    ((hashStep st c).2.toNat : ℤ) = st.2.toNat * 31 % 1000000009 := by
  have hlit : (1000000009 : UInt64).toNat = 1000000009 := rfl
  have h31 : (31 : UInt64).toNat = 31 := rfl
  have hsmall : st.2.toNat * 31 < 2 ^ 64 := by omega
  rw [hashStep, UInt64.toNat_mod, UInt64.toNat_mul, hlit, h31, Nat.mod_eq_of_lt hsmall]
  push_cast
  rfl

theorem hashStep_lt (st : UInt64 × UInt64) (c : UInt8) :
    (hashStep st c).1.toNat < 1000000009 ∧ (hashStep st c).2.toNat < 1000000009 := by
  have hlit : (1000000009 : UInt64).toNat = 1000000009 := rfl
  simp only [hashStep, UInt64.toNat_mod, hlit]
  omega

end Step

theorem foldl_hashStep_lt (st : UInt64 × UInt64) (s : List UInt8) (hh : st.1.toNat < 1000000009)
    (hp : st.2.toNat < 1000000009) : (s.foldl hashStep st).1.toNat < 1000000009 := by
  induction s generalizing st with
  | nil => exact hh
  | cons c s ih => exact ih _ (hashStep_lt st c).1 (hashStep_lt st c).2

theorem foldl_hashStep_modEq (st : UInt64 × UInt64) (s : List UInt8) (hh : st.1.toNat < 1000000009)
    (hp : st.2.toNat < 1000000009) :
    ((s.foldl hashStep st).1.toNat : ℤ) ≡
      st.1.toNat + st.2.toNat * pathPolynomial s + 2 ^ 64 * wraps s st [ZMOD 1000000009] := by
  induction s generalizing st with
  | nil => simp [pathPolynomial, wraps]
  | cons c s ih =>
    obtain ⟨hh', hp'⟩ := hashStep_lt st c
    have hrest := ih _ hh' hp'
    rw [List.foldl_cons]
    refine hrest.trans ?_
    rw [hashStep_hash hh hp, hashStep_pow hp, pathPolynomial_cons, wraps]
    have hhash := Int.mod_modEq
      (stepValue st c + 2 ^ 64 * (if stepValue st c < 0 then 1 else 0 : ℕ)) 1000000009
    have hpow := (Int.mod_modEq ((st.2.toNat : ℤ) * 31) 1000000009).mul_right (pathPolynomial s)
    refine ((hhash.add hpow).add_right _).trans (congrArg (· % (1000000009 : ℤ)) ?_)
    rw [stepValue]
    push_cast
    ring

theorem computeHash_eq_iff (s : List UInt8) :
    ((computeHash s).toNat : ℤ) = pathPolynomial s % 1000000009 ↔ 1000000009 ∣ wraps s (0, 1) := by
  have hlt := foldl_hashStep_lt (0, 1) s (by decide) (by decide)
  have hmod := foldl_hashStep_modEq (0, 1) s (by decide) (by decide)
  rw [← computeHash_eq] at hlt hmod
  have h0 : (((0, 1) : UInt64 × UInt64).1.toNat : ℤ) = 0 := rfl
  have h1 : (((0, 1) : UInt64 × UInt64).2.toNat : ℤ) = 1 := rfl
  rw [h0, h1, zero_add, one_mul] at hmod
  have hself : ((computeHash s).toNat : ℤ) % 1000000009 = (computeHash s).toNat :=
    Int.emod_eq_of_lt (Int.natCast_nonneg _) (by exact_mod_cast hlt)
  have hcoprime : Nat.Coprime 1000000009 (2 ^ 64) := by decide
  constructor
  · intro h
    have hp : pathPolynomial s + 0 ≡ pathPolynomial s + 2 ^ 64 * wraps s (0, 1) [ZMOD 1000000009] := by
      rw [add_zero]
      refine Int.ModEq.trans ?_ hmod
      rw [Int.ModEq, hself, h]
    have hdvd := (Int.modEq_iff_dvd.mp (Int.ModEq.add_left_cancel' _ hp))
    rw [sub_zero] at hdvd
    exact hcoprime.dvd_of_dvd_mul_left (by exact_mod_cast hdvd)
  · rintro ⟨k, hk⟩
    rw [← hself]
    refine hmod.trans (Int.modEq_iff_dvd.mpr ⟨-(2 ^ 64 * k), ?_⟩)
    rw [hk]
    push_cast
    ring

theorem wraps_le_length (s : List UInt8) (st : UInt64 × UInt64) : wraps s st ≤ s.length := by
  induction s generalizing st with
  | nil => exact le_rfl
  | cons c s ih =>
    have hrest := ih (hashStep st c)
    rw [wraps, List.length_cons]
    split_ifs <;> omega

theorem wraps_eq_zero_iff (s : List UInt8) (A : ℤ) (e : ℕ) (st : UInt64 × UInt64)
    (hh : (st.1.toNat : ℤ) = A % 1000000009) (hp : (st.2.toNat : ℤ) = 31 ^ e % 1000000009) :
    wraps s st = 0 ↔ ∀ i (h : i < s.length),
      0 ≤ (A + 31 ^ e * pathPolynomial (s.take i)) % 1000000009 +
        charTerm s[i] * (31 ^ (e + i) % 1000000009) := by
  induction s generalizing A e st with
  | nil => simp [wraps]
  | cons c s ih =>
    have hhlt : st.1.toNat < 1000000009 := by omega
    have hplt : st.2.toNat < 1000000009 := by omega
    have hval : stepValue st c = A % 1000000009 + charTerm c * (31 ^ e % 1000000009) := by
      rw [stepValue, hh, hp]
    have hfirst : (A + 31 ^ e * pathPolynomial ((c :: s).take 0)) % 1000000009 +
        charTerm c * (31 ^ (e + 0) % 1000000009) = stepValue st c := by
      rw [hval, List.take_zero, Nat.add_zero]
      simp [pathPolynomial]
    by_cases hneg : stepValue st c < 0
    · refine iff_of_false ?_ fun h => ?_
      · rw [wraps, if_pos hneg]
        omega
      · have h0 := h 0 (by simp)
        rw [List.getElem_cons_zero, hfirst] at h0
        omega
    · have hhash : ((hashStep st c).1.toNat : ℤ) = (A + 31 ^ e * charTerm c) % 1000000009 := by
        rw [hashStep_hash hhlt hplt, if_neg hneg, Nat.cast_zero, mul_zero, add_zero, hval]
        refine ((Int.mod_modEq _ _).add ((Int.mod_modEq _ _).mul_left _)).trans ?_
        rw [mul_comm]
      have hpow : ((hashStep st c).2.toNat : ℤ) = 31 ^ (e + 1) % 1000000009 := by
        rw [hashStep_pow hplt, hp, pow_succ]
        exact (Int.mod_modEq _ _).mul_right _
      rw [wraps, if_neg hneg, zero_add, ih _ _ _ hhash hpow]
      have hnext (i : ℕ) : A + 31 ^ e * charTerm c + 31 ^ (e + 1) * pathPolynomial (s.take i) =
          A + 31 ^ e * pathPolynomial ((c :: s).take (i + 1)) := by
        rw [List.take_succ_cons, pathPolynomial_cons]
        ring
      constructor
      · intro h i hi
        cases i with
        | zero =>
          rw [List.getElem_cons_zero, hfirst]
          omega
        | succ i =>
          have hi' := h i (by simpa using hi)
          rw [hnext, Nat.add_right_comm] at hi'
          exact hi'
      · intro h i hi
        have hi' := h (i + 1) (by simpa using hi)
        rw [hnext, Nat.add_right_comm]
        exact hi'

theorem wraps_eq_zero_iff_termsFit (s : List UInt8) : wraps s (0, 1) = 0 ↔ TermsFit s := by
  rw [wraps_eq_zero_iff s 0 0 (0, 1) rfl rfl, TermsFit]
  simp only [zero_add, pow_zero, one_mul]

theorem computeHash_residue_iff (s : List UInt8) :
    (TermsFit s → ((computeHash s).toNat : ℤ) = pathPolynomial s % 1000000009) ∧
      (s.length < 1000000009 →
        (((computeHash s).toNat : ℤ) = pathPolynomial s % 1000000009 ↔ TermsFit s)) := by
  rw [computeHash_eq_iff, ← wraps_eq_zero_iff_termsFit]
  have hle := wraps_le_length s (0, 1)
  omega

-- Names made of the characters from '`' on, such as lower-case letters, have no negative term.
theorem computeHash_of_nonneg {s : List UInt8} (h : ∀ c ∈ s, 0 ≤ charTerm c) :
    ((computeHash s).toNat : ℤ) = pathPolynomial s % 1000000009 := by
  rw [computeHash_eq_iff, (wraps_eq_zero_iff_termsFit s).mpr]
  · exact dvd_zero _
  intro i hi
  have hterm := h s[i] (List.getElem_mem hi)
  have hpow : (0 : ℤ) ≤ 31 ^ i % 1000000009 := Int.emod_nonneg _ (by decide)
  have hsum := Int.emod_nonneg (pathPolynomial (s.take i)) (by decide : (1000000009 : ℤ) ≠ 0)
  exact add_nonneg hsum (mul_nonneg hterm hpow)

theorem computeHash_separator :
    ((computeHash [47]).toNat : ℤ) ≠ pathPolynomial [47] % 1000000009 := by
  have hpoly : pathPolynomial [47] = -49 := by
    rw [pathPolynomial_cons]
    rfl
  rw [hpoly]
  decide

end MetadataService.Dmc
