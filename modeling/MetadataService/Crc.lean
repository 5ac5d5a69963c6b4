import Mathlib.Algebra.Group.Nat.Defs
import Mathlib.Logic.Function.Iterate
import Mathlib.Tactic.Common

namespace MetadataService.Crc

variable {poly : UInt32}

def reflect (value : UInt32) (numBits : ℕ) : UInt32 :=
  ((fun (reversed, value) => ((reversed <<< 1) ||| (value &&& 1), value >>> 1))^[numBits] ((0 : UInt32), value)).1

def bitStep (poly r : UInt32) : UInt32 := if r &&& 1 ≠ 0 then (r >>> 1) ^^^ poly else r >>> 1

def byteStep (poly r : UInt32) (b : UInt8) : UInt32 := (bitStep poly)^[8] (r ^^^ b.toUInt32)

def remainder (poly : UInt32) (bytes : List UInt8) (r : UInt32) : UInt32 := bytes.foldl (byteStep poly) r

theorem low_bit_iff (r : UInt32) : r &&& 1 ≠ 0 ↔ r.toNat % 2 = 1 := by
  rw [Ne, ← UInt32.toNat_inj, UInt32.toNat_and, UInt32.toNat_one, Nat.and_one_is_mod, UInt32.toNat_zero]
  omega

theorem half_toNat (r : UInt32) : (r >>> 1).toNat = r.toNat / 2 := by
  rw [UInt32.toNat_shiftRight, UInt32.toNat_one, Nat.shiftRight_eq_div_pow]

theorem half_xor_ne (hp : 2 ^ 31 ≤ poly.toNat) (r r' : UInt32) : (r >>> 1) ^^^ poly ≠ r' >>> 1 := by
  intro h
  have hpoly : poly = (r >>> 1) ^^^ (r' >>> 1) := by
    rw [← h, ← UInt32.xor_assoc, UInt32.xor_self, UInt32.zero_xor]
  have hlt : ((r >>> 1) ^^^ (r' >>> 1)).toNat < 2 ^ 31 := by
    rw [UInt32.toNat_xor, half_toNat, half_toNat]
    have h1 := r.toNat_lt
    have h2 := r'.toNat_lt
    exact Nat.xor_lt_two_pow (by omega) (by omega)
  rw [← hpoly] at hlt
  omega

theorem eq_of_half {r r' : UInt32} (h : r >>> 1 = r' >>> 1) (hlow : r.toNat % 2 = r'.toNat % 2) : r = r' := by
  have hnat := congrArg UInt32.toNat h
  rw [half_toNat, half_toNat] at hnat
  exact UInt32.toNat_inj.mp (by omega)

theorem bitStep_injective (hp : 2 ^ 31 ≤ poly.toNat) : Function.Injective (bitStep poly) := by
  intro r r' h
  simp only [bitStep, low_bit_iff] at h
  split_ifs at h with hr hr' hr'
  · exact eq_of_half ((UInt32.xor_left_inj poly).mp h) (by omega)
  · exact absurd h (half_xor_ne hp r r')
  · exact absurd h.symm (half_xor_ne hp r' r)
  · exact eq_of_half h (by omega)

theorem byteStep_injective (hp : 2 ^ 31 ≤ poly.toNat) (b : UInt8) :
    Function.Injective fun r => byteStep poly r b := by
  intro r r' h
  exact (UInt32.xor_left_inj _).mp ((bitStep_injective hp).iterate 8 h)

theorem byteStep_byte_injective (hp : 2 ^ 31 ≤ poly.toNat) (r : UInt32) :
    Function.Injective (byteStep poly r) := by
  intro b b' h
  have hword := (UInt32.xor_right_inj r).mp ((bitStep_injective hp).iterate 8 h)
  exact UInt8.toUInt32_inj.mp hword

theorem remainder_injective (hp : 2 ^ 31 ≤ poly.toNat) (bytes : List UInt8) :
    Function.Injective (remainder poly bytes) := by
  induction bytes with
  | nil => exact fun _ _ h => h
  | cons b bytes ih => exact fun r r' h => byteStep_injective hp b (ih h)

theorem remainder_ne (hp : 2 ^ 31 ≤ poly.toNat) {bytes bytes' : List UInt8} {p : ℕ} (r : UInt32)
    (hsame : ∀ q ≠ p, bytes[q]? = bytes'[q]?) (hlen : bytes.length = bytes'.length)
    (hdiff : bytes[p]? ≠ bytes'[p]?) : remainder poly bytes r ≠ remainder poly bytes' r := by
  induction bytes generalizing bytes' p r with
  | nil =>
    obtain rfl := List.eq_nil_of_length_eq_zero hlen.symm
    exact absurd rfl hdiff
  | cons b bytes ih =>
    obtain ⟨b', bytes', rfl⟩ := List.exists_cons_of_length_eq_add_one hlen.symm
    cases p with
    | zero =>
      have hrest : bytes = bytes' := by
        apply List.ext_getElem?
        intro q
        simpa using hsame (q + 1) (by omega)
      have hb : b ≠ b' := by simpa using hdiff
      subst hrest
      intro h
      exact hb (byteStep_byte_injective hp r (remainder_injective hp bytes h))
    | succ p =>
      have hb : b = b' := by simpa using hsame 0 (by omega)
      subst hb
      apply ih (p := p)
      · intro q hq
        simpa using hsame (q + 1) (by omega)
      · simpa using hlen
      · simpa using hdiff

end MetadataService.Crc
