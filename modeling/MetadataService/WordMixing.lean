import Mathlib.Data.Nat.Notation
import Mathlib.Logic.Function.Basic
import Mathlib.Tactic.Common

namespace MetadataService.WordMixing

variable {m n s : UInt64}

theorem mul_injective (h : m * n = 1) : Function.Injective fun x : UInt64 => x * m := by
  intro x y hxy
  have hmul := congrArg (· * n) hxy
  simpa only [UInt64.mul_assoc, h, UInt64.mul_one] using hmul

def xorShift (s x : UInt64) : UInt64 := x ^^^ (x >>> s)

theorem shiftRight_twice (h : 32 ≤ s.toNat) (h' : s.toNat < 64) (x : UInt64) : x >>> s >>> s = 0 := by
  apply UInt64.toNat_inj.mp
  rw [UInt64.toNat_shiftRight, UInt64.toNat_shiftRight, Nat.mod_eq_of_lt h', ← Nat.shiftRight_add,
    Nat.shiftRight_eq_div_pow, UInt64.toNat_zero]
  apply Nat.div_eq_of_lt
  calc x.toNat < 2 ^ 64 := x.toNat_lt
    _ ≤ 2 ^ (s.toNat + s.toNat) := Nat.pow_le_pow_right (by omega) (by omega)

theorem xorShift_involutive (h : 32 ≤ s.toNat) (h' : s.toNat < 64) : Function.Involutive (xorShift s) := by
  intro x
  rw [xorShift, xorShift, UInt64.shiftRight_xor, shiftRight_twice h h', UInt64.xor_zero, UInt64.xor_assoc,
    UInt64.xor_self, UInt64.xor_zero]

theorem xorShift_injective (h : 32 ≤ s.toNat) (h' : s.toNat < 64) : Function.Injective (xorShift s) :=
  (xorShift_involutive h h').injective

theorem xor_left_injective (a : UInt64) : Function.Injective fun x : UInt64 => a ^^^ x :=
  fun _ _ h => (UInt64.xor_right_inj a).mp h

theorem xor_right_injective (a : UInt64) : Function.Injective fun x : UInt64 => x ^^^ a :=
  fun _ _ h => (UInt64.xor_left_inj a).mp h

end MetadataService.WordMixing
