import Mathlib.Data.Nat.Notation
import Mathlib.Logic.Function.Basic

namespace MetadataService

def RadixTree (w : ℕ) (α : Type*) : ℕ → Type _
  | 0 => Option α
  | n + 1 => Option (Fin w → RadixTree w α n)

namespace RadixTree

variable {w : ℕ} {α : Type*}

def null : (n : ℕ) → RadixTree w α n
  | 0 => none
  | _ + 1 => none

def get : (n : ℕ) → RadixTree w α n → (ℕ → Fin w) → Option α
  | 0, t, _ => t
  | _ + 1, none, _ => none
  | n + 1, some f, d => get n (f (d n)) d

def alloc : (n : ℕ) → RadixTree w α n → (ℕ → Fin w) → RadixTree w α n
  | 0, t, _ => t
  | n + 1, none, d => some (Function.update (fun _ => null n) (d n) (alloc n (null n) d))
  | n + 1, some f, d => some (Function.update f (d n) (alloc n (f (d n)) d))

def set : (n : ℕ) → RadixTree w α n → (ℕ → Fin w) → α → RadixTree w α n
  | 0, _, _, a => some a
  | _ + 1, none, _, _ => none
  | n + 1, some f, d, a => some (Function.update f (d n) (set n (f (d n)) d a))

@[simp] theorem get_null (n : ℕ) (d : ℕ → Fin w) : get n (null n : RadixTree w α n) d = none := by
  cases n <;> rfl

theorem get_alloc (n : ℕ) (t : RadixTree w α n) (d e : ℕ → Fin w) : get n (alloc n t d) e = get n t e := by
  induction n with
  | zero => rfl
  | succ n ih =>
    cases t with
    | none =>
      simp only [alloc, get]
      by_cases h : e n = d n
      · rw [h, Function.update_self, ih, get_null]
      · rw [Function.update_of_ne h, get_null]
    | some f =>
      simp only [alloc, get]
      by_cases h : e n = d n
      · rw [h, Function.update_self, ih]
      · rw [Function.update_of_ne h]

theorem get_set_alloc (n : ℕ) (t : RadixTree w α n) (d : ℕ → Fin w) (a : α) :
    get n (set n (alloc n t d) d a) d = some a := by
  induction n with
  | zero => rfl
  | succ n ih =>
    cases t with
    | none => simp only [alloc, set, get, Function.update_self, ih]
    | some f => simp only [alloc, set, get, Function.update_self, ih]

theorem get_set_ne (n : ℕ) (t : RadixTree w α n) {d e : ℕ → Fin w} (h : ∃ i < n, e i ≠ d i) (a : α) :
    get n (set n t d a) e = get n t e := by
  induction n with
  | zero =>
    obtain ⟨i, hi, -⟩ := h
    exact absurd hi (Nat.not_lt_zero i)
  | succ n ih =>
    cases t with
    | none => rfl
    | some f =>
      simp only [set, get]
      by_cases he : e n = d n
      · -- the digits that differ are below this one
        have hbelow : ∃ i < n, e i ≠ d i := by
          obtain ⟨i, hi, hne⟩ := h
          have hin : i ≠ n := fun hin => hne (hin ▸ he)
          exact ⟨i, by omega, hne⟩
        rw [he, Function.update_self, ih _ hbelow]
      · rw [Function.update_of_ne he]

end RadixTree

end MetadataService
