import Mathlib.Algebra.BigOperators.Group.List.Basic
import Mathlib.Algebra.Ring.Nat
import Mathlib.Data.Set.Lattice
import Mathlib.Order.CompletePartialOrder
import Mathlib.Order.Interval.Set.Basic

namespace MetadataService.WrappingBump

variable {cap bound cur size : ℕ}

def place (cap cur size : ℕ) : ℕ := if cap < cur + size then 0 else cur

inductive Placed (cap : ℕ) : ℕ → List (ℕ × ℕ) → Prop
  | nil {cur : ℕ} : Placed cap cur []
  | cons {cur size : ℕ} {rest : List (ℕ × ℕ)} (h : Placed cap (place cap cur size + size) rest) :
      Placed cap cur ((place cap cur size, size) :: rest)

theorem place_add_le (h : size ≤ cap) : place cap cur size + size ≤ cap := by
  unfold place
  split_ifs <;> omega

theorem Placed.of_append {pre blocks : List (ℕ × ℕ)} (h : Placed cap cur (pre ++ blocks)) :
    ∃ cur', Placed cap cur' blocks := by
  induction pre generalizing cur with
  | nil => exact ⟨cur, h⟩
  | cons b pre ih =>
    cases h with
    | cons h => exact ih h

def block (b : ℕ × ℕ) : Set ℕ := Set.Ico b.1 (b.1 + b.2)

theorem block_disjoint {b b' : ℕ × ℕ} (h : b.1 + b.2 ≤ b'.1 ∨ b'.1 + b'.2 ≤ b.1) :
    Disjoint (block b) (block b') := by
  apply Set.disjoint_left.mpr
  intro a ha ha'
  simp only [block, Set.mem_Ico] at ha ha'
  omega

/-- The cursor, `used` cells of requests after the offset `off` was handed out: it has moved on by as
much, or it has gone back to the front once and has not come near the offset again. -/
def Since (cap bound off used cur : ℕ) : Prop :=
  cur = off + used ∨ cur ≤ used ∧ cur + cap < off + used + bound

theorem Since.step {off used : ℕ} (h : Since cap bound off used cur) (hs : size ≤ bound)
    (hw : used + size + bound ≤ cap) :
    Since cap bound off (used + size) (place cap cur size + size) ∧
      (off + used ≤ place cap cur size ∨ place cap cur size + size ≤ off) := by
  unfold Since at *
  unfold place
  split_ifs <;> omega

theorem Placed.disjoint_of_since {b b' : ℕ × ℕ} {used : ℕ} {mid post : List (ℕ × ℕ)}
    (h : Placed cap cur (mid ++ b' :: post)) (hs : ∀ x ∈ mid ++ b' :: post, x.2 ≤ bound)
    (hc : Since cap bound b.1 used cur) (hu : b.2 ≤ used)
    (hw : used + (mid.map Prod.snd).sum + b'.2 + bound ≤ cap) : Disjoint (block b) (block b') := by
  induction mid generalizing cur used with
  | nil =>
    cases h with
    | @cons _ size _ h =>
      have hsize : size ≤ bound := hs _ List.mem_cons_self
      obtain ⟨-, hapart⟩ := hc.step hsize (by simpa using hw)
      apply block_disjoint
      refine hapart.imp_left fun hbehind => ?_
      exact (Nat.add_le_add_left hu b.1).trans hbehind
  | cons x mid ih =>
    cases h with
    | cons h =>
      obtain ⟨hx, hrest⟩ := List.forall_mem_cons.mp hs
      simp only [List.map_cons, List.sum_cons] at hw
      obtain ⟨hnext, -⟩ := hc.step hx (by omega)
      exact ih h hrest hnext (by omega) (by omega)

theorem Placed.window {b b' : ℕ × ℕ} {pre mid post : List (ℕ × ℕ)}
    (h : Placed cap cur (pre ++ b :: (mid ++ b' :: post)))
    (hs : ∀ x ∈ pre ++ b :: (mid ++ b' :: post), x.2 ≤ bound)
    (hw : b.2 + (mid.map Prod.snd).sum + b'.2 + bound ≤ cap) : Disjoint (block b) (block b') := by
  obtain ⟨cur', h'⟩ := h.of_append
  have hrest : ∀ x ∈ mid ++ b' :: post, x.2 ≤ bound :=
    fun x hx => hs x (List.mem_append_right _ (List.mem_cons_of_mem _ hx))
  cases h' with
  | cons h' => exact h'.disjoint_of_since hrest (.inl rfl) le_rfl hw

end MetadataService.WrappingBump
