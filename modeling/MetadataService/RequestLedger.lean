import Mathlib.Data.List.Count
import Mathlib.Data.List.Perm.Basic
import Mathlib.Data.Int.Cast.Basic
import Mathlib.Logic.Function.Basic

namespace MetadataService.RequestLedger

variable {R O C : Type} [DecidableEq O] {owner : R → O} {channel : R → C} {entries : List C}
  {counts : O → ℤ} {us : List R} {r : R} {o : O}

structure Balanced (owner : R → O) (channel : R → C) (entries : List C) (counts : O → ℤ)
    (us : List R) : Prop where
  counts : ∀ o, counts o = (us.map owner).count o
  entries : entries.Perm (us.map channel)

theorem balanced_nil : Balanced owner channel [] (fun _ => 0) [] :=
  ⟨fun _ => rfl, List.Perm.nil⟩

namespace Balanced

theorem perm {vs : List R} (h : Balanced owner channel entries counts us) (hp : us.Perm vs) :
    Balanced owner channel entries counts vs := by
  constructor
  · intro o
    rw [h.counts, (hp.map owner).count_eq]
  · exact h.entries.trans (hp.map channel)

theorem enter (h : Balanced owner channel entries counts us) (r : R) :
    Balanced owner channel (entries ++ [channel r])
      (Function.update counts (owner r) (counts (owner r) + 1)) (r :: us) := by
  constructor
  · intro o
    rw [List.map_cons, List.count_cons]
    by_cases ho : o = owner r
    · subst ho
      simp [h.counts]
    · simp [Function.update_of_ne ho, h.counts, Ne.symm ho]
  · apply (List.perm_append_singleton _ _).trans
    exact h.entries.cons (channel r)

theorem settle {i : ℕ} (h : Balanced owner channel entries counts (r :: us))
    (hi : entries[i]? = some (channel r)) :
    Balanced owner channel (entries.eraseIdx i)
      (Function.update counts (owner r) (counts (owner r) - 1)) us := by
  constructor
  · intro o
    have hc := h.counts o
    rw [List.map_cons, List.count_cons] at hc
    by_cases ho : o = owner r
    · subst ho
      simp [hc]
    · simp [Function.update_of_ne ho, hc, Ne.symm ho]
  · obtain ⟨hlt, hget⟩ := List.getElem?_eq_some_iff.mp hi
    have herase := List.getElem_cons_eraseIdx_perm hlt
    rw [hget] at herase
    exact (herase.trans h.entries).cons_inv

theorem count_pos (h : Balanced owner channel entries counts us) (hr : r ∈ us) :
    0 < counts (owner r) := by
  rw [h.counts]
  exact_mod_cast List.count_pos_iff.mpr (List.mem_map_of_mem hr)

theorem exists_of_entry {q : C} (h : Balanced owner channel entries counts us) (hq : q ∈ entries) :
    ∃ r ∈ us, channel r = q :=
  List.mem_map.mp (h.entries.mem_iff.mp hq)

theorem agrees_iff [DecidableEq C] {vs : List R} (h : Balanced owner channel entries counts (us ++ vs)) :
    ((∀ o, counts o = (us.map owner).count o) ∧ ∀ q, entries.count q = (us.map channel).count q) ↔
      vs = [] := by
  constructor
  · rintro ⟨hc, -⟩
    rw [List.eq_nil_iff_forall_not_mem]
    intro r hr
    have hsum := (h.counts (owner r)).symm.trans (hc (owner r))
    rw [List.map_append, List.count_append] at hsum
    have hpos := List.count_pos_iff.mpr (List.mem_map_of_mem (f := owner) hr)
    omega
  · rintro rfl
    rw [List.append_nil] at h
    exact ⟨h.counts, fun q => h.entries.count_eq q⟩

end Balanced

end MetadataService.RequestLedger
