import Mathlib.Data.Finmap
import Mathlib.Data.List.Nodup

namespace MetadataService.HeapCells

variable {A O : Type*} [DecidableEq A]

abbrev Heap (A O : Type*) := Finmap fun _ : A => O

structure Allocator (A : Type*) where
  pick : Finset A → A
  fresh : ∀ s, pick s ∉ s

structure Owns (h : Heap A O) (cs : List (A × O)) : Prop where
  stored : ∀ c ∈ cs, h.lookup c.1 = some c.2
  apart : (cs.map Prod.fst).Nodup

namespace Owns

variable {h : Heap A O} {cs cs' : List (A × O)} {a : A} {o o' : O}

theorem nil (h : Heap A O) : Owns h [] := ⟨List.forall_mem_nil _, List.nodup_nil⟩

theorem perm (w : Owns h cs) (hp : cs.Perm cs') : Owns h cs' :=
  ⟨fun c hc => w.stored c (hp.mem_iff.mpr hc), (hp.map Prod.fst).nodup_iff.mp w.apart⟩

theorem lookup (w : Owns h cs) (hc : (a, o) ∈ cs) : h.lookup a = some o := w.stored (a, o) hc

theorem ne_of_tail (w : Owns h ((a, o) :: cs)) {c : A × O} (hc : c ∈ cs) : c.1 ≠ a := by
  intro he
  have hmem : c.1 ∈ cs.map Prod.fst := List.mem_map_of_mem hc
  rw [he] at hmem
  exact (List.nodup_cons.mp w.apart).1 hmem

theorem alloc (w : Owns h cs) (ha : a ∉ h.keys) (o : O) : Owns (h.insert a o) ((a, o) :: cs) := by
  have hnot : ∀ c ∈ cs, c.1 ≠ a := by
    intro c hc he
    apply ha
    rw [Finmap.mem_keys, Finmap.mem_iff]
    exact ⟨c.2, he ▸ w.stored c hc⟩
  constructor
  · intro c hc
    rcases List.mem_cons.mp hc with rfl | hc
    · exact Finmap.lookup_insert h
    · rw [Finmap.lookup_insert_of_ne h (hnot c hc)]
      exact w.stored c hc
  · apply List.nodup_cons.mpr
    refine ⟨?_, w.apart⟩
    intro hmem
    obtain ⟨c, hc, he⟩ := List.mem_map.mp hmem
    exact hnot c hc he

theorem write (w : Owns h ((a, o) :: cs)) (o' : O) : Owns (h.insert a o') ((a, o') :: cs) := by
  constructor
  · intro c hc
    rcases List.mem_cons.mp hc with rfl | hc
    · exact Finmap.lookup_insert h
    · rw [Finmap.lookup_insert_of_ne h (w.ne_of_tail hc)]
      exact w.stored c (List.mem_cons_of_mem _ hc)
  · exact w.apart

theorem free (w : Owns h ((a, o) :: cs)) : Owns (h.erase a) cs := by
  constructor
  · intro c hc
    rw [Finmap.lookup_erase_ne (w.ne_of_tail hc)]
    exact w.stored c (List.mem_cons_of_mem _ hc)
  · exact (List.nodup_cons.mp w.apart).2

theorem write_mid {pre post : List (A × O)} (w : Owns h (pre ++ (a, o) :: post)) (o' : O) :
    Owns (h.insert a o') (pre ++ (a, o') :: post) :=
  ((w.perm List.perm_middle).write o').perm List.perm_middle.symm

theorem free_mid {pre post : List (A × O)} (w : Owns h (pre ++ (a, o) :: post)) :
    Owns (h.erase a) (pre ++ post) :=
  (w.perm List.perm_middle).free

theorem right {cs₁ cs₂ : List (A × O)} (w : Owns h (cs₁ ++ cs₂)) : Owns h cs₂ := by
  constructor
  · intro c hc
    exact w.stored c (List.mem_append_right _ hc)
  · have hap := w.apart
    rw [List.map_append] at hap
    exact hap.of_append_right

end Owns

section Chain

variable {E P : Type*} (ref : E → P) (cells : E → P → List (A × O))

def headRef : List E → P → P
  | [], e => e
  | x :: _, _ => ref x

def chainCells : List E → P → List (A × O)
  | [], _ => []
  | x :: l, e => cells x (headRef ref l e) ++ chainCells l e

variable {ref cells}

omit [DecidableEq A] in
theorem headRef_append (l₁ l₂ : List E) (e : P) :
    headRef ref (l₁ ++ l₂) e = headRef ref l₁ (headRef ref l₂ e) := by
  cases l₁ <;> rfl

omit [DecidableEq A] in
theorem chainCells_append (l₁ l₂ : List E) (e : P) :
    chainCells ref cells (l₁ ++ l₂) e =
      chainCells ref cells l₁ (headRef ref l₂ e) ++ chainCells ref cells l₂ e := by
  induction l₁ with
  | nil => rfl
  | cons x l₁ ih =>
    rw [List.cons_append, chainCells, chainCells, ih, headRef_append, List.append_assoc]

end Chain

end MetadataService.HeapCells
