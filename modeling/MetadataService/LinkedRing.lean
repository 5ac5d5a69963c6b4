import Mathlib.Data.List.Iterate
import Mathlib.Data.List.Nodup
import Mathlib.Logic.Function.Iterate

namespace MetadataService.LinkedRing

variable {A : Type} {next prev : A → A} {p q x head tail : A} {l a b : List A}

def Path (next prev : A → A) : A → List A → A → Prop
  | p, [], q => next p = q
  | p, x :: l, q => next p = x ∧ prev x = p ∧ Path next prev x l q

structure Ring (next prev : A → A) (head tail : A) (l : List A) : Prop where
  nodup : (head :: l).Nodup
  path : Path next prev head l head
  last : (head :: l).getLast (List.cons_ne_nil head l) = tail

theorem getLast_skip (p x : A) (a b : List A) :
    (p :: (a ++ x :: b)).getLast (List.cons_ne_nil p _) = (x :: b).getLast (List.cons_ne_nil x b) := by
  rw [List.getLast_cons (by simp), List.getLast_append_of_ne_nil]

theorem path_append : Path next prev p (a ++ x :: b) q ↔
    Path next prev p a x ∧ prev x = (p :: a).getLast (List.cons_ne_nil p a) ∧ Path next prev x b q := by
  induction a generalizing p with
  | nil =>
    simp only [List.nil_append, Path, List.getLast_singleton]
  | cons y a ih =>
    simp only [List.cons_append, Path, ih, List.getLast_cons_cons, and_assoc]

theorem Path.congr {next' prev' : A → A} (h : Path next prev p l q) (hn : ∀ y ∈ p :: l, next' y = next y)
    (hp : ∀ y ∈ l, prev' y = prev y) : Path next' prev' p l q := by
  induction l generalizing p with
  | nil => exact (hn p List.mem_cons_self).trans h
  | cons x l ih =>
    obtain ⟨hnx, hpx, ht⟩ := h
    refine ⟨(hn p List.mem_cons_self).trans hnx, (hp x List.mem_cons_self).trans hpx, ?_⟩
    apply ih ht
    · intro y hy
      exact hn y (List.mem_cons_of_mem p hy)
    · intro y hy
      exact hp y (List.mem_cons_of_mem x hy)

theorem Path.iterate (h : Path next prev p l q) : List.iterate next p (l.length + 1) = p :: l := by
  induction l generalizing p with
  | nil => rfl
  | cons x l ih =>
    obtain ⟨hnx, -, ht⟩ := h
    rw [List.length_cons, List.iterate, hnx, ih ht]

theorem path_iterate (h : ∀ x, prev (next x) = x) (p : A) (n : ℕ) :
    Path next prev p (List.iterate next (next p) n) (next^[n + 1] p) := by
  induction n generalizing p with
  | zero => rfl
  | succ n ih => exact ⟨rfl, h p, ih (next p)⟩

theorem Path.next_mem (h : Path next prev p l q) (hx : x ∈ p :: l) : next x ∈ l ∨ next x = q := by
  induction l generalizing p with
  | nil =>
    rw [List.mem_singleton.mp hx]
    exact .inr h
  | cons y l ih =>
    obtain ⟨hny, -, ht⟩ := h
    rcases List.mem_cons.mp hx with rfl | hx
    · left
      rw [hny]
      exact List.mem_cons_self
    · rcases ih ht hx with hm | hq
      · exact .inl (List.mem_cons_of_mem y hm)
      · exact .inr hq

theorem Path.next_last (h : Path next prev p l q) : next ((p :: l).getLast (List.cons_ne_nil p l)) = q := by
  induction l generalizing p with
  | nil => exact h
  | cons x l ih =>
    rw [List.getLast_cons_cons]
    exact ih h.2.2

theorem Path.prev_next (h : Path next prev p l q) (hx : x ∈ p :: l) :
    x = (p :: l).getLast (List.cons_ne_nil p l) ∨ prev (next x) = x := by
  induction l generalizing p with
  | nil => exact .inl (List.mem_singleton.mp hx)
  | cons y l ih =>
    obtain ⟨hny, hpy, ht⟩ := h
    rcases List.mem_cons.mp hx with rfl | hx
    · right
      rw [hny, hpy]
    · rw [List.getLast_cons_cons]
      exact ih ht hx

theorem Path.next_prev (h : Path next prev p l q) (hx : x ∈ l) : next (prev x) = x := by
  induction l generalizing p with
  | nil => cases hx
  | cons y l ih =>
    obtain ⟨hny, hpy, ht⟩ := h
    rcases List.mem_cons.mp hx with rfl | hx
    · rw [hpy, hny]
    · exact ih ht hx

variable [DecidableEq A]

theorem Path.retarget (h : Path next prev p l q) (hn : (p :: l).Nodup) (r : A) :
    Path (Function.update next ((p :: l).getLast (List.cons_ne_nil p l)) r) prev p l r := by
  induction l generalizing p with
  | nil => exact Function.update_self p r next
  | cons x l ih =>
    obtain ⟨hnx, hpx, ht⟩ := h
    obtain ⟨hp, hn⟩ := List.nodup_cons.mp hn
    have hne : p ≠ (x :: l).getLast (List.cons_ne_nil x l) := fun he => hp (he ▸ List.getLast_mem _)
    rw [List.getLast_cons_cons]
    exact ⟨(Function.update_of_ne hne r next).trans hnx, hpx, ih ht hn⟩

namespace Ring

omit [DecidableEq A] in
theorem next_tail (R : Ring next prev head tail l) : next tail = head := by
  rw [← R.last]
  exact R.path.next_last

omit [DecidableEq A] in
theorem mem_iff_iterate (R : Ring next prev head tail l) : x ∈ head :: l ↔ ∃ j, next^[j] head = x := by
  constructor
  · intro hx
    rw [← R.path.iterate] at hx
    obtain ⟨j, -, hj⟩ := List.mem_iterate.mp hx
    exact ⟨j, hj.symm⟩
  · rintro ⟨j, rfl⟩
    induction j with
    | zero => exact List.mem_cons_self
    | succ j ih =>
      rw [Function.iterate_succ_apply']
      rcases R.path.next_mem ih with h | h
      · exact List.mem_cons_of_mem head h
      · rw [h]
        exact List.mem_cons_self

omit [DecidableEq A] in
theorem tail_mem (R : Ring next prev head tail l) : tail ∈ head :: l := by
  rw [← R.last]
  exact List.getLast_mem _

omit [DecidableEq A] in
theorem inverse_iff (R : Ring next prev head tail l) :
    (∀ x ∈ head :: l, prev (next x) = x ∧ next (prev x) = x) ↔ prev head = tail := by
  constructor
  · intro h
    rw [← R.next_tail]
    exact (h tail R.tail_mem).1
  · intro hclosed x hx
    constructor
    · rcases R.path.prev_next hx with hlast | hback
      · rw [hlast, R.last, R.next_tail]
        exact hclosed
      · exact hback
    · rcases List.mem_cons.mp hx with rfl | hx
      · rw [hclosed, R.next_tail]
      · exact R.path.next_prev hx

theorem append {c : A} (R : Ring next prev head tail l) (hc : c ∉ head :: l) :
    Ring (Function.update (Function.update next tail c) c head) (Function.update prev c tail) head c
      (l ++ [c]) := by
  have hl : ∀ y ∈ head :: l, y ≠ c := fun y hy he => hc (he ▸ hy)
  have hto := R.path.retarget R.nodup c
  rw [R.last] at hto
  refine ⟨?_, path_append.mpr ⟨?_, ?_, ?_⟩, ?_⟩
  · rw [← List.cons_append]
    exact List.nodup_append.mpr ⟨R.nodup, List.nodup_singleton c,
      fun y hy z hz => List.mem_singleton.mp hz ▸ hl y hy⟩
  · apply hto.congr
    · intro y hy
      rw [Function.update_of_ne (hl y hy)]
    · intro y hy
      rw [Function.update_of_ne (hl y (List.mem_cons_of_mem head hy))]
  · rw [Function.update_self, R.last]
  · rw [Path, Function.update_self]
  · rw [List.getLast_cons (by simp), List.getLast_append_singleton]

theorem remove {c : A} (R : Ring next prev head tail (a ++ c :: b)) :
    Ring (Function.update next (prev c) (next c)) (Function.update prev (next c) (prev c)) head
      (if tail = c then prev c else tail) (a ++ b) := by
  obtain ⟨hto, hprev, hfrom⟩ := path_append.mp R.path
  have hn := R.nodup
  rw [← List.cons_append, List.nodup_middle, List.nodup_cons, List.cons_append] at hn
  obtain ⟨hc, hnab⟩ := hn
  have hna : (head :: a).Nodup := by
    rw [← List.cons_append] at hnab
    exact (List.nodup_append.mp hnab).1
  have hlast := R.last
  have hcut := hto.retarget hna (next c)
  rw [← hprev] at hcut
  cases b with
  | nil =>
    have hnext : next c = head := hfrom
    have htail : tail = c := by simpa using hlast.symm
    rw [if_pos htail, List.append_nil]
    refine ⟨hna, ?_, hprev.symm⟩
    rw [hnext] at hcut ⊢
    apply hcut.congr (fun _ _ => rfl)
    intro y hy
    rw [Function.update_of_ne]
    rintro rfl
    exact (List.nodup_cons.mp hna).1 hy
  | cons d b =>
    obtain ⟨hnext, -, hrest⟩ := hfrom
    have hin : tail ∈ d :: b := by
      rw [← hlast, getLast_skip, List.getLast_cons_cons]
      exact List.getLast_mem _
    have htail : tail ≠ c := fun he => hc (List.mem_cons_of_mem head (List.mem_append_right a (he ▸ hin)))
    rw [← List.cons_append] at hnab
    obtain ⟨-, hnb, hapart⟩ := List.nodup_append.mp hnab
    rw [if_neg htail, hnext]
    rw [hnext] at hcut
    refine ⟨hnab, path_append.mpr ⟨?_, ?_, ?_⟩, ?_⟩
    · apply hcut.congr (fun _ _ => rfl)
      intro y hy
      rw [Function.update_of_ne]
      exact hapart y (List.mem_cons_of_mem head hy) d List.mem_cons_self
    · rw [Function.update_self, hprev]
    · apply hrest.congr
      · intro y hy
        rw [Function.update_of_ne]
        rw [hprev]
        exact (hapart _ (List.getLast_mem _) y hy).symm
      · intro y hy
        rw [Function.update_of_ne]
        rintro rfl
        exact (List.nodup_cons.mp hnb).1 hy
    · rw [← hlast, getLast_skip, getLast_skip, List.getLast_cons_cons]

theorem append_open {c : A} (R : Ring next prev head tail l) (hc : c ∉ head :: l)
    (hclosed : prev head = tail) : Function.update prev c tail head ≠ c := by
  have hhead : head ≠ c := fun he => hc (he ▸ List.mem_cons_self)
  rw [Function.update_of_ne hhead, hclosed]
  exact fun he => hc (he ▸ R.tail_mem)

theorem remove_closed {c : A} (R : Ring next prev head tail (a ++ c :: b)) (hclosed : prev head = tail) :
    Function.update prev (next c) (prev c) head = if tail = c then prev c else tail := by
  by_cases htail : tail = c
  · rw [if_pos htail, ← htail, R.next_tail, Function.update_self]
  · have hmem : c ∈ head :: (a ++ c :: b) := by simp
    have hback := (R.inverse_iff.mpr hclosed c hmem).1
    have hnext : head ≠ next c := by
      intro he
      rw [← he, hclosed] at hback
      exact htail hback
    rw [if_neg htail, Function.update_of_ne hnext, hclosed]

end Ring

end MetadataService.LinkedRing
