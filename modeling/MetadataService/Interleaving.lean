import Mathlib.Algebra.BigOperators.Group.Finset.Piecewise
import Mathlib.Logic.Function.Basic
import Mathlib.Logic.Relation
import Mathlib.Tactic.Abel

namespace MetadataService

structure Threads (T S L : Type*) where
  shared : S
  point : T → L

namespace Threads

variable {T S L : Type*} [DecidableEq T]

def start (s : S) (l : L) : Threads T S L := ⟨s, fun _ => l⟩

def set (c : Threads T S L) (t : T) (s : S) (l : L) : Threads T S L :=
  ⟨s, Function.update c.point t l⟩

@[simp] theorem set_point_self (c : Threads T S L) (t : T) (s : S) (l : L) :
    (c.set t s l).point t = l :=
  Function.update_self ..

theorem set_point_ne (c : Threads T S L) {t u : T} (h : u ≠ t) (s : S) (l : L) :
    (c.set t s l).point u = c.point u :=
  Function.update_of_ne h ..

theorem sum_set_add [Fintype T] {M : Type*} [AddCommMonoid M] (f : L → M) (c : Threads T S L) (t : T) (s : S)
    (l : L) : ∑ u, f ((c.set t s l).point u) + f (c.point t) = ∑ u, f (c.point u) + f l := by
  have hupdate : (fun u => f ((c.set t s l).point u)) = Function.update (fun u => f (c.point u)) t (f l) := by
    funext u
    by_cases hu : u = t
    · subst hu
      simp
    · simp [set_point_ne c hu, hu]
  rw [hupdate, Finset.sum_update_of_mem (Finset.mem_univ t),
    Finset.sum_eq_add_sum_sdiff_singleton_of_mem (Finset.mem_univ t) fun u => f (c.point u)]
  abel

theorem sum_set [Fintype T] {M : Type*} [AddCommGroup M] (f : L → M) (c : Threads T S L) (t : T) (s : S) (l : L) :
    ∑ u, f ((c.set t s l).point u) = ∑ u, f (c.point u) + (f l - f (c.point t)) := by
  rw [← add_sub_assoc, ← sum_set_add f c t s l, add_sub_cancel_right]

def Moves (prog : S × L → S × L → Prop) (t : T) (c d : Threads T S L) : Prop :=
  ∃ s l, prog (c.shared, c.point t) (s, l) ∧ d = c.set t s l

def Reachable (prog : S × L → S × L → Prop) : Threads T S L → Threads T S L → Prop :=
  Relation.ReflTransGen fun c d => ∃ t, Moves prog t c d

variable {prog : S × L → S × L → Prop} {c d : Threads T S L}

theorem Reachable.step (h : Reachable prog c d) {t : T} {l l' : L} {s : S} (hl : d.point t = l)
    (hp : prog (d.shared, l) (s, l')) : Reachable prog c (d.set t s l') := by
  apply Relation.ReflTransGen.tail h
  subst hl
  exact ⟨t, s, l', hp, rfl⟩

theorem Reachable.shared_inv {I : S → Prop} (h : Reachable prog c d) (h0 : I c.shared)
    (hstep : ∀ s l s' l', I s → prog (s, l) (s', l') → I s') : I d.shared := by
  induction h with
  | refl => exact h0
  | tail _ hm ih =>
    obtain ⟨t, s, l, hp, rfl⟩ := hm
    exact hstep _ _ _ _ ih hp

theorem Reachable.pair_inv {I : S → Prop} {P : S → L → Prop} {R : L → L → Prop} (h : Reachable prog c d)
    (hsymm : ∀ l m, R l m → R m l) (h0 : I c.shared) (hp0 : ∀ t, P c.shared (c.point t))
    (hr0 : ∀ t u, t ≠ u → R (c.point t) (c.point u))
    (hstep : ∀ s l s' l', I s → P s l → prog (s, l) (s', l') → I s' ∧ P s' l')
    (hother : ∀ s l s' l' m, I s → P s l → prog (s, l) (s', l') → P s m → R l m → P s' m ∧ R l' m) :
    I d.shared ∧ (∀ t, P d.shared (d.point t)) ∧ ∀ t u, t ≠ u → R (d.point t) (d.point u) := by
  induction h with
  | refl => exact ⟨h0, hp0, hr0⟩
  | @tail d e _ hm ih =>
    obtain ⟨hI, hP, hR⟩ := ih
    obtain ⟨t, s, l, hp, rfl⟩ := hm
    obtain ⟨hI', hl⟩ := hstep _ _ _ _ hI (hP t) hp
    have hothers (u : T) (hu : u ≠ t) : P s (d.point u) ∧ R l (d.point u) :=
      hother _ _ _ _ _ hI (hP t) hp (hP u) (hR t u hu.symm)
    refine ⟨hI', fun u => ?_, fun u v huv => ?_⟩
    · by_cases hu : u = t
      · subst hu
        rw [set_point_self]
        exact hl
      · rw [set_point_ne _ hu]
        exact (hothers u hu).1
    · by_cases hu : u = t
      · subst hu
        rw [set_point_self, set_point_ne _ huv.symm]
        exact (hothers v huv.symm).2
      · by_cases hv : v = t
        · subst hv
          rw [set_point_self, set_point_ne _ hu]
          exact hsymm _ _ (hothers u hu).2
        · rw [set_point_ne _ hu, set_point_ne _ hv]
          exact hR u v huv

theorem Reachable.local_inv {I : S → Prop} {P : S → L → Prop} (h : Reachable prog c d) (h0 : I c.shared)
    (hp0 : ∀ t, P c.shared (c.point t))
    (hstep : ∀ s l s' l', I s → P s l → prog (s, l) (s', l') → I s' ∧ P s' l')
    (hstable : ∀ s l s' l' m, I s → P s l → prog (s, l) (s', l') → P s m → P s' m) :
    I d.shared ∧ ∀ t, P d.shared (d.point t) := by
  have hpair := h.pair_inv (R := fun _ _ => True) (fun _ _ _ => trivial) h0 hp0 (fun _ _ _ => trivial) hstep
    fun s l s' l' m hI hP hp hm _ => ⟨hstable s l s' l' m hI hP hp hm, trivial⟩
  exact ⟨hpair.1, hpair.2.1⟩

/-- Runs in which no step takes from another thread what `keeps` says that the thread relies on. -/
def Guarded (prog : S × L → S × L → Prop) (keeps : S → S → L → Prop) : Threads T S L → Threads T S L → Prop :=
  Relation.ReflTransGen fun c d => (∃ t, Moves prog t c d) ∧ ∀ u, keeps c.shared d.shared (c.point u)

theorem Guarded.local_inv {keeps : S → S → L → Prop} {I : S → Prop} {P : S → L → Prop}
    (h : Guarded prog keeps c d) (h0 : I c.shared) (hp0 : ∀ t, P c.shared (c.point t))
    (hstep : ∀ s l s' l', I s → P s l → prog (s, l) (s', l') → keeps s s' l → I s' ∧ P s' l')
    (hstable : ∀ s l s' l' m, I s → P s l → prog (s, l) (s', l') → keeps s s' l → P s m → keeps s s' m → P s' m) :
    I d.shared ∧ ∀ t, P d.shared (d.point t) := by
  induction h with
  | refl => exact ⟨h0, hp0⟩
  | @tail d e _ hm ih =>
    obtain ⟨hI, hP⟩ := ih
    obtain ⟨⟨t, s, l, hp, rfl⟩, hkeeps⟩ := hm
    obtain ⟨hI', hl⟩ := hstep _ _ _ _ hI (hP t) hp (hkeeps t)
    refine ⟨hI', fun u => ?_⟩
    by_cases hu : u = t
    · subst hu
      rw [set_point_self]
      exact hl
    · rw [set_point_ne _ hu]
      exact hstable _ _ _ _ _ hI (hP t) hp (hkeeps t) (hP u) (hkeeps u)

def map {S' L' : Type*} (f : S → S') (g : L → L') (c : Threads T S L) : Threads T S' L' :=
  ⟨f c.shared, g ∘ c.point⟩

theorem map_set {S' L' : Type*} (f : S → S') (g : L → L') (c : Threads T S L) (t : T) (s : S) (l : L) :
    (c.set t s l).map f g = (c.map f g).set t (f s) (g l) := by
  simp [map, set, Function.comp_update]

theorem Reachable.map {S' L' : Type*} {prog' : S' × L' → S' × L' → Prop} {f : S → S'} {g : L → L'}
    (h : Reachable prog c d)
    (hstep : ∀ s l s' l', prog (s, l) (s', l') → prog' (f s, g l) (f s', g l')) :
    Reachable prog' (c.map f g) (d.map f g) := by
  induction h with
  | refl => exact .refl
  | tail _ hm ih =>
    obtain ⟨t, s, l, hp, rfl⟩ := hm
    rw [map_set]
    exact ih.step rfl (hstep _ _ _ _ hp)

end Threads

end MetadataService
