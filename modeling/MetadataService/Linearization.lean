import MetadataService.Interleaving
import Mathlib.Order.Defs.PartialOrder

namespace MetadataService.Threads

variable {T S L σ R : Type*} [DecidableEq T]

def During (prog : S × L → S × L → Prop) (busy : L → Prop) (t : T) : Threads T S L → Threads T S L → Prop :=
  Relation.ReflTransGen fun c d => (∃ u, Moves prog u c d) ∧ busy (d.point t)

def Within (prog : S × L → S × L → Prop) (keeps : S → S → L → Prop) (busy : L → Prop) (t : T) :
    Threads T S L → Threads T S L → Prop :=
  Relation.ReflTransGen fun c d =>
    (∃ u, Moves prog u c d) ∧ (∀ u, keeps c.shared d.shared (c.point u)) ∧ busy (d.point t)

def Quiet (prog : S × L → S × L → Prop) (abs : S → σ) (busy : L → Prop) (t : T) :
    Threads T S L → Threads T S L → Prop :=
  Relation.ReflTransGen fun c d =>
    ∃ u, Moves prog u c d ∧ busy (d.point t) ∧ (u = t → abs d.shared = abs c.shared)

def TakesEffect (prog : S × L → S × L → Prop) (abs : S → σ) (busy : L → Prop) (t : T) (spec : σ → σ → Prop)
    (c d : Threads T S L) : Prop :=
  ∃ m m', Quiet prog abs busy t c m ∧ Moves prog t m m' ∧ spec (abs m.shared) (abs m'.shared) ∧
    Quiet prog abs busy t m' d

variable {prog : S × L → S × L → Prop} {keeps : S → S → L → Prop} {abs : S → σ} {busy : L → Prop} {t : T}
  {spec : R → σ → σ → Prop} {c d e : Threads T S L} {r : R}

theorem During.reachable (h : During prog busy t c d) : Reachable prog c d :=
  Relation.ReflTransGen.mono (fun _ _ hm => hm.1) _ _ h

theorem Within.guarded (h : Within prog keeps busy t c d) : Guarded prog keeps c d :=
  Relation.ReflTransGen.mono (fun _ _ hm => ⟨hm.1, hm.2.1⟩) _ _ h

theorem Within.during (h : Within prog keeps busy t c d) : During prog busy t c d :=
  Relation.ReflTransGen.mono (fun _ _ hm => ⟨hm.1, hm.2.2⟩) _ _ h

theorem Quiet.tail (h : Quiet prog abs busy t c d) {u : T} (hm : Moves prog u d e) (hb : busy (e.point t))
    (hu : u = t → abs e.shared = abs d.shared) : Quiet prog abs busy t c e :=
  Relation.ReflTransGen.tail h ⟨u, hm, hb, hu⟩

theorem TakesEffect.tail {spec : σ → σ → Prop} (h : TakesEffect prog abs busy t spec c d) {u : T}
    (hm : Moves prog u d e) (hb : busy (e.point t)) (hu : u = t → abs e.shared = abs d.shared) :
    TakesEffect prog abs busy t spec c e := by
  obtain ⟨m, m', hquiet, hstep, hspec, hquiet'⟩ := h
  exact ⟨m, m', hquiet, hstep, hspec, hquiet'.tail hm hb hu⟩

def replay {X : Type*} (act : X → S × L → Option (S × L)) (ok : Threads T S L → Threads T S L → Bool)
    (keep : L → Bool) (t : T) : List (T × X) → Threads T S L → Option (Threads T S L)
  | [], c => some c
  | (u, x) :: xs, c =>
    match act x (c.shared, c.point u) with
    | some (s, l) =>
      if ok c (c.set u s l) && keep ((c.set u s l).point t) then replay act ok keep t xs (c.set u s l) else none
    | none => none

theorem replay_within {X : Type*} {act : X → S × L → Option (S × L)} {ok : Threads T S L → Threads T S L → Bool}
    {keep : L → Bool} (hact : ∀ x p q, act x p = some q → prog p q)
    (hok : ∀ c d, ok c d = true → ∀ u, keeps c.shared d.shared (c.point u))
    (hkeep : ∀ l, keep l = true → busy l) {xs : List (T × X)} (h : replay act ok keep t xs c = some d) :
    Within prog keeps busy t c d := by
  induction xs generalizing c with
  | nil =>
    cases h
    exact .refl
  | cons x xs ih =>
    obtain ⟨u, x⟩ := x
    rw [replay] at h
    cases hx : act x (c.shared, c.point u) with
    | none =>
      rw [hx] at h
      cases h
    | some q =>
      simp only [hx] at h
      split at h
      · rename_i hk
        obtain ⟨ho, hk⟩ := Bool.and_eq_true_iff.mp hk
        exact .head ⟨⟨u, q.1, q.2, hact _ _ _ hx, rfl⟩, hok _ _ ho, hkeep _ hk⟩ (ih h)
      · cases h

theorem replay_during {X : Type*} {act : X → S × L → Option (S × L)} {keep : L → Bool}
    (hact : ∀ x p q, act x p = some q → prog p q) (hkeep : ∀ l, keep l = true → busy l) {xs : List (T × X)}
    (h : replay act (fun _ _ => true) keep t xs c = some d) : During prog busy t c d := by
  have hwithin : Within prog (fun _ _ _ => True) busy t c d :=
    replay_within hact (fun _ _ _ _ => trivial) hkeep h
  exact hwithin.during

end MetadataService.Threads
