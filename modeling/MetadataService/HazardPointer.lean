import MetadataService.Reclaimer
import Mathlib.Data.List.Induction
import Mathlib.Logic.Function.Basic

namespace MetadataService

-- `reclaimer_` is the one reclaimer of the thread or null; a handle with a null one has a null index,
-- for which `UnMarkHazard` returns at once.
structure HazardPointer where
  index : Reclaimer.HPIndex
  deriving DecidableEq

namespace HazardPointer

variable {P F : Type*}

def null : HazardPointer := ⟨none⟩

def mark (r : Reclaimer P F) (p : Option P) : Reclaimer P F × HazardPointer :=
  ((r.markHazard p).1, ⟨(r.markHazard p).2⟩)

def move (other : HazardPointer) : HazardPointer × HazardPointer := (⟨other.index⟩, null)

def unMark (hp : HazardPointer) (r : Reclaimer P F) : Option (Reclaimer P F) := r.unMarkHazard hp.index

end HazardPointer

structure Scope (H P F : Type*) where
  reclaimer : Reclaimer P F
  handles : H → Option HazardPointer

namespace Scope

variable {H P F : Type*}

inductive Op (H P F : Type*)
  | default (h : H)
  | mark (h : H) (p : Option P)
  | moveConstruct (h other : H)
  | moveAssign (h other : H)
  | unMark (h : H)
  | destroy (h : H)
  | reclaimLater (p : P) (f : F)
  | reclaimNoHazardPointer

def Op.unmarks : Op H P F → Option H
  | .unMark h => some h
  | .destroy h => some h
  | _ => none

def new (r : Reclaimer P F) : Scope H P F := ⟨r, fun _ => none⟩

def index (s : Scope H P F) (h : H) : Reclaimer.HPIndex := (s.handles h).bind (·.index)

variable [DecidableEq H]

def construct (s : Scope H P F) (h : H) (r : Reclaimer P F) (hp : HazardPointer) : Option (Scope H P F) :=
  if s.handles h = none then some ⟨r, Function.update s.handles h (some hp)⟩ else none

def moveTo (s : Scope H P F) (h other : H) (hp : HazardPointer) : Scope H P F :=
  { s with handles :=
      Function.update (Function.update s.handles h (some hp.move.1)) other (some hp.move.2) }

def Op.held : Op H P F → (H → Option P) → H → Option P
  | .default h, m => Function.update m h none
  | .mark h p, m => Function.update m h p
  | .moveConstruct h other, m => Function.update (Function.update m h (m other)) other none
  | .moveAssign h other, m => Function.update (Function.update m h (m other)) other none
  | .unMark h, m => Function.update m h none
  | .destroy h, m => Function.update m h none
  | .reclaimLater _ _, m => m
  | .reclaimNoHazardPointer, m => m

def held (ops : List (Op H P F)) : H → Option P := ops.foldl (fun m op => op.held m) fun _ => none

/-- What the operations alone say of a handle: it has no index, it stands for a pointer, it has been
unmarked and keeps its index, or a pointer has been marked since it was unmarked. -/
inductive Status
  | clear
  | live
  | idle
  | stale
  deriving DecidableEq

def Status.aged : Status → Status
  | .clear => .clear
  | .live => .live
  | .idle => .stale
  | .stale => .stale

def Status.unmarked : Status → Status
  | .clear => .clear
  | .live => .idle
  | .idle => .idle
  | .stale => .stale

def Op.status : Op H P F → (H → Status) → H → Status
  | .default h, st => Function.update st h .clear
  | .mark h none, st => Function.update st h .clear
  | .mark h (some _), st => Function.update (fun g => (st g).aged) h .live
  | .moveConstruct h other, st => Function.update (Function.update st h (st other)) other .clear
  | .moveAssign h other, st => Function.update (Function.update st h (st other)) other .clear
  | .unMark h, st => Function.update st h (st h).unmarked
  | .destroy h, st => Function.update st h .clear
  | .reclaimLater _ _, st => st
  | .reclaimNoHazardPointer, st => st

def Op.Touches (op : Op H P F) (st : H → Status) : Prop := op.unmarks.any (st · = .stale)

instance (op : Op H P F) (st : H → Status) : Decidable (op.Touches st) := inferInstanceAs (Decidable (_ = true))

/-- No handle is unmarked or destroyed that has been unmarked before, with another mark in between, and
has not been overwritten since. -/
def StaleUntouched : (H → Status) → List (Op H P F) → Prop
  | _, [] => True
  | st, op :: ops => ¬ op.Touches st ∧ StaleUntouched (op.status st) ops

instance StaleUntouched.decidable : (st : H → Status) → (ops : List (Op H P F)) →
    Decidable (StaleUntouched st ops)
  | _, [] => isTrue trivial
  | st, op :: ops =>
    have := StaleUntouched.decidable (op.status st) ops
    inferInstanceAs (Decidable (_ ∧ _))

theorem held_concat (ops : List (Op H P F)) (op : Op H P F) : held (ops ++ [op]) = op.held (held ops) := by
  simp [held, List.foldl_append]

variable [DecidableEq P]

def exec (s : Scope H P F) : Op H P F → Option (Scope H P F)
  | .default h => s.construct h s.reclaimer .null
  | .mark h p => s.construct h (HazardPointer.mark s.reclaimer p).1 (HazardPointer.mark s.reclaimer p).2
  | .moveConstruct h other =>
    if s.handles h = none then (s.handles other).map (s.moveTo h other) else none
  | .moveAssign h other =>
    if s.handles h = none then none else (s.handles other).map (s.moveTo h other)
  | .unMark h =>
    ((s.handles h).bind (·.unMark s.reclaimer)).map fun r => { s with reclaimer := r }
  | .destroy h =>
    ((s.handles h).bind (·.unMark s.reclaimer)).map fun r => ⟨r, Function.update s.handles h none⟩
  | .reclaimLater p f => some { s with reclaimer := s.reclaimer.reclaimLater p f }
  | .reclaimNoHazardPointer => some { s with reclaimer := s.reclaimer.reclaimNoHazardPointer.2 }

def run (s : Scope H P F) (ops : List (Op H P F)) : Option (Scope H P F) := ops.foldlM exec s

theorem run_concat (s : Scope H P F) (ops : List (Op H P F)) (op : Op H P F) :
    s.run (ops ++ [op]) = (s.run ops).bind (exec · op) := by
  simp [run, List.foldlM_append]

/-- The slot of every handle holds the pointer the handle stands for, and a `ReclaimNoHazardPointer`
would not delete it. -/
def Marked (s : Scope H P F) (m : H → Option P) : Prop :=
  ∀ h p, m h = some p → ∃ i, s.index h = some i ∧ s.reclaimer.slots[i]? = some (some p) ∧
    ∀ f, (p, f) ∉ s.reclaimer.reclaimNoHazardPointer.1

def ClearsOther (s : Scope H P F) (m : H → Option P) (op : Op H P F) : Prop :=
  ∃ h h' p, op.unmarks = some h ∧ h' ≠ h ∧ m h' = some p ∧ s.index h' = s.index h

end Scope

structure Tracked {H P : Type*} (ss : List (Option P)) (ix : H → Reclaimer.HPIndex) (m : H → Option P) :
    Prop where
  bound : ∀ h i, ix h = some i → i < ss.length
  marked : ∀ h p, m h = some p → ∃ i, ix h = some i ∧ ss[i]? = some (some p)
  apart : ∀ h h' p p', m h = some p → m h' = some p' → ix h = ix h' → h = h'

namespace Tracked

variable {H P : Type*} [DecidableEq H] {ss ss' : List (Option P)} {ix : H → Reclaimer.HPIndex}
  {m : H → Option P} {h : H} {i : ℕ} {p : P}

theorem forget (t : Tracked ss ix m) (h : H) :
    Tracked ss (Function.update ix h none) (Function.update m h none) := by
  constructor
  · intro g j hj
    by_cases hg : g = h
    · simp [hg] at hj
    · exact t.bound g j (by simpa [hg] using hj)
  · intro g q hq
    by_cases hg : g = h
    · simp [hg] at hq
    · simpa [hg] using t.marked g q (by simpa [hg] using hq)
  · intro g g' q q' hq hq' he
    by_cases hg : g = h
    · simp [hg] at hq
    · by_cases hg' : g' = h
      · simp [hg'] at hq'
      · simp only [Function.update_of_ne hg, Function.update_of_ne hg'] at hq hq' he
        exact t.apart g g' q q' hq hq' he

theorem mark (t : Tracked ss ix m) (h : H) (hlen : ss.length ≤ ss'.length)
    (hi : ss'[i]? = some (some p)) (hfree : ∀ q, ss[i]? ≠ some (some q))
    (hkeep : ∀ (j : ℕ) (q : P), ss[j]? = some (some q) → ss'[j]? = some (some q)) :
    Tracked ss' (Function.update ix h (some i)) (Function.update m h (some p)) := by
  have hother : ∀ g q, m g = some q → ix g ≠ some i := by
    intro g q hq he
    obtain ⟨j, hj, hs⟩ := t.marked g q hq
    rw [hj, Option.some.injEq] at he
    exact hfree q (he ▸ hs)
  constructor
  · intro g j hj
    by_cases hg : g = h
    · simp only [hg, Function.update_self, Option.some.injEq] at hj
      exact hj ▸ (List.getElem?_eq_some_iff.mp hi).1
    · exact Nat.lt_of_lt_of_le (t.bound g j (by simpa [hg] using hj)) hlen
  · intro g q hq
    by_cases hg : g = h
    · simp only [hg, Function.update_self, Option.some.injEq] at hq ⊢
      exact ⟨i, rfl, hq ▸ hi⟩
    · rw [Function.update_of_ne hg] at hq ⊢
      obtain ⟨j, hj, hs⟩ := t.marked g q hq
      exact ⟨j, hj, hkeep j q hs⟩
  · intro g g' q q' hq hq' he
    by_cases hg : g = h
    · by_cases hg' : g' = h
      · rw [hg, hg']
      · simp only [hg, Function.update_self, Function.update_of_ne hg'] at hq' he
        exact absurd he.symm (hother g' q' hq')
    · by_cases hg' : g' = h
      · simp only [hg', Function.update_self, Function.update_of_ne hg] at hq he
        exact absurd he (hother g q hq)
      · simp only [Function.update_of_ne hg, Function.update_of_ne hg'] at hq hq' he
        exact t.apart g g' q q' hq hq' he

theorem move (t : Tracked ss ix m) (h other : H) :
    Tracked ss (Function.update (Function.update ix h (ix other)) other none)
      (Function.update (Function.update m h (m other)) other none) := by
  -- every handle that is not emptied has what some handle had before, and not two of them the same
  have hsource : ∀ g, g ≠ other → ∃ g', Function.update ix h (ix other) g = ix g' ∧
      Function.update m h (m other) g = m g' ∧ (g = h → g' = other) ∧ (g ≠ h → g' = g) := by
    intro g _
    by_cases hg : g = h
    · exact ⟨other, by simp [hg], by simp [hg], fun _ => rfl, fun hne => absurd hg hne⟩
    · exact ⟨g, by simp [hg], by simp [hg], fun he => absurd he hg, fun _ => rfl⟩
  constructor
  · intro g j hj
    by_cases hg : g = other
    · simp [hg] at hj
    · obtain ⟨g', hix, -⟩ := hsource g hg
      rw [Function.update_of_ne hg, hix] at hj
      exact t.bound g' j hj
  · intro g q hq
    by_cases hg : g = other
    · simp [hg] at hq
    · obtain ⟨g', hix, hm, -⟩ := hsource g hg
      rw [Function.update_of_ne hg, hm] at hq
      rw [Function.update_of_ne hg, hix]
      exact t.marked g' q hq
  · intro g k q q' hq hq' he
    by_cases hg : g = other
    · simp [hg] at hq
    by_cases hk : k = other
    · simp [hk] at hq'
    obtain ⟨g', hix, hm, hgh, hgn⟩ := hsource g hg
    obtain ⟨k', hix', hm', hkh, hkn⟩ := hsource k hk
    rw [Function.update_of_ne hg, hm] at hq
    rw [Function.update_of_ne hk, hm'] at hq'
    rw [Function.update_of_ne hg, Function.update_of_ne hk, hix, hix'] at he
    have heq : g' = k' := t.apart g' k' q q' hq hq' he
    by_cases h1 : g = h
    · by_cases h2 : k = h
      · rw [h1, h2]
      · exact absurd ((hkn h2).symm.trans (heq.symm.trans (hgh h1))) hk
    · by_cases h2 : k = h
      · exact absurd ((hgn h1).symm.trans (heq.trans (hkh h2))) hg
      · rw [← hgn h1, heq, hkn h2]

theorem clear (t : Tracked ss ix m) (hi : ix h = some i)
    (halone : ∀ g q, g ≠ h → m g = some q → ix g ≠ ix h) :
    Tracked (ss.set i none) ix (Function.update m h none) := by
  constructor
  · intro g j hj
    rw [List.length_set]
    exact t.bound g j hj
  · intro g q hq
    by_cases hg : g = h
    · simp [hg] at hq
    · rw [Function.update_of_ne hg] at hq
      obtain ⟨j, hj, hs⟩ := t.marked g q hq
      have hne : i ≠ j := by
        rintro rfl
        exact halone g q hg hq (hj.trans hi.symm)
      exact ⟨j, hj, by rw [List.getElem?_set_ne hne]; exact hs⟩
  · intro g g' q q' hq hq' he
    by_cases hg : g = h
    · simp [hg] at hq
    · by_cases hg' : g' = h
      · simp [hg'] at hq'
      · rw [Function.update_of_ne hg] at hq
        rw [Function.update_of_ne hg'] at hq'
        exact t.apart g g' q q' hq hq' he

end Tracked

namespace Scope

variable {H P F : Type*} [DecidableEq H] [DecidableEq P] {s s' : Scope H P F} {m : H → Option P}
  {op : Op H P F}

omit [DecidableEq P] in
theorem index_update (r : Reclaimer P F) (f : H → Option HazardPointer) (h : H) (o : Option HazardPointer) :
    (⟨r, Function.update f h o⟩ : Scope H P F).index =
      Function.update (⟨r, f⟩ : Scope H P F).index h (o.bind (·.index)) := by
  funext g
  by_cases hg : g = h
  · simp [index, hg]
  · simp [index, hg]

omit [DecidableEq P] in
theorem construct_inv {h : H} {r : Reclaimer P F} {hp : HazardPointer} (he : s.construct h r hp = some s') :
    s' = ⟨r, Function.update s.handles h (some hp)⟩ := by
  unfold construct at he
  split at he
  · exact (Option.some.inj he).symm
  · cases he

omit [DecidableEq H] [DecidableEq P] in
theorem unMark_inv {h : H} {r : Reclaimer P F}
    (he : (s.handles h).bind (·.unMark s.reclaimer) = some r) :
    (s.index h = none ∧ r = s.reclaimer) ∨
      ∃ i, s.index h = some i ∧ r.slots = s.reclaimer.slots.set i none := by
  obtain ⟨⟨ix⟩, hhp, hr⟩ := Option.bind_eq_some_iff.mp he
  have hindex : s.index h = ix := by simp [index, hhp]
  cases ix with
  | none => exact Or.inl ⟨hindex, (Option.some.inj hr).symm⟩
  | some i =>
    refine Or.inr ⟨i, hindex, ?_⟩
    simp only [HazardPointer.unMark, Reclaimer.unMarkHazard] at hr
    split at hr
    · rw [← Option.some.inj hr, Reclaimer.storeAt_slots]
    · cases hr

omit [DecidableEq P] in
theorem unMark_tracked {h : H} {r : Reclaimer P F} (t : Tracked s.reclaimer.slots s.index m)
    (he : (s.handles h).bind (·.unMark s.reclaimer) = some r)
    (hc : ∀ g q, g ≠ h → m g = some q → s.index g ≠ s.index h) :
    Tracked r.slots s.index (Function.update m h none) := by
  obtain ⟨hnone, rfl⟩ | ⟨i, hi, hslots⟩ := unMark_inv he
  · have hix : Function.update s.index h none = s.index := by
      rw [← hnone, Function.update_eq_self]
    rw [← hix]
    exact t.forget h
  · rw [hslots]
    exact t.clear hi hc

omit [DecidableEq P] in
theorem moveTo_tracked {h other : H} (t : Tracked s.reclaimer.slots s.index m)
    (he : (s.handles other).map (s.moveTo h other) = some s') :
    Tracked s'.reclaimer.slots s'.index
      (Function.update (Function.update m h (m other)) other none) := by
  obtain ⟨hp, hhp, rfl⟩ := Option.map_eq_some_iff.mp he
  have hindex : s.index other = hp.index := by simp [index, hhp]
  have hix : (s.moveTo h other hp).index =
      Function.update (Function.update s.index h (s.index other)) other none := by
    rw [moveTo, index_update, index_update, hindex]
    rfl
  rw [hix]
  exact t.move h other

omit [DecidableEq P] in
theorem mark_tracked (t : Tracked s.reclaimer.slots s.index m) (h : H) (p : P) :
    Tracked (HazardPointer.mark s.reclaimer (some p)).1.slots
      (Function.update s.index h (HazardPointer.mark s.reclaimer (some p)).2.index)
      (Function.update m h (some p)) := by
  obtain ⟨i, hi, ⟨hempty, hset⟩ | ⟨rfl, happ⟩⟩ := s.reclaimer.markHazard_slots p
  · have hlt := (List.getElem?_eq_some_iff.mp hempty).1
    simp only [HazardPointer.mark, hset, hi]
    apply t.mark h
    · simp
    · simp [hlt]
    · simp [hempty]
    · intro j q hq
      have hne : i ≠ j := by
        rintro rfl
        rw [hempty] at hq
        cases hq
      rw [List.getElem?_set_ne hne, hq]
  · simp only [HazardPointer.mark, happ, hi]
    apply t.mark h
    · simp
    · simp
    · simp
    · intro j q hq
      rw [List.getElem?_append_left (List.getElem?_eq_some_iff.mp hq).1, hq]

theorem exec_tracked (t : Tracked s.reclaimer.slots s.index m) (he : s.exec op = some s')
    (hc : ¬ s.ClearsOther m op) : Tracked s'.reclaimer.slots s'.index (op.held m) := by
  have halone : ∀ h, op.unmarks = some h → ∀ g q, g ≠ h → m g = some q → s.index g ≠ s.index h :=
    fun h hu g q hg hq hix => hc ⟨h, g, q, hu, hg, hq, hix⟩
  cases op with
  | default h =>
    rw [construct_inv he, index_update]
    exact t.forget h
  | mark h p =>
    rw [construct_inv he, index_update]
    cases p with
    | none => exact t.forget h
    | some p => exact mark_tracked t h p
  | moveConstruct h other =>
    simp only [exec] at he
    split at he
    · exact moveTo_tracked t he
    · cases he
  | moveAssign h other =>
    simp only [exec] at he
    split at he
    · cases he
    · exact moveTo_tracked t he
  | unMark h =>
    obtain ⟨r, hr, rfl⟩ := Option.map_eq_some_iff.mp he
    have hclear := unMark_tracked t hr (halone h rfl)
    exact hclear
  | destroy h =>
    obtain ⟨r, hr, rfl⟩ := Option.map_eq_some_iff.mp he
    have hclear := (unMark_tracked t hr (halone h rfl)).forget h
    rw [Function.update_idem] at hclear
    rw [index_update]
    exact hclear
  | reclaimLater p f =>
    obtain rfl := Option.some.inj he
    rw [Reclaimer.reclaimLater_slots]
    exact t
  | reclaimNoHazardPointer =>
    obtain rfl := Option.some.inj he
    rw [Reclaimer.reclaimNoHazardPointer_slots]
    exact t

def KeepsMarks (r : Reclaimer P F) (ops : List (Op H P F)) : Prop :=
  ∀ pre, pre <+: ops → ∀ s, (new r).run pre = some s → s.Marked (held pre)

def ClearsNone (r : Reclaimer P F) (ops : List (Op H P F)) : Prop :=
  ∀ pre op, pre ++ [op] <+: ops → ∀ s, (new r).run pre = some s → ¬ s.ClearsOther (held pre) op

omit [DecidableEq H] [DecidableEq P] in
theorem new_tracked (r : Reclaimer P F) :
    Tracked (new r : Scope H P F).reclaimer.slots (new r : Scope H P F).index fun _ => none := by
  constructor
  · intro h i hi
    cases hi
  · intro h p hp
    cases hp
  · intro h h' p p' hp
    cases hp

theorem run_tracked {r : Reclaimer P F} {ops : List (Op H P F)} (hc : ClearsNone r ops)
    {pre : List (Op H P F)} (hpre : pre <+: ops) (hs : (new r).run pre = some s) :
    Tracked s.reclaimer.slots s.index (held pre) := by
  induction pre using List.reverseRecOn generalizing s with
  | nil =>
    obtain rfl := Option.some.inj hs
    exact new_tracked r
  | append_singleton pre op ih =>
    rw [run_concat] at hs
    obtain ⟨u, hu, he⟩ := Option.bind_eq_some_iff.mp hs
    rw [held_concat]
    exact exec_tracked (ih ((List.prefix_append pre [op]).trans hpre) hu) he (hc pre op hpre u hu)

theorem ClearsOther.not_marked (hm : s.Marked m) (hc : s.ClearsOther m op) :
    ∃ s', s.exec op = some s' ∧ ¬ s'.Marked (op.held m) := by
  obtain ⟨h, g, p, hu, hg, hp, hix⟩ := hc
  obtain ⟨i, hi, hslot, -⟩ := hm g p hp
  have hlt : i < s.reclaimer.slots.length := (List.getElem?_eq_some_iff.mp hslot).1
  have hh : s.index h = some i := hix.symm.trans hi
  obtain ⟨hp', hhp, hindex⟩ := Option.bind_eq_some_iff.mp hh
  have hun : (s.handles h).bind (·.unMark s.reclaimer) = some (s.reclaimer.storeAt i none) := by
    rw [hhp, Option.bind_some, HazardPointer.unMark, hindex]
    exact Reclaimer.unMarkHazard_some hlt
  have hlost : (s.reclaimer.storeAt i none).slots[i]? = some none := by
    rw [Reclaimer.storeAt_slots, List.getElem?_set_self hlt]
  cases op with
  | unMark k =>
    obtain rfl := Option.some.inj hu
    refine ⟨_, congrArg (Option.map _) hun, ?_⟩
    intro hm'
    obtain ⟨j, hj, hslot', -⟩ := hm' g p (by simpa [Op.held, hg] using hp)
    obtain rfl : i = j := Option.some.inj (hi.symm.trans hj)
    simp [hlost] at hslot'
  | destroy k =>
    obtain rfl := Option.some.inj hu
    refine ⟨_, congrArg (Option.map _) hun, ?_⟩
    intro hm'
    obtain ⟨j, hj, hslot', -⟩ := hm' g p (by simpa [Op.held, hg] using hp)
    rw [index_update, Function.update_of_ne hg] at hj
    obtain rfl : i = j := Option.some.inj (hi.symm.trans hj)
    simp [hlost] at hslot'
  | default | mark | moveConstruct | moveAssign | reclaimLater | reclaimNoHazardPointer => cases hu

theorem keepsMarks_iff (r : Reclaimer P F) (ops : List (Op H P F)) :
    KeepsMarks r ops ↔ ClearsNone r ops := by
  constructor
  · intro hk pre op hpre s hs hc
    have hm := hk pre ((List.prefix_append pre [op]).trans hpre) s hs
    obtain ⟨s', he, hlost⟩ := hc.not_marked hm
    apply hlost
    rw [← held_concat]
    apply hk (pre ++ [op]) hpre
    rw [run_concat, hs]
    exact he
  · intro hc pre hpre s hs h p hp
    obtain ⟨i, hi, hslot⟩ := (run_tracked hc hpre hs).marked h p hp
    exact ⟨i, hi, hslot, Reclaimer.not_mem_reclaimed hslot⟩

def Fits (ss : List (Option P)) (ix : Reclaimer.HPIndex) (o : Option P) : Status → Prop
  | .clear => ix = none
  | .live => o ≠ none
  | .idle => ∀ i, ix = some i → ss[i]? = some none
  | .stale => True

section Fits

variable {ss ss' : List (Option P)} {ix : Reclaimer.HPIndex} {o o' : Option P} {st : Status}

omit [DecidableEq P] in
theorem Fits.aged (h : Fits ss ix o st) : Fits ss' ix o st.aged := by
  cases st with
  | clear => exact h
  | live => exact h
  | idle => exact trivial
  | stale => exact trivial

omit [DecidableEq P] in
theorem Fits.mono (h : Fits ss ix o st) (hss : ∀ i : ℕ, ss[i]? = some none → ss'[i]? = some none) :
    Fits ss' ix o st := by
  cases st with
  | clear => exact h
  | live => exact h
  | idle => exact fun i hi => hss i (h i hi)
  | stale => exact trivial

omit [DecidableEq P] in
theorem Fits.unmarked (h : Fits ss ix o st) (hss : ∀ i, ix = some i → ss'[i]? = some none) :
    Fits ss' ix o' st.unmarked := by
  cases st with
  | clear => exact h
  | live => exact hss
  | idle => exact hss
  | stale => exact trivial

end Fits

omit [DecidableEq P] in
theorem moveTo_fits {st : H → Status} {h other : H} (hf : ∀ g, Fits s.reclaimer.slots (s.index g) (m g) (st g))
    (he : (s.handles other).map (s.moveTo h other) = some s') (g : H) :
    Fits s'.reclaimer.slots (s'.index g) (Function.update (Function.update m h (m other)) other none g)
      (Function.update (Function.update st h (st other)) other .clear g) := by
  obtain ⟨hp, hhp, rfl⟩ := Option.map_eq_some_iff.mp he
  have hindex : s.index other = hp.index := by simp [index, hhp]
  rw [moveTo, index_update, index_update]
  by_cases hg : g = other
  · simp [hg, Fits, HazardPointer.move, HazardPointer.null]
  · simp only [Function.update_of_ne hg]
    by_cases hgh : g = h
    · have hother := hf other
      rw [hindex] at hother
      simpa [hgh, HazardPointer.move] using hother
    · simpa [hgh] using hf g

omit [DecidableEq H] [DecidableEq P] in
theorem unMark_empty {h : H} {r : Reclaimer P F} (t : Tracked s.reclaimer.slots s.index m)
    (he : (s.handles h).bind (·.unMark s.reclaimer) = some r) :
    (∀ i, s.index h = some i → r.slots[i]? = some none) ∧
      ∀ i : ℕ, s.reclaimer.slots[i]? = some none → r.slots[i]? = some none := by
  obtain ⟨hnone, rfl⟩ | ⟨j, hj, hslots⟩ := unMark_inv he
  · refine ⟨fun i hi => ?_, fun i hi => hi⟩
    rw [hnone] at hi
    cases hi
  · rw [hslots]
    refine ⟨fun i hi => ?_, fun i hi => ?_⟩
    · obtain rfl : j = i := Option.some.inj (hj.symm.trans hi)
      exact List.getElem?_set_self (t.bound h j hj)
    · by_cases hij : j = i
      · exact hij ▸ List.getElem?_set_self (t.bound h j hj)
      · rw [List.getElem?_set_ne hij, hi]

theorem exec_fits {st : H → Status} (t : Tracked s.reclaimer.slots s.index m)
    (hf : ∀ g, Fits s.reclaimer.slots (s.index g) (m g) (st g)) (he : s.exec op = some s') (g : H) :
    Fits s'.reclaimer.slots (s'.index g) (op.held m g) (op.status st g) := by
  cases op with
  | default h =>
    rw [construct_inv he, index_update]
    by_cases hg : g = h
    · simp [hg, Fits, Op.status, HazardPointer.null]
    · simpa [hg, Op.status, Op.held] using hf g
  | mark h p =>
    rw [construct_inv he, index_update]
    cases p with
    | none =>
      by_cases hg : g = h
      · simp [hg, Fits, Op.status, HazardPointer.mark, Reclaimer.markHazard]
      · simpa [hg, Op.status, Op.held, HazardPointer.mark, Reclaimer.markHazard] using hf g
    | some p =>
      by_cases hg : g = h
      · simp [hg, Fits, Op.status, Op.held]
      · simp only [Op.status, Op.held, Function.update_of_ne hg]
        exact (hf g).aged
  | moveConstruct h other =>
    simp only [exec] at he
    split at he
    · exact moveTo_fits hf he g
    · cases he
  | moveAssign h other =>
    simp only [exec] at he
    split at he
    · cases he
    · exact moveTo_fits hf he g
  | unMark h =>
    obtain ⟨r, hr, rfl⟩ := Option.map_eq_some_iff.mp he
    obtain ⟨hempty, hmono⟩ := unMark_empty t hr
    change Fits r.slots (s.index g) _ _
    by_cases hg : g = h
    · subst hg
      rw [Op.status, Function.update_self]
      exact (hf g).unmarked hempty
    · simpa [hg, Op.status, Op.held] using (hf g).mono hmono
  | destroy h =>
    obtain ⟨r, hr, rfl⟩ := Option.map_eq_some_iff.mp he
    rw [index_update]
    by_cases hg : g = h
    · simp [hg, Fits, Op.status]
    · simp only [Op.status, Op.held, Function.update_of_ne hg]
      exact (hf g).mono (unMark_empty t hr).2
  | reclaimLater p f =>
    obtain rfl := Option.some.inj he
    rw [Reclaimer.reclaimLater_slots]
    exact hf g
  | reclaimNoHazardPointer =>
    obtain rfl := Option.some.inj he
    rw [Reclaimer.reclaimNoHazardPointer_slots]
    exact hf g

omit [DecidableEq H] [DecidableEq P] in
theorem not_clearsOther {st : H → Status} (t : Tracked s.reclaimer.slots s.index m)
    (hf : ∀ g, Fits s.reclaimer.slots (s.index g) (m g) (st g)) (hop : ¬ op.Touches st) :
    ¬ s.ClearsOther m op := by
  rintro ⟨h, g, p, hu, hg, hp, hix⟩
  obtain ⟨i, hi, hslot⟩ := t.marked g p hp
  have hfit := hf h
  cases hst : st h with
  | clear =>
    rw [hst] at hfit
    have hnone : s.index h = none := hfit
    rw [hi, hnone] at hix
    cases hix
  | live =>
    rw [hst] at hfit
    obtain ⟨q, hq⟩ := Option.ne_none_iff_exists'.mp hfit
    exact hg (t.apart g h p q hp hq hix)
  | idle =>
    rw [hst] at hfit
    have hempty := hfit i (hix.symm.trans hi)
    rw [hslot] at hempty
    cases hempty
  | stale =>
    apply hop
    rw [Op.Touches, hu, Option.any_some, hst]
    rfl

theorem StaleUntouched.run_fits {r : Reclaimer P F} {pre post : List (Op H P F)}
    (h : StaleUntouched (fun _ => .clear) (pre ++ post)) (hs : (new r).run pre = some s) :
    Tracked s.reclaimer.slots s.index (held pre) ∧ ∃ st : H → Status,
      (∀ g, Fits s.reclaimer.slots (s.index g) (held pre g) (st g)) ∧ StaleUntouched st post := by
  induction pre using List.reverseRecOn generalizing s post with
  | nil =>
    obtain rfl := Option.some.inj hs
    exact ⟨new_tracked r, fun _ => .clear, fun g => rfl, h⟩
  | append_singleton pre op ih =>
    rw [run_concat] at hs
    obtain ⟨u, hu, he⟩ := Option.bind_eq_some_iff.mp hs
    rw [List.append_assoc, List.singleton_append] at h
    obtain ⟨t, st, hf, hop, hpost⟩ := ih h hu
    rw [held_concat]
    exact ⟨exec_tracked t he (not_clearsOther t hf hop), _, exec_fits t hf he, hpost⟩

theorem clearsNone_of_staleUntouched {ops : List (Op H P F)} (h : StaleUntouched (fun _ => .clear) ops)
    (r : Reclaimer P F) : ClearsNone r ops := by
  intro pre op hpre s hs
  obtain ⟨post, rfl⟩ := hpre
  rw [List.append_assoc, List.singleton_append] at h
  obtain ⟨t, st, hf, hop, -⟩ := h.run_fits hs
  exact not_clearsOther t hf hop

theorem keepsMarks_of_staleUntouched (r : Reclaimer P F) (ops : List (Op H P F))
    (h : StaleUntouched (fun _ => .clear) ops) : KeepsMarks r ops :=
  (keepsMarks_iff r ops).mpr (clearsNone_of_staleUntouched h r)

inductive Handle
  | prevHp
  | curHp
  | tmp
  deriving DecidableEq

/-- What `SearchNode` does with the handles of its caller while its `cur` is each of `ps` in turn:
the mark at the start of each round, and the swap before the next one. -/
def searchNode : List P → List (Op Handle P F)
  | [] => []
  | p :: ps =>
    let round := [.unMark .curHp, .mark .tmp (some p), .moveAssign .curHp .tmp, .destroy .tmp]
    let swap := [.moveConstruct .tmp .curHp, .moveAssign .curHp .prevHp, .moveAssign .prevHp .tmp,
      .destroy .tmp]
    if ps = [] then round else round ++ swap ++ searchNode ps

def deleteNode (ps qs : List P) : List (Op Handle P F) :=
  [.default .prevHp, .default .curHp] ++ searchNode ps ++ [.unMark .prevHp, .unMark .curHp] ++ searchNode qs

omit [DecidableEq P] in
theorem searchNode_staleUntouched (ps : List P) (st : Handle → Status)
    (hp : st .prevHp = .clear ∨ st .prevHp = .live) (hc : st .curHp ≠ .stale)
    (ops : List (Op Handle P F))
    (h : ∀ st' : Handle → Status, st' .prevHp ≠ .stale → st' .curHp ≠ .stale → StaleUntouched st' ops) :
    StaleUntouched st (searchNode ps ++ ops) := by
  induction ps generalizing st with
  | nil =>
    apply h st _ hc
    rcases hp with hp | hp <;> simp [hp]
  | cons p ps ih =>
    have hround (ops : List (Op Handle P F)) (hops : ∀ st' : Handle → Status,
        (st' .prevHp = .clear ∨ st' .prevHp = .live) → st' .curHp = .live → StaleUntouched st' ops) :
        StaleUntouched st ([.unMark .curHp, .mark .tmp (some p), .moveAssign .curHp .tmp, .destroy .tmp] ++
          ops) := by
      simp only [List.cons_append, List.nil_append, StaleUntouched, Op.Touches, Op.unmarks]
      refine ⟨by simpa using hc, by simp, by simp, by simp [Op.status], hops _ ?_ ?_⟩
      · rcases hp with hp | hp <;> simp [Op.status, hp, Status.aged]
      · simp [Op.status]
    unfold searchNode
    split_ifs with hps
    · apply hround
      intro st' hp' hc'
      apply h
      · rcases hp' with hp' | hp' <;> simp [hp']
      · simp [hc']
    · rw [List.append_assoc, List.append_assoc]
      apply hround
      intro st' hp' hc'
      simp only [List.cons_append, List.nil_append, StaleUntouched, Op.Touches, Op.unmarks]
      refine ⟨by simp, by simp, by simp, by simp [Op.status], ih _ ?_ ?_⟩
      · simp [Op.status, hc']
      · rcases hp' with hp' | hp' <;> simp [Op.status, hp']

def searchOnce (ps : List P) : List (Op Handle P F) :=
  [.default .prevHp, .default .curHp] ++ (searchNode ps ++ [.destroy .curHp, .destroy .prevHp])

theorem keepsMarks_searchOnce (r : Reclaimer P F) (ps : List P) : KeepsMarks r (searchOnce ps) := by
  apply (keepsMarks_iff r _).mpr
  apply clearsNone_of_staleUntouched
  refine ⟨by simp [Op.Touches, Op.unmarks], by simp [Op.Touches, Op.unmarks], ?_⟩
  apply searchNode_staleUntouched
  · simp [Op.status]
  · simp [Op.status]
  · intro st hp hc
    exact ⟨by simpa [Op.Touches, Op.unmarks] using hc, by simpa [Op.Touches, Op.unmarks, Op.status] using hp,
      trivial⟩

theorem keepsMarks_of_staleUntouched_search :
    KeepsMarks (Reclaimer.new [⟨false, none⟩] 0) (searchOnce [10, 20, 30] : List (Op Handle ℕ Unit)) :=
  keepsMarks_of_staleUntouched _ _ (by decide)

example : ¬ StaleUntouched (fun _ => .clear) (deleteNode [10, 20] [30, 40] : List (Op Handle ℕ Unit)) := by
  decide

theorem deleteNode_loses_mark :
    held (deleteNode [10, 20] [30, 40] : List (Op Handle ℕ Unit)) .prevHp = some 30 ∧
    ((new (Reclaimer.new [⟨false, none⟩] 0)).run (deleteNode [10, 20] [30, 40] ++
        [.reclaimLater 30 (), .reclaimLater 31 (), .reclaimLater 32 (), .reclaimLater 33 ()])).map
      (fun s => (s.index .prevHp, s.reclaimer.slots, s.reclaimer.reclaimNoHazardPointer.1)) =
      some (some 0, [some 40, none], [(30, ()), (31, ()), (32, ()), (33, ())]) := by
  decide +kernel

end Scope

end MetadataService
