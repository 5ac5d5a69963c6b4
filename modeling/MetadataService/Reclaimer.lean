import Mathlib.Data.List.Nodup
import Mathlib.Data.List.Basic

namespace MetadataService

structure InternalHazardPointer (P : Type*) where
  flag : Bool
  ptr : Option P
  deriving DecidableEq

-- The global list is kept oldest first, so that a cell is named by its position: the head that the
-- source walks from is the last one. A cell in `hpList` is this thread's alone.
structure Reclaimer (P F : Type*) where
  cells : List (InternalHazardPointer P)
  globalSize : ℕ
  hpList : List ℕ
  reclaimMap : List (P × F)
  nodup : hpList.Nodup
  flagged : ∀ c ∈ hpList, cells[c]?.map (·.flag) = some true

namespace Reclaimer

variable {P F : Type*}

abbrev HPIndex := Option ℕ

def new (cells : List (InternalHazardPointer P)) (globalSize : ℕ) : Reclaimer P F :=
  ⟨cells, globalSize, [], [], List.nodup_nil, List.forall_mem_nil _⟩

def ptrAt (r : Reclaimer P F) (c : ℕ) : Option P := r.cells[c]?.bind (·.ptr)

def slots (r : Reclaimer P F) : List (Option P) := r.hpList.map r.ptrAt

def storePtr (r : Reclaimer P F) (c : ℕ) (p : Option P) : Reclaimer P F :=
  { r with
    cells := r.cells.modify c fun hp => { hp with ptr := p }
    flagged := by
      intro d hd
      have hf := r.flagged d hd
      rw [List.getElem?_modify]
      cases hc : r.cells[d]? with
      | none => simp [hc] at hf
      | some hp =>
        rw [hc] at hf
        by_cases h : c = d
        · simpa [h] using hf
        · simpa [h] using hf }

def idle? (r : Reclaimer P F) : Option ℕ :=
  (List.range r.cells.length).reverse.find? fun c => r.cells[c]?.any fun hp => !hp.flag

theorem idle?_flag {r : Reclaimer P F} {c : ℕ} (h : r.idle? = some c) :
    ∃ p, r.cells[c]? = some ⟨false, p⟩ := by
  have hc := List.find?_some h
  cases hhp : r.cells[c]? with
  | none => simp [hhp] at hc
  | some hp =>
    obtain ⟨flag, p⟩ := hp
    simp only [hhp, Option.any_some, Bool.not_eq_true'] at hc
    exact ⟨p, by rw [hc]⟩

theorem hpList_lt (r : Reclaimer P F) {c : ℕ} (h : c ∈ r.hpList) : c < r.cells.length := by
  have hf := r.flagged c h
  by_contra hge
  rw [List.getElem?_eq_none (Nat.le_of_not_lt hge)] at hf
  cases hf

def take (r : Reclaimer P F) (c : ℕ) (hc : ∃ p, r.cells[c]? = some ⟨false, p⟩) : Reclaimer P F :=
  { r with
    cells := r.cells.modify c fun hp => { hp with flag := true }
    hpList := r.hpList ++ [c]
    nodup := by
      apply List.Nodup.append r.nodup (List.nodup_singleton c)
      intro d hd hdc
      rw [List.mem_singleton] at hdc
      subst hdc
      obtain ⟨p, hp⟩ := hc
      simpa [hp] using r.flagged d hd
    flagged := by
      intro d hd
      rw [List.getElem?_modify]
      rcases List.mem_append.mp hd with hd | hd
      · have hf := r.flagged d hd
        cases hcd : r.cells[d]? with
        | none => simp [hcd] at hf
        | some hp =>
          rw [hcd] at hf
          by_cases h : c = d
          · simp [h]
          · simpa [h] using hf
      · rw [List.mem_singleton] at hd
        subst hd
        obtain ⟨p, hp⟩ := hc
        simp [hp] }

def push (r : Reclaimer P F) : Reclaimer P F :=
  { r with
    cells := r.cells ++ [⟨true, none⟩]
    globalSize := r.globalSize + 1
    hpList := r.hpList ++ [r.cells.length]
    nodup := by
      apply List.Nodup.append r.nodup (List.nodup_singleton _)
      intro d hd hdc
      rw [List.mem_singleton] at hdc
      exact absurd (r.hpList_lt hd) (by omega)
    flagged := by
      intro d hd
      rcases List.mem_append.mp hd with hd | hd
      · rw [List.getElem?_append_left (r.hpList_lt hd)]
        exact r.flagged d hd
      · rw [List.mem_singleton] at hd
        subst hd
        simp }

def tryAcquireHazardPointer (r : Reclaimer P F) : Reclaimer P F :=
  match h : r.idle? with
  | some c => r.take c (idle?_flag h)
  | none => r.push

def storeAt (r : Reclaimer P F) (i : ℕ) (p : Option P) : Reclaimer P F :=
  match r.hpList[i]? with
  | some c => r.storePtr c p
  | none => r

def markHazard (r : Reclaimer P F) : Option P → Reclaimer P F × HPIndex
  | none => (r, none)
  | some p =>
    match r.slots.findIdx? Option.isNone with
    | some i => (r.storeAt i (some p), some i)
    | none =>
      let r := r.tryAcquireHazardPointer
      (r.storeAt (r.hpList.length - 1) (some p), some (r.hpList.length - 1))

def unMarkHazard (r : Reclaimer P F) : HPIndex → Option (Reclaimer P F)
  | none => some r
  | some i => if i < r.hpList.length then some (r.storeAt i none) else none

-- `insert` keeps the entry that is there when the pointer already waits.
def reclaimLater [DecidableEq P] (r : Reclaimer P F) (p : P) (f : F) : Reclaimer P F :=
  if p ∈ r.reclaimMap.map Prod.fst then r else { r with reclaimMap := r.reclaimMap ++ [(p, f)] }

/-- `kCoefficient`: the quotient in `4 + 1 / 4` is an integer one. -/
def kCoefficient : ℕ := 4 + 1 / 4

def hazards (r : Reclaimer P F) : List P := r.cells.filterMap (·.ptr)

def reclaimNoHazardPointer [DecidableEq P] (r : Reclaimer P F) : List (P × F) × Reclaimer P F :=
  if r.reclaimMap.length < kCoefficient * r.globalSize then ([], r)
  else
    (r.reclaimMap.filter fun e => e.1 ∉ r.hazards,
      { r with reclaimMap := r.reclaimMap.filter fun e => e.1 ∈ r.hazards })

theorem slots_length (r : Reclaimer P F) : r.slots.length = r.hpList.length := List.length_map _

@[simp] theorem storeAt_hpList (r : Reclaimer P F) (i : ℕ) (p : Option P) :
    (r.storeAt i p).hpList = r.hpList := by
  unfold storeAt
  split <;> rfl

@[simp] theorem storeAt_reclaimMap (r : Reclaimer P F) (i : ℕ) (p : Option P) :
    (r.storeAt i p).reclaimMap = r.reclaimMap := by
  unfold storeAt
  split <;> rfl

@[simp] theorem tryAcquire_reclaimMap (r : Reclaimer P F) :
    r.tryAcquireHazardPointer.reclaimMap = r.reclaimMap := by
  unfold tryAcquireHazardPointer
  split <;> rfl

theorem storeAt_slots (r : Reclaimer P F) (i : ℕ) (p : Option P) :
    (r.storeAt i p).slots = r.slots.set i p := by
  apply List.ext_getElem?
  intro j
  rw [List.getElem?_set, slots_length, slots, List.getElem?_map, storeAt_hpList, slots, List.getElem?_map]
  unfold storeAt
  cases hi : r.hpList[i]? with
  | none =>
    have hge : ¬ i < r.hpList.length := fun h => by simp [List.getElem?_eq_getElem h] at hi
    by_cases hij : i = j
    · subst hij
      simp [hge]
    · simp [hij]
  | some c =>
    obtain ⟨hlt, hget⟩ := List.getElem?_eq_some_iff.mp hi
    by_cases hij : i = j
    · subst hij
      obtain ⟨hp, hhp, -⟩ := Option.map_eq_some_iff.mp (r.flagged c (hget ▸ List.getElem_mem hlt))
      have hptr : (r.storePtr c p).ptrAt c = p := by
        simp [ptrAt, storePtr, hhp]
      rw [if_pos rfl, if_pos hlt, hi, Option.map_some, hptr]
    · -- two indices name two cells
      rw [if_neg hij]
      cases hj : r.hpList[j]? with
      | none => rfl
      | some d =>
        obtain ⟨hjlt, hjget⟩ := List.getElem?_eq_some_iff.mp hj
        have hcd : c ≠ d := by
          intro h
          exact hij (r.nodup.getElem_inj_iff.mp (hget.trans (h.trans hjget.symm)))
        simp [ptrAt, storePtr, hcd]

theorem tryAcquire_slots (r : Reclaimer P F) :
    ∃ p, r.tryAcquireHazardPointer.slots = r.slots ++ [p] := by
  unfold tryAcquireHazardPointer
  split
  · rename_i c h
    refine ⟨r.ptrAt c, ?_⟩
    have hptr : (r.take c (idle?_flag h)).ptrAt = r.ptrAt := by
      funext d
      simp only [ptrAt, take, List.getElem?_modify]
      cases r.cells[d]? with
      | none => rfl
      | some hp => by_cases hcd : c = d <;> simp [hcd]
    rw [slots, hptr]
    simp [take, slots]
  · refine ⟨none, ?_⟩
    have hptr : ∀ d ∈ r.hpList, r.push.ptrAt d = r.ptrAt d := by
      intro d hd
      simp only [ptrAt, push, List.getElem?_append_left (r.hpList_lt hd)]
    have hnew : r.push.ptrAt r.cells.length = none := by simp [ptrAt, push]
    calc r.push.slots = r.hpList.map r.push.ptrAt ++ [r.push.ptrAt r.cells.length] := by
          simp [slots, push]
      _ = r.slots ++ [none] := by rw [List.map_congr_left hptr, hnew, slots]

theorem markHazard_slots (r : Reclaimer P F) (p : P) :
    ∃ i, (r.markHazard (some p)).2 = some i ∧
      ((r.slots[i]? = some none ∧ (r.markHazard (some p)).1.slots = r.slots.set i (some p)) ∨
        (i = r.slots.length ∧ (r.markHazard (some p)).1.slots = r.slots ++ [some p])) := by
  unfold markHazard
  cases hf : r.slots.findIdx? Option.isNone with
  | some i =>
    obtain ⟨hlt, hnone, -⟩ := List.findIdx?_eq_some_iff_getElem.mp hf
    refine ⟨i, rfl, Or.inl ⟨?_, storeAt_slots ..⟩⟩
    rw [List.getElem?_eq_getElem hlt, Option.isNone_iff_eq_none.mp hnone]
  | none =>
    obtain ⟨q, hq⟩ := r.tryAcquire_slots
    have hlen : r.tryAcquireHazardPointer.hpList.length - 1 = r.slots.length := by
      rw [← slots_length, hq, List.length_append, List.length_singleton, Nat.add_sub_cancel]
    refine ⟨_, rfl, Or.inr ⟨hlen, ?_⟩⟩
    rw [storeAt_slots, hlen, hq, List.set_append_right _ _ (Nat.le_refl _), Nat.sub_self]
    rfl

@[simp] theorem markHazard_reclaimMap (r : Reclaimer P F) (p : Option P) :
    (r.markHazard p).1.reclaimMap = r.reclaimMap := by
  unfold markHazard
  cases p with
  | none => rfl
  | some p => cases r.slots.findIdx? Option.isNone <;> simp

theorem unMarkHazard_some {r : Reclaimer P F} {i : ℕ} (h : i < r.slots.length) :
    r.unMarkHazard (some i) = some (r.storeAt i none) :=
  if_pos (r.slots_length ▸ h)

theorem mem_hazards {r : Reclaimer P F} {p : P} {i : ℕ} (h : r.slots[i]? = some (some p)) :
    p ∈ r.hazards := by
  rw [slots, List.getElem?_map] at h
  obtain ⟨c, -, hc⟩ := Option.map_eq_some_iff.mp h
  obtain ⟨hp, hhp, hptr⟩ := Option.bind_eq_some_iff.mp hc
  exact List.mem_filterMap.mpr ⟨hp, List.mem_of_getElem? hhp, hptr⟩

theorem not_mem_reclaimed [DecidableEq P] {r : Reclaimer P F} {p : P} {i : ℕ}
    (h : r.slots[i]? = some (some p)) (f : F) : (p, f) ∉ r.reclaimNoHazardPointer.1 := by
  unfold reclaimNoHazardPointer
  split
  · exact List.not_mem_nil
  · simp [mem_hazards h]

@[simp] theorem reclaimLater_slots [DecidableEq P] (r : Reclaimer P F) (p : P) (f : F) :
    (r.reclaimLater p f).slots = r.slots := by
  unfold reclaimLater
  split <;> rfl

@[simp] theorem reclaimNoHazardPointer_slots [DecidableEq P] (r : Reclaimer P F) :
    r.reclaimNoHazardPointer.2.slots = r.slots := by
  unfold reclaimNoHazardPointer
  split <;> rfl

end Reclaimer

end MetadataService
