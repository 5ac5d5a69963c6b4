import MetadataService.Linearization
import MetadataService.Reclaimer

/-!
The hazard pointers of `util/hazard_pointer.h`, used by any number of threads. Every load, store and
exchange on the global list is one step, and all threads see the steps in one order. A cell belongs to the
thread that set its flag, and only that thread stores pointers into it.
-/

namespace MetadataService.HazardThreads

open Threads Reclaimer

variable {P F : Type}

/-- The global list, oldest cell first, with what was handed to the reclaimers and what they deleted. -/
structure Shared (P F : Type) where
  cells : List (InternalHazardPointer P)
  size : ℕ
  retired : List (P × F)
  deleted : List (P × F)

inductive Point (P F : Type)
  | idle (index : HPIndex)
  | mark (p : P) (i : ℕ)
  | store (p : P) (i : ℕ)
  | acquire (p : P) (c : ℕ)
  | countCell (p : P)
  | loadHead (p : P)
  | push (p : P) (oldHead : ℕ)
  | unMark (i : ℕ)
  | loadSize
  | startScan
  | scan (c : ℕ) (notAllowDelete : List P)
  | sweep (rest : List (P × F)) (notAllowDelete : List P)
  | handOver (i : ℕ)
  | clearFlag (i : ℕ)
  | nextEntry
  | isHazard (e : P × F)
  | hazard (e : P × F) (c : ℕ)
  | deleteEntry (e : P × F)
  | exited
  | fault
  deriving DecidableEq

structure Local (P F : Type) where
  hpList : List ℕ
  reclaimMap : List (P × F)
  point : Point P F

/-- What a step does not fix: whether a weak exchange fails although the head has not changed, and which of
the entries of the unordered map the loop comes to next. -/
structure Choice where
  spurious : Bool
  entry : ℕ

inductive Call (P F : Type)
  | markHazard (p : Option P)
  | unMarkHazard (index : HPIndex)
  | reclaimLater (p : P) (f : F)
  | reclaimNoHazardPointer
  | destroy

namespace Shared

def ptrAt (s : Shared P F) (c : ℕ) : Option P := s.cells[c]?.bind (·.ptr)

def flagAt (s : Shared P F) (c : ℕ) : Option Bool := s.cells[c]?.map (·.flag)

def setPtr (s : Shared P F) (c : ℕ) (p : Option P) : Shared P F :=
  { s with cells := s.cells.modify c fun hp => { hp with ptr := p } }

def setFlag (s : Shared P F) (c : ℕ) (b : Bool) : Shared P F :=
  { s with cells := s.cells.modify c fun hp => { hp with flag := b } }

def pushCell (s : Shared P F) : Shared P F := { s with cells := s.cells ++ [⟨true, none⟩] }

def retire (s : Shared P F) (e : P × F) : Shared P F := { s with retired := s.retired ++ [e] }

def delete (s : Shared P F) (e : P × F) : Shared P F := { s with deleted := s.deleted ++ [e] }

def head (s : Shared P F) : ℕ := s.cells.length - 1

end Shared

namespace Local

def goto (l : Local P F) (p : Point P F) : Local P F := { l with point := p }

def erase [DecidableEq P] (l : Local P F) (p : P) : Local P F :=
  { l with reclaimMap := l.reclaimMap.filter fun e => e.1 ≠ p }

end Local

variable [DecidableEq P]

/-- A call up to its first statement. `insert` keeps the entry that is there when the pointer already waits. -/
def invoke (s : Shared P F) (l : Local P F) : Call P F → Shared P F × Local P F
  | .markHazard none => (s, l.goto (.idle none))
  | .markHazard (some p) => (s, l.goto (.mark p 0))
  | .unMarkHazard none => (s, l.goto (.idle none))
  | .unMarkHazard (some i) => (s, l.goto (.unMark i))
  | .reclaimLater p f =>
    if p ∈ l.reclaimMap.map Prod.fst then (s, l.goto (.idle none))
    else (s.retire (p, f), { l with reclaimMap := l.reclaimMap ++ [(p, f)], point := .idle none })
  | .reclaimNoHazardPointer => (s, l.goto .loadSize)
  | .destroy => (s, l.goto (.handOver 0))

def exec (ch : Choice) (s : Shared P F) (l : Local P F) : Shared P F × Local P F :=
  match l.point with
  | .mark p i =>
    match l.hpList[i]? with
    | some c => (s, l.goto (if s.ptrAt c = none then .store p i else .mark p (i + 1)))
    | none => (s, l.goto (.acquire p s.head))
  | .store p i =>
    match l.hpList[i]? with
    | some c => (s.setPtr c (some p), l.goto (.idle (some i)))
    | none => (s, l.goto .fault)
  | .acquire p c =>
    match s.flagAt c with
    | some false =>
      (s.setFlag c true, { l with hpList := l.hpList ++ [c], point := .store p l.hpList.length })
    | some true => (s, l.goto (if c = 0 then .countCell p else .acquire p (c - 1)))
    | none => (s, l.goto .fault)
  | .countCell p => ({ s with size := s.size + 1 }, l.goto (.loadHead p))
  | .loadHead p => (s, l.goto (.push p s.cells.length))
  | .push p n =>
    if s.cells.length = n ∧ ¬ ch.spurious then
      (s.pushCell, { l with hpList := l.hpList ++ [n], point := .store p l.hpList.length })
    else (s, l.goto (.push p s.cells.length))
  | .unMark i =>
    match l.hpList[i]? with
    | some c => (s.setPtr c none, l.goto (.idle none))
    | none => (s, l.goto .fault)
  | .loadSize => (s, l.goto (if l.reclaimMap.length < kCoefficient * s.size then .idle none else .startScan))
  | .startScan => (s, l.goto (.scan s.head []))
  | .scan c seen =>
    let seen := (s.ptrAt c).toList ++ seen
    (s, l.goto (if c = 0 then .sweep l.reclaimMap seen else .scan (c - 1) seen))
  | .sweep rest seen =>
    match rest[ch.entry]? with
    | some e =>
      if e.1 ∈ seen then (s, l.goto (.sweep (rest.eraseIdx ch.entry) seen))
      else (s.delete e, (l.erase e.1).goto (.sweep (rest.eraseIdx ch.entry) seen))
    | none => (s, l.goto (if rest.isEmpty then .idle none else .sweep rest seen))
  | .handOver i =>
    match l.hpList[i]? with
    | some c => (s, l.goto (if s.ptrAt c = none then .clearFlag i else .fault))
    | none => (s, l.goto .nextEntry)
  | .clearFlag i =>
    match l.hpList[i]? with
    | some c => (s.setFlag c false, l.goto (.handOver (i + 1)))
    | none => (s, l.goto .fault)
  | .nextEntry =>
    match l.reclaimMap[ch.entry]? with
    | some e => (s, l.goto (.isHazard e))
    | none => (s, l.goto (if l.reclaimMap.isEmpty then .exited else .nextEntry))
  | .isHazard e => (s, l.goto (.hazard e s.head))
  -- a pointer that is still in use makes the thread yield and look again
  | .hazard e c =>
    (s, l.goto (if s.ptrAt c = some e.1 then .isHazard e else if c = 0 then .deleteEntry e else .hazard e (c - 1)))
  | .deleteEntry e => (s.delete e, (l.erase e.1).goto .nextEntry)
  | .idle i => (s, l.goto (.idle i))
  | .exited => (s, l)
  | .fault => (s, l)

inductive Step : Shared P F × Local P F → Shared P F × Local P F → Prop
  | call (s : Shared P F) (l : Local P F) (i : HPIndex) (x : Call P F) (h : l.point = .idle i) :
    Step (s, l) ((invoke s l x).1, (invoke s l x).2)
  | exec (s : Shared P F) (l : Local P F) (ch : Choice) : Step (s, l) ((exec ch s l).1, (exec ch s l).2)

/-- The list with its first cell, whose flag no constructor sets. -/
def new (flag : Bool) : Shared P F := ⟨[⟨flag, none⟩], 0, [], []⟩

inductive Action (P F : Type)
  | call (x : Call P F)
  | exec (ch : Choice)

def act : Action P F → Shared P F × Local P F → Option (Shared P F × Local P F)
  | .call x, (s, l) =>
    match l.point with
    | .idle _ => some (invoke s l x)
    | _ => none
  | .exec ch, (s, l) => some (exec ch s l)

theorem act_step (x : Action P F) (p q : Shared P F × Local P F) (h : act x p = some q) : Step p q := by
  obtain ⟨s, l⟩ := p
  cases x with
  | call x =>
    simp only [act] at h
    split at h
    · rename_i i hi
      cases h
      exact .call s l i x hi
    · cases h
  | exec ch =>
    cases h
    exact .exec s l ch

def Run {T : Type*} [DecidableEq T] (flag : Bool) (c : Threads T (Shared P F) (Local P F)) : Prop :=
  Reachable Step (start (new flag) ⟨[], [], .idle none⟩) c

section Cells

omit [DecidableEq P]

variable {s : Shared P F} {c d : ℕ} {p : Option P} {b : Bool}

theorem ptrAt_setPtr_ne (h : d ≠ c) : (s.setPtr c p).ptrAt d = s.ptrAt d := by
  simp [Shared.ptrAt, Shared.setPtr, h.symm]

theorem flagAt_setPtr : (s.setPtr c p).flagAt d = s.flagAt d := by
  by_cases h : c = d
  · subst h
    cases hc : s.cells[c]? <;> simp [Shared.flagAt, Shared.setPtr, hc]
  · simp [Shared.flagAt, Shared.setPtr, h]

theorem ptrAt_setFlag : (s.setFlag c b).ptrAt d = s.ptrAt d := by
  by_cases h : c = d
  · subst h
    cases hc : s.cells[c]? <;> simp [Shared.ptrAt, Shared.setFlag, hc]
  · simp [Shared.ptrAt, Shared.setFlag, h]

theorem flagAt_setFlag_ne (h : d ≠ c) : (s.setFlag c b).flagAt d = s.flagAt d := by
  simp [Shared.flagAt, Shared.setFlag, h.symm]

theorem flagAt_setFlag_self (h : s.flagAt c ≠ none) : (s.setFlag c b).flagAt c = some b := by
  cases hc : s.cells[c]? with
  | none => simp [Shared.flagAt, hc] at h
  | some hp => simp [Shared.flagAt, Shared.setFlag, hc]

theorem lt_of_flagAt (h : s.flagAt c = some b) : c < s.cells.length := by
  obtain ⟨hp, hc, -⟩ := Option.map_eq_some_iff.mp h
  exact (List.getElem?_eq_some_iff.mp hc).1

theorem lt_of_ptrAt {q : P} (h : s.ptrAt c = some q) : c < s.cells.length := by
  obtain ⟨hp, hc, -⟩ := Option.bind_eq_some_iff.mp h
  exact (List.getElem?_eq_some_iff.mp hc).1

theorem flagAt_pushCell (h : s.flagAt c = some b) : s.pushCell.flagAt c = some b := by
  rw [Shared.flagAt, Shared.pushCell, List.getElem?_append_left (lt_of_flagAt h)]
  exact h

theorem flagAt_pushCell_new (s : Shared P F) : s.pushCell.flagAt s.cells.length = some true := by
  simp [Shared.flagAt, Shared.pushCell]

theorem ptrAt_pushCell {q : P} (h : s.ptrAt c = some q) : s.pushCell.ptrAt c = some q := by
  rw [Shared.ptrAt, Shared.pushCell, List.getElem?_append_left (lt_of_ptrAt h)]
  exact h

end Cells

def Local.owned (l : Local P F) : List ℕ :=
  match l.point with
  | .handOver i => l.hpList.drop i
  | .clearFlag i => l.hpList.drop i
  | .nextEntry => []
  | .isHazard _ => []
  | .hazard _ _ => []
  | .deleteEntry _ => []
  | .exited => []
  | .fault => []
  | _ => l.hpList

inductive Effect (l l' : Local P F) (s : Shared P F) : Shared P F → Prop
  | same (h : l'.owned ⊆ l.owned) (hn : l.owned.Nodup → l'.owned.Nodup) : Effect l l' s s
  | count (h : l'.owned = l.owned) : Effect l l' s { s with size := s.size + 1 }
  | store (c : ℕ) (p : Option P) (hc : c ∈ l.owned) (h : l'.owned = l.owned) : Effect l l' s (s.setPtr c p)
  | take (c : ℕ) (hf : s.flagAt c = some false) (h : l'.owned = l.owned ++ [c]) : Effect l l' s (s.setFlag c true)
  | push (h : l'.owned = l.owned ++ [s.cells.length]) : Effect l l' s s.pushCell
  | clear (c : ℕ) (h : l.owned = c :: l'.owned) : Effect l l' s (s.setFlag c false)
  | retire (e : P × F) (h : l'.owned = l.owned) : Effect l l' s (s.retire e)
  | delete (e : P × F) (h : l'.owned = l.owned) : Effect l l' s (s.delete e)

omit [DecidableEq P] in
theorem Effect.stay {l l' : Local P F} {s : Shared P F} (h : l'.owned = l.owned) : Effect l l' s s := by
  refine .same ?_ ?_ <;> rw [h]
  · exact List.Subset.refl _
  · exact id

omit [DecidableEq P] in
theorem Effect.leave {l l' : Local P F} {s : Shared P F} (h : l'.owned = []) : Effect l l' s s := by
  refine .same ?_ ?_ <;> rw [h]
  · exact List.nil_subset _
  · exact fun _ => List.nodup_nil

theorem exec_effect (ch : Choice) (s : Shared P F) (l : Local P F) :
    Effect l (exec ch s l).2 s (exec ch s l).1 := by
  obtain ⟨hpList, reclaimMap, point⟩ := l
  cases point with
  | mark p i =>
    cases hi : hpList[i]? with
    | none =>
      simp only [exec, hi]
      exact .stay rfl
    | some c =>
      simp only [exec, hi]
      split <;> exact .stay rfl
  | store p i =>
    cases hi : hpList[i]? with
    | none =>
      simp only [exec, hi]
      exact .leave rfl
    | some c =>
      simp only [exec, hi]
      exact .store c _ (List.mem_of_getElem? hi) rfl
  | acquire p c =>
    simp only [exec]
    split
    · rename_i hf
      exact .take c hf rfl
    · split <;> exact .stay rfl
    · exact .leave rfl
  | countCell p => exact .count rfl
  | loadHead p => exact .stay rfl
  | push p n =>
    simp only [exec]
    split
    · rename_i hn
      obtain ⟨rfl, -⟩ := hn
      exact .push rfl
    · exact .stay rfl
  | unMark i =>
    cases hi : hpList[i]? with
    | none =>
      simp only [exec, hi]
      exact .leave rfl
    | some c =>
      simp only [exec, hi]
      exact .store c _ (List.mem_of_getElem? hi) rfl
  | loadSize =>
    simp only [exec]
    split <;> exact .stay rfl
  | startScan => exact .stay rfl
  | scan c seen =>
    simp only [exec]
    split <;> exact .stay rfl
  | sweep rest seen =>
    simp only [exec]
    split
    · rename_i e he
      split
      · exact .stay rfl
      · exact .delete e rfl
    · split <;> exact .stay rfl
  | handOver i =>
    cases hi : hpList[i]? with
    | none =>
      simp only [exec, hi]
      exact .leave rfl
    | some c =>
      simp only [exec, hi]
      split
      · exact .stay rfl
      · exact .leave rfl
  | clearFlag i =>
    cases hi : hpList[i]? with
    | none =>
      simp only [exec, hi]
      exact .leave rfl
    | some c =>
      simp only [exec, hi]
      apply Effect.clear
      obtain ⟨hlt, rfl⟩ := List.getElem?_eq_some_iff.mp hi
      exact List.drop_eq_getElem_cons hlt
  | nextEntry =>
    simp only [exec]
    split
    · exact .stay rfl
    · split <;> exact .stay rfl
  | isHazard e => exact .stay rfl
  | hazard e c =>
    simp only [exec]
    split
    · exact .stay rfl
    · split <;> exact .stay rfl
  | deleteEntry e => exact .delete e rfl
  | idle i => exact .stay rfl
  | exited => exact .stay rfl
  | fault => exact .stay rfl

theorem invoke_effect (s : Shared P F) (l : Local P F) (x : Call P F) {i : HPIndex} (h : l.point = .idle i) :
    Effect l (invoke s l x).2 s (invoke s l x).1 := by
  obtain ⟨hpList, reclaimMap, point⟩ := l
  obtain rfl : point = .idle i := h
  cases x with
  | markHazard p => cases p <;> exact .stay rfl
  | unMarkHazard k => cases k <;> exact .stay rfl
  | reclaimLater p f =>
    simp only [invoke]
    split
    · exact .stay rfl
    · exact .retire (p, f) rfl
  | reclaimNoHazardPointer => exact .stay rfl
  | destroy => exact .stay rfl

theorem Step.effect {s s' : Shared P F} {l l' : Local P F} (h : Step (s, l) (s', l')) : Effect l l' s s' := by
  cases h with
  | call _ _ i x hi => exact invoke_effect s l x hi
  | exec _ _ ch => exact exec_effect ch s l

section Ownership

omit [DecidableEq P]

variable {s s' : Shared P F} {l l' m : Local P F}

structure Owns (s : Shared P F) (l : Local P F) : Prop where
  nodup : l.owned.Nodup
  flagged : ∀ c ∈ l.owned, s.flagAt c = some true

theorem Owns.not_mem {c : ℕ} (h : Owns s l) (hf : s.flagAt c ≠ some true) : c ∉ l.owned := fun hc =>
  hf (h.flagged c hc)

theorem Owns.not_mem_new (h : Owns s l) : s.cells.length ∉ l.owned := fun hc =>
  lt_irrefl _ (lt_of_flagAt (h.flagged _ hc))

theorem Owns.append {c : ℕ} (h : Owns s l) (hl : l'.owned = l.owned ++ [c]) (hc : c ∉ l.owned)
    (hs : ∀ d ∈ l.owned, s'.flagAt d = some true) (hsc : s'.flagAt c = some true) : Owns s' l' := by
  refine ⟨?_, fun d hd => ?_⟩
  · rw [hl]
    apply h.nodup.append (List.nodup_singleton c)
    simpa using hc
  · rw [hl, List.mem_append, List.mem_singleton] at hd
    rcases hd with hd | rfl
    · exact hs d hd
    · exact hsc

theorem Effect.owns (h : Effect l l' s s') (ho : Owns s l) : Owns s' l' := by
  cases h with
  | same hsub hn => exact ⟨hn ho.nodup, fun c hc => ho.flagged c (hsub hc)⟩
  | count h => exact ⟨h ▸ ho.nodup, h ▸ ho.flagged⟩
  | store c p hc h =>
    refine ⟨h ▸ ho.nodup, fun d hd => ?_⟩
    rw [flagAt_setPtr]
    exact ho.flagged d (h ▸ hd)
  | take c hf h =>
    have hnot : c ∉ l.owned := ho.not_mem (by simp [hf])
    apply ho.append h hnot
    · intro d hd
      rw [flagAt_setFlag_ne (ne_of_mem_of_not_mem hd hnot)]
      exact ho.flagged d hd
    · exact flagAt_setFlag_self (by simp [hf])
  | push h =>
    apply ho.append h ho.not_mem_new
    · exact fun d hd => flagAt_pushCell (ho.flagged d hd)
    · exact flagAt_pushCell_new s
  | clear c h =>
    have hnodup := ho.nodup
    rw [h, List.nodup_cons] at hnodup
    refine ⟨hnodup.2, fun d hd => ?_⟩
    rw [flagAt_setFlag_ne (ne_of_mem_of_not_mem hd hnodup.1)]
    exact ho.flagged d (h ▸ List.mem_cons_of_mem c hd)
  | retire e h => exact ⟨h ▸ ho.nodup, h ▸ ho.flagged⟩
  | delete e h => exact ⟨h ▸ ho.nodup, h ▸ ho.flagged⟩

theorem Effect.apart (h : Effect l l' s s') (hm : Owns s m) (hr : l.owned.Disjoint m.owned) :
    Owns s' m ∧ l'.owned.Disjoint m.owned := by
  cases h with
  | same hsub hn => exact ⟨hm, fun c hc => hr (hsub hc)⟩
  | count h => exact ⟨⟨hm.nodup, hm.flagged⟩, h ▸ hr⟩
  | store c p hc h =>
    refine ⟨⟨hm.nodup, fun d hd => ?_⟩, h ▸ hr⟩
    rw [flagAt_setPtr]
    exact hm.flagged d hd
  | take c hf h =>
    have hnot : c ∉ m.owned := hm.not_mem (by simp [hf])
    refine ⟨⟨hm.nodup, fun d hd => ?_⟩, ?_⟩
    · rw [flagAt_setFlag_ne (ne_of_mem_of_not_mem hd hnot)]
      exact hm.flagged d hd
    · rw [h, List.disjoint_append_left, List.singleton_disjoint]
      exact ⟨hr, hnot⟩
  | push h =>
    refine ⟨⟨hm.nodup, fun d hd => flagAt_pushCell (hm.flagged d hd)⟩, ?_⟩
    rw [h, List.disjoint_append_left, List.singleton_disjoint]
    exact ⟨hr, hm.not_mem_new⟩
  | clear c h =>
    rw [h, List.disjoint_cons_left] at hr
    refine ⟨⟨hm.nodup, fun d hd => ?_⟩, hr.2⟩
    rw [flagAt_setFlag_ne (ne_of_mem_of_not_mem hd hr.1)]
    exact hm.flagged d hd
  | retire e h => exact ⟨⟨hm.nodup, hm.flagged⟩, h ▸ hr⟩
  | delete e h => exact ⟨⟨hm.nodup, hm.flagged⟩, h ▸ hr⟩

theorem Effect.ptrAt {c : ℕ} {p : P} (h : Effect l l' s s') (hc : c ∉ l.owned) (hp : s.ptrAt c = some p) :
    s'.ptrAt c = some p := by
  cases h with
  | store d q hd h =>
    rw [ptrAt_setPtr_ne]
    · exact hp
    · rintro rfl
      exact hc hd
  | take d hf h => rw [ptrAt_setFlag, hp]
  | push h => exact ptrAt_pushCell hp
  | clear d h => rw [ptrAt_setFlag, hp]
  | _ => exact hp

end Ownership

section Runs

variable {T : Type*} [DecidableEq T] {flag : Bool} {c : Threads T (Shared P F) (Local P F)}

theorem Run.cells_apart (h : Run flag c) :
    (∀ t, Owns c.shared (c.point t)) ∧ ∀ t u, t ≠ u → (c.point t).owned.Disjoint (c.point u).owned := by
  refine (Reachable.pair_inv (I := fun _ => True) (P := Owns)
    (R := fun l m => l.owned.Disjoint m.owned) h (fun _ _ hr => hr.symm) trivial ?_ ?_ ?_ ?_).2
  · exact fun t => ⟨List.nodup_nil, List.forall_mem_nil _⟩
  · exact fun t u _ => List.disjoint_nil_left _
  · exact fun s l s' l' _ ho hs => ⟨trivial, hs.effect.owns ho⟩
  · exact fun s l s' l' m _ _ hs hm hr => hs.effect.apart hm hr

end Runs

end MetadataService.HazardThreads
