import MetadataService.HazardThreads
import Mathlib.Data.Fintype.Basic

namespace MetadataService.HazardThreads

open Threads Reclaimer

variable {P F : Type} [DecidableEq P]

section Waiting

def Point.entries : Point P F → List (P × F)
  | .sweep rest _ => rest
  | .isHazard e => [e]
  | .hazard e _ => [e]
  | .deleteEntry e => [e]
  | _ => []

structure Waits (l : Local P F) : Prop where
  nodup : (l.reclaimMap.map Prod.fst).Nodup
  entries : l.point.entries.Sublist l.reclaimMap

variable {s : Shared P F} {l : Local P F} {x : Point P F}

omit [DecidableEq P] in
theorem Waits.goto (h : Waits l) (hx : x.entries.Sublist l.reclaimMap) : Waits (l.goto x) := ⟨h.nodup, hx⟩

omit [DecidableEq P] in
theorem Waits.goto_nil (h : Waits l) (hx : x.entries = []) : Waits (l.goto x) :=
  h.goto (hx ▸ List.nil_sublist _)

theorem filter_ne_self {e : P × F} {es : List (P × F)} (h : e.1 ∉ es.map Prod.fst) :
    es.filter (fun e' => e'.1 ≠ e.1) = es := by
  apply List.filter_eq_self.mpr
  intro e' he'
  apply decide_eq_true
  intro heq
  exact h (heq ▸ List.mem_map_of_mem he')

theorem Waits.erase {e : P × F} {es rest : List (P × F)} (h : Waits l) (hes : es.Sublist l.reclaimMap)
    (hr : rest.Sublist es) (hperm : (e :: rest).Perm es) (hx : x.entries = rest) : Waits ((l.erase e.1).goto x) := by
  have hkeys : ((e :: rest).map Prod.fst).Nodup := (hperm.map _).nodup_iff.mpr (h.nodup.sublist (hes.map _))
  rw [List.map_cons, List.nodup_cons] at hkeys
  refine ⟨h.nodup.sublist (List.filter_sublist.map _), ?_⟩
  change x.entries.Sublist (l.reclaimMap.filter fun e' => e'.1 ≠ e.1)
  rw [hx, ← filter_ne_self hkeys.1]
  exact (hr.trans hes).filter _

omit [DecidableEq P] in
theorem perm_eraseIdx {es : List (P × F)} {i : ℕ} {e : P × F} (h : es[i]? = some e) :
    (e :: es.eraseIdx i).Perm es := by
  obtain ⟨hi, rfl⟩ := List.getElem?_eq_some_iff.mp h
  exact List.getElem_cons_eraseIdx_perm hi

theorem exec_waits (ch : Choice) (h : Waits l) : Waits (exec ch s l).2 := by
  obtain ⟨hpList, reclaimMap, point⟩ := l
  cases point with
  | scan c seen =>
    simp only [exec]
    split
    · exact h.goto (List.Sublist.refl _)
    · exact h.goto_nil rfl
  | sweep rest seen =>
    have hr : rest.Sublist reclaimMap := h.entries
    simp only [exec]
    split
    · rename_i e he
      split
      · exact h.goto ((List.eraseIdx_sublist rest ch.entry).trans hr)
      · exact h.erase hr (List.eraseIdx_sublist rest ch.entry) (perm_eraseIdx he) rfl
    · split
      · exact h.goto_nil rfl
      · exact h.goto hr
  | nextEntry =>
    simp only [exec]
    split
    · rename_i e he
      exact h.goto (List.singleton_sublist.mpr (List.mem_of_getElem? he))
    · split <;> exact h.goto_nil rfl
  | isHazard e => exact h.goto h.entries
  | hazard e c =>
    have hr : [e].Sublist reclaimMap := h.entries
    simp only [exec]
    split
    · exact h.goto hr
    · split <;> exact h.goto hr
  | deleteEntry e => exact h.erase h.entries (List.nil_sublist _) (List.Perm.refl _) rfl
  | exited => exact h
  | fault => exact h
  | _ =>
    simp only [exec]
    repeat' split
    all_goals first | exact h.goto_nil rfl | exact ⟨h.nodup, List.nil_sublist _⟩

theorem invoke_waits (h : Waits l) (x : Call P F) : Waits (invoke s l x).2 := by
  cases x with
  | markHazard p => cases p <;> exact h.goto_nil rfl
  | unMarkHazard k => cases k <;> exact h.goto_nil rfl
  | reclaimLater p f =>
    simp only [invoke]
    split
    · exact h.goto_nil rfl
    · rename_i hp
      refine ⟨?_, List.nil_sublist _⟩
      rw [List.map_append]
      apply h.nodup.append (List.nodup_singleton p)
      simpa using hp
  | reclaimNoHazardPointer => exact h.goto_nil rfl
  | destroy => exact h.goto_nil rfl

end Waiting

section Scanning

variable {s : Shared P F} {l : Local P F} {i : ℕ} {p : P}

def Spares (i : ℕ) (p : P) (l : Local P F) : Prop :=
  match l.point with
  | .scan c seen => p ∈ l.reclaimMap.map Prod.fst → i ≤ c ∨ p ∈ seen
  | .sweep rest seen => p ∈ rest.map Prod.fst → p ∈ seen
  | .hazard e c => e.1 = p → i ≤ c
  | .deleteEntry e => e.1 ≠ p
  | _ => True

omit [DecidableEq P] in
theorem Waits.spares (h : Waits l) (i : ℕ) (hp : p ∉ l.reclaimMap.map Prod.fst) : Spares i p l := by
  have hentries : p ∉ l.point.entries.map Prod.fst := fun hmem => hp ((h.entries.map _).subset hmem)
  obtain ⟨hpList, reclaimMap, point⟩ := l
  cases point with
  | scan c seen => exact fun hmem => absurd hmem hp
  | sweep rest seen => exact fun hmem => absurd hmem hentries
  | hazard e c => exact fun he => absurd (he ▸ List.mem_singleton_self e.1) hentries
  | deleteEntry e => exact fun he => hentries (he ▸ List.mem_singleton_self e.1)
  | _ => trivial

def OthersDeleted (p : P) (s s' : Shared P F) : Prop :=
  ∃ es, s'.deleted = s.deleted ++ es ∧ ∀ e ∈ es, e.1 ≠ p

omit [DecidableEq P] in
theorem OthersDeleted.refl (p : P) (s : Shared P F) : OthersDeleted p s s :=
  ⟨[], (List.append_nil _).symm, List.forall_mem_nil _⟩

omit [DecidableEq P] in
theorem OthersDeleted.trans {s' s'' : Shared P F} (h : OthersDeleted p s s') (h' : OthersDeleted p s' s'') :
    OthersDeleted p s s'' := by
  obtain ⟨es, hes, hne⟩ := h
  obtain ⟨es', hes', hne'⟩ := h'
  refine ⟨es ++ es', by rw [hes', hes, List.append_assoc], fun e he => ?_⟩
  exact (List.mem_append.mp he).elim (hne e) (hne' e)

omit [DecidableEq P] in
theorem othersDeleted_delete {e : P × F} (h : e.1 ≠ p) : OthersDeleted p s (s.delete e) :=
  ⟨[e], rfl, fun e' he' => by rw [List.mem_singleton.mp he']; exact h⟩

theorem exec_spares (ch : Choice) (hc : s.ptrAt i = some p) (h : Spares i p l) :
    Spares i p (exec ch s l).2 ∧ OthersDeleted p s (exec ch s l).1 := by
  have hi := lt_of_ptrAt hc
  obtain ⟨hpList, reclaimMap, point⟩ := l
  cases point with
  | startScan => exact ⟨fun _ => .inl (Nat.le_sub_one_of_lt hi), .refl p s⟩
  | scan c seen =>
    -- the cell that is read now is `i`, or `i` comes later
    have hnext : p ∈ reclaimMap.map Prod.fst → i < c ∨ p ∈ (s.ptrAt c).toList ++ seen := by
      intro hp
      rcases h hp with hle | hseen
      · rcases Nat.lt_or_eq_of_le hle with hlt | rfl
        · exact .inl hlt
        · exact .inr (by simp [hc])
      · exact .inr (List.mem_append_right _ hseen)
    refine ⟨?_, .refl p s⟩
    simp only [exec]
    split
    · rename_i h0
      exact fun hp => (hnext hp).resolve_left (by omega)
    · exact fun hp => (hnext hp).imp_left fun hlt => Nat.le_sub_one_of_lt hlt
  | sweep rest seen =>
    have hrest : p ∈ (rest.eraseIdx ch.entry).map Prod.fst → p ∈ seen := fun hp =>
      h (((List.eraseIdx_sublist rest ch.entry).map _).subset hp)
    simp only [exec]
    split
    · rename_i e he
      split
      · exact ⟨hrest, .refl p s⟩
      · rename_i hseen
        refine ⟨hrest, othersDeleted_delete ?_⟩
        rintro rfl
        exact hseen (h (List.mem_map_of_mem (List.mem_of_getElem? he)))
    · refine ⟨?_, .refl p s⟩
      split
      · trivial
      · exact h
  | nextEntry =>
    simp only [exec]
    split
    · exact ⟨trivial, .refl p s⟩
    · refine ⟨?_, .refl p s⟩
      split <;> trivial
  | isHazard e => exact ⟨fun _ => Nat.le_sub_one_of_lt hi, .refl p s⟩
  | hazard e c =>
    refine ⟨?_, .refl p s⟩
    simp only [exec]
    split
    · trivial
    · rename_i hne
      have hlt : e.1 = p → i < c := by
        intro he
        apply lt_of_le_of_ne (h he)
        rintro rfl
        exact hne (he ▸ hc)
      split
      · rename_i h0
        exact fun he => absurd (hlt he) (by omega)
      · exact fun he => Nat.le_sub_one_of_lt (hlt he)
  | deleteEntry e => exact ⟨trivial, othersDeleted_delete h⟩
  | _ =>
    simp only [exec]
    repeat' split
    all_goals exact ⟨trivial, [], (List.append_nil _).symm, List.forall_mem_nil _⟩

end Scanning

section Runs

variable {T : Type*} [DecidableEq T] {flag : Bool} {c d : Threads T (Shared P F) (Local P F)}

theorem Step.waits {s s' : Shared P F} {l l' : Local P F} (h : Step (s, l) (s', l')) (hw : Waits l) : Waits l' := by
  cases h with
  | call _ _ i x hi => exact invoke_waits hw x
  | exec _ _ ch => exact exec_waits ch hw

theorem Run.waits (h : Run flag c) (t : T) : Waits (c.point t) := by
  refine (Reachable.local_inv (I := fun _ => True) (P := fun _ l => Waits l) h trivial ?_ ?_ ?_).2 t
  · exact fun t => ⟨List.nodup_nil, List.nil_sublist _⟩
  · exact fun s l s' l' _ hw hs => ⟨trivial, hs.waits hw⟩
  · exact fun s l s' l' m _ _ _ hm => hm

theorem Step.spares {s s' : Shared P F} {l l' : Local P F} {i : ℕ} {p : P} (h : Step (s, l) (s', l'))
    (hc : s.ptrAt i = some p) (hs : Spares i p l) : Spares i p l' ∧ OthersDeleted p s s' := by
  cases h with
  | call _ _ j x hj =>
    cases x with
    | markHazard q => cases q <;> exact ⟨trivial, .refl p s⟩
    | unMarkHazard k => cases k <;> exact ⟨trivial, .refl p s⟩
    | reclaimLater q f =>
      simp only [invoke]
      split <;> exact ⟨trivial, [], (List.append_nil _).symm, List.forall_mem_nil _⟩
    | reclaimNoHazardPointer => exact ⟨trivial, .refl p s⟩
    | destroy => exact ⟨trivial, .refl p s⟩
  | exec _ _ ch => exact exec_spares ch hc hs

def Holds (k : ℕ) (l : Local P F) : Bool :=
  match l.point with
  | .unMark j => j ≠ k
  | .handOver _ => false
  | .clearFlag _ => false
  | .nextEntry => false
  | .isHazard _ => false
  | .hazard _ _ => false
  | .deleteEntry _ => false
  | .exited => false
  | .fault => false
  | _ => true

omit [DecidableEq P] in
theorem owned_of_holds {k : ℕ} {l : Local P F} (h : Holds k l) : l.owned = l.hpList := by
  obtain ⟨hpList, reclaimMap, point⟩ := l
  cases point <;> first | rfl | cases h

structure Handle (k i : ℕ) (l : Local P F) : Prop where
  cell : l.hpList[k]? = some i
  store : ∀ q, l.point ≠ .store q k

omit [DecidableEq P] in
theorem Handle.goto {l : Local P F} {k i : ℕ} {x : Point P F} (h : Handle k i l) (hx : ∀ q, x ≠ .store q k) :
    Handle k i (l.goto x) :=
  ⟨h.cell, hx⟩

omit [DecidableEq P] in
theorem Handle.append {l : Local P F} {k i : ℕ} (h : Handle k i l) (c : ℕ) (q : P) :
    Handle k i { l with hpList := l.hpList ++ [c], point := .store q l.hpList.length } := by
  have hlt : k < l.hpList.length := (List.getElem?_eq_some_iff.mp h.cell).1
  refine ⟨?_, ?_⟩
  · simp only [List.getElem?_append_left hlt]
    exact h.cell
  · rintro q' ⟨⟩
    exact lt_irrefl _ hlt

omit [DecidableEq P] in
theorem Handle.ne {l : Local P F} {j k i c : ℕ} (h : Handle k i l) (hn : l.hpList.Nodup) (hj : l.hpList[j]? = some c)
    (hjk : j ≠ k) : i ≠ c := by
  rintro rfl
  obtain ⟨hlt, -⟩ := List.getElem?_eq_some_iff.mp hj
  exact hjk ((List.getElem?_inj hlt hn).mp (hj.trans h.cell.symm))

theorem exec_handle {s : Shared P F} {l : Local P F} {k i : ℕ} {p : P} (ch : Choice) (ho : Owns s l)
    (hc : s.ptrAt i = some p) (hb : Holds k l) (hh : Handle k i l) :
    Handle k i (exec ch s l).2 ∧ (exec ch s l).1.ptrAt i = some p := by
  obtain ⟨hpList, reclaimMap, point⟩ := l
  cases point with
  | mark q j =>
    cases hj : hpList[j]? with
    | none =>
      simp only [exec, hj]
      exact ⟨hh.goto (by simp), hc⟩
    | some c =>
      simp only [exec, hj]
      refine ⟨hh.goto ?_, hc⟩
      split
      · rename_i hnone
        -- an own cell that is null is not the one in use
        rintro q' ⟨⟩
        rw [hh.cell] at hj
        cases hj
        rw [hc] at hnone
        cases hnone
      · simp
  | store q j =>
    have hjk : j ≠ k := by
      rintro rfl
      exact hh.store q rfl
    cases hj : hpList[j]? with
    | none =>
      simp only [exec, hj]
      exact ⟨hh.goto (by simp), hc⟩
    | some c =>
      simp only [exec, hj]
      refine ⟨hh.goto (by simp), ?_⟩
      rw [ptrAt_setPtr_ne (hh.ne ho.nodup hj hjk), hc]
  | acquire q c =>
    simp only [exec]
    split
    · exact ⟨hh.append c q, by rw [ptrAt_setFlag, hc]⟩
    · refine ⟨hh.goto ?_, hc⟩
      split <;> simp
    · exact ⟨hh.goto (by simp), hc⟩
  | push q n =>
    simp only [exec]
    split
    · exact ⟨hh.append n q, ptrAt_pushCell hc⟩
    · exact ⟨hh.goto (by simp), hc⟩
  | unMark j =>
    cases hj : hpList[j]? with
    | none =>
      simp only [exec, hj]
      exact ⟨hh.goto (by simp), hc⟩
    | some c =>
      simp only [exec, hj]
      refine ⟨hh.goto (by simp), ?_⟩
      rw [ptrAt_setPtr_ne (hh.ne ho.nodup hj (of_decide_eq_true hb)), hc]
  | sweep rest seen =>
    simp only [exec]
    split
    · split <;> exact ⟨⟨hh.cell, by simp [Local.goto]⟩, hc⟩
    · refine ⟨hh.goto ?_, hc⟩
      split <;> simp
  | countCell q => exact ⟨hh.goto (by simp), hc⟩
  | loadHead q => exact ⟨hh.goto (by simp), hc⟩
  | loadSize =>
    refine ⟨hh.goto ?_, hc⟩
    split <;> simp
  | startScan => exact ⟨hh.goto (by simp), hc⟩
  | scan c seen =>
    refine ⟨hh.goto ?_, hc⟩
    split <;> simp
  | idle j => exact ⟨hh.goto (by simp), hc⟩
  | _ => cases hb

theorem invoke_handle {s : Shared P F} {l : Local P F} {k i : ℕ} {p : P} (x : Call P F)
    (hc : s.ptrAt i = some p) (hh : Handle k i l) : Handle k i (invoke s l x).2 ∧ (invoke s l x).1.ptrAt i = some p := by
  cases x with
  | markHazard q => cases q <;> exact ⟨hh.goto (by simp), hc⟩
  | unMarkHazard j => cases j <;> exact ⟨hh.goto (by simp), hc⟩
  | reclaimLater q f =>
    simp only [invoke]
    split
    · exact ⟨hh.goto (by simp), hc⟩
    · exact ⟨⟨hh.cell, by simp⟩, hc⟩
  | reclaimNoHazardPointer => exact ⟨hh.goto (by simp), hc⟩
  | destroy => exact ⟨hh.goto (by simp), hc⟩

structure Protects (t : T) (k i : ℕ) (p : P) (c d : Threads T (Shared P F) (Local P F)) : Prop where
  holds : Holds k (d.point t)
  handle : Handle k i (d.point t)
  cell : d.shared.ptrAt i = some p
  spares : ∀ u, Spares i p (d.point u)
  deleted : OthersDeleted p c.shared d.shared

theorem Protects.step {t u : T} {k i : ℕ} {p : P} {s : Shared P F} {l : Local P F} (h : Protects t k i p c d)
    (hrun : Run flag d) (hs : Step (d.shared, d.point u) (s, l)) (hb : Holds k ((d.set u s l).point t)) :
    Protects t k i p c (d.set u s l) := by
  obtain ⟨howns, hapart⟩ := hrun.cells_apart
  obtain ⟨hspares, hdeleted⟩ := hs.spares h.cell (h.spares u)
  have hcell : Handle k i ((d.set u s l).point t) ∧ s.ptrAt i = some p := by
    by_cases hut : u = t
    · subst hut
      rw [set_point_self]
      cases hs with
      | call _ _ j x hj => exact invoke_handle x h.cell h.handle
      | exec _ _ ch => exact exec_handle ch (howns u) h.cell h.holds h.handle
    · rw [set_point_ne _ (Ne.symm hut)]
      refine ⟨h.handle, hs.effect.ptrAt ?_ h.cell⟩
      apply hapart t u (Ne.symm hut)
      rw [owned_of_holds h.holds]
      exact List.mem_of_getElem? h.handle.cell
  refine ⟨hb, hcell.1, hcell.2, fun v => ?_, h.deleted.trans hdeleted⟩
  by_cases hv : v = u
  · subst hv
    rw [set_point_self]
    exact hspares
  · rw [set_point_ne _ hv]
    exact h.spares v

theorem Run.not_deleted {t : T} {k i : ℕ} {p : P} (h : Run flag c) (hholds : Holds k (c.point t))
    (hstore : ∀ q, (c.point t).point ≠ .store q k) (hk : (c.point t).hpList[k]? = some i)
    (hp : c.shared.ptrAt i = some p) (hfree : ∀ u, p ∉ (c.point u).reclaimMap.map Prod.fst)
    (hd : During Step (fun l => Holds k l) t c d) :
    d.shared.ptrAt i = some p ∧ OthersDeleted p c.shared d.shared := by
  suffices hall : Protects t k i p c d from ⟨hall.cell, hall.deleted⟩
  induction hd with
  | refl => exact ⟨hholds, ⟨hk, hstore⟩, hp, fun u => (h.waits u).spares i (hfree u), .refl p _⟩
  | tail hcd hm ih =>
    obtain ⟨⟨u, s, l, hs, rfl⟩, hb⟩ := hm
    have hcd : During Step (fun l => Holds k l) t c _ := hcd
    exact ih.step (h.trans hcd.reachable) hs hb

-- One thread has marked a pointer and is marking another one; the other thread hands the first one over with
-- a pointer that is in no cell, and looks through the list.
theorem Run.not_deleted_scanned : ∃ c d : Threads Bool (Shared ℕ Unit) (Local ℕ Unit),
    (d.point true).point = .idle none ∧ (d.point true).reclaimMap = [(7, ())] ∧ d.shared.deleted = [(9, ())] ∧
      d.shared.ptrAt 0 = some 7 ∧ OthersDeleted 7 c.shared d.shared := by
  let marks : List (Bool × Action ℕ Unit) :=
    (false, .call (.markHazard (some 7))) :: List.replicate 3 (false, .exec ⟨false, 0⟩) ++
      [(false, .call (.markHazard (some 8)))]
  let scans : List (Bool × Action ℕ Unit) :=
    [(true, .call (.reclaimLater 7 ())), (true, .call (.reclaimLater 9 ())), (true, .call .reclaimNoHazardPointer),
      (false, .exec ⟨false, 0⟩)] ++ List.replicate 3 (true, .exec ⟨false, 0⟩) ++
      [(true, .exec ⟨false, 1⟩), (true, .exec ⟨false, 0⟩), (true, .exec ⟨false, 0⟩)]
  have hreplay : (replay act (fun _ _ => true) (fun _ => true) false marks
      (start (new false) ⟨[], [], .idle none⟩)).any (fun c =>
        decide ((c.point false).point = .mark 8 0 ∧ (c.point false).hpList[0]? = some 0 ∧
          c.shared.ptrAt 0 = some 7 ∧ ∀ u, 7 ∉ (c.point u).reclaimMap.map Prod.fst) &&
        (replay act (fun _ _ => true) (Holds 0) false scans c).any fun d =>
          decide ((d.point true).point = .idle none ∧ (d.point true).reclaimMap = [(7, ())] ∧
            d.shared.deleted = [(9, ())])) = true := by
    decide +kernel
  obtain ⟨c, hc, hcd⟩ := (Option.any_eq_true ..).mp hreplay
  obtain ⟨hmarked, hscan⟩ := (Bool.and_eq_true ..).mp hcd
  obtain ⟨d, hd, hend⟩ := (Option.any_eq_true ..).mp hscan
  obtain ⟨hpoint, hk, hp, hfree⟩ := of_decide_eq_true hmarked
  obtain ⟨hidle, hmap, hdeleted⟩ := of_decide_eq_true hend
  have hrun : Run false c := During.reachable (t := false) (replay_during act_step (fun _ _ => trivial) hc)
  have hholds : Holds 0 (c.point false) := by rw [Holds, hpoint]
  have hstore : ∀ q, (c.point false).point ≠ .store q 0 := by simp [hpoint]
  exact ⟨c, d, hidle, hmap, hdeleted,
    Run.not_deleted hrun hholds hstore hk hp hfree (replay_during act_step (fun _ h => h) hd)⟩

section Accounting

theorem Waits.erase_accounted {l : Local P F} (h : Waits l) {e : P × F} (he : e ∈ l.reclaimMap) :
    (l.reclaimMap : Multiset (P × F)) = {e} + ((l.erase e.1).reclaimMap : Multiset (P × F)) := by
  obtain ⟨pre, post, hmap⟩ := List.append_of_mem he
  have hkeys := h.nodup
  rw [hmap, List.map_append, List.map_cons, List.nodup_middle, List.nodup_cons, List.mem_append, not_or] at hkeys
  have herase : (l.erase e.1).reclaimMap = pre ++ post := by
    rw [Local.erase, hmap, List.filter_append, List.filter_cons_of_neg (by simp), filter_ne_self hkeys.1.1,
      filter_ne_self hkeys.1.2]
  rw [herase, hmap, Multiset.singleton_add, Multiset.cons_coe, Multiset.coe_eq_coe]
  exact List.perm_middle

variable {s s' : Shared P F} {l l' : Local P F}

def Accounted (s : Shared P F) (l : Local P F) (s' : Shared P F) (l' : Local P F) : Prop :=
  (s'.retired : Multiset (P × F)) + (s.deleted + l.reclaimMap) = s.retired + (s'.deleted + l'.reclaimMap)

theorem Waits.delete_accounted {x : Point P F} (h : Waits l) {e : P × F} (he : e ∈ l.reclaimMap) :
    Accounted s l (s.delete e) ((l.erase e.1).goto x) := by
  rw [Accounted, h.erase_accounted he, Local.goto, Shared.delete, ← Multiset.coe_add, Multiset.coe_singleton,
    add_assoc]

theorem exec_accounted (ch : Choice) (hw : Waits l) : Accounted s l (exec ch s l).1 (exec ch s l).2 := by
  obtain ⟨hpList, reclaimMap, point⟩ := l
  cases point with
  | sweep rest seen =>
    simp only [exec]
    split
    · rename_i e he
      split
      · rfl
      · exact hw.delete_accounted (hw.entries.subset (List.mem_of_getElem? he))
    · rfl
  | deleteEntry e => exact hw.delete_accounted (hw.entries.subset List.mem_cons_self)
  | _ =>
    simp only [exec]
    repeat' split
    all_goals rfl

theorem invoke_accounted (x : Call P F) : Accounted s l (invoke s l x).1 (invoke s l x).2 := by
  cases x with
  | markHazard p => cases p <;> rfl
  | unMarkHazard k => cases k <;> rfl
  | reclaimLater p f =>
    simp only [invoke]
    split
    · rfl
    · simp only [Accounted, Shared.retire, ← Multiset.coe_add, Multiset.coe_singleton]
      abel
  | reclaimNoHazardPointer => rfl
  | destroy => rfl

theorem Step.accounted (h : Step (s, l) (s', l')) (hw : Waits l) : Accounted s l s' l' := by
  cases h with
  | call _ _ i x hi => exact invoke_accounted x
  | exec _ _ ch => exact exec_accounted ch hw

theorem exec_exited (ch : Choice) (hl : l.point = .exited → l.reclaimMap = [])
    (hexit : (exec ch s l).2.point = .exited) : (exec ch s l).2.reclaimMap = [] := by
  obtain ⟨hpList, reclaimMap, point⟩ := l
  cases point with
  | nextEntry =>
    cases reclaimMap with
    | nil => rfl
    | cons e rest =>
      simp only [exec, Local.goto, List.isEmpty_cons, Bool.false_eq_true, if_false] at hexit
      split at hexit <;> cases hexit
  | exited => exact hl rfl
  | _ =>
    simp only [exec, Local.goto] at hexit
    repeat' split at hexit
    all_goals cases hexit

theorem Step.exited (h : Step (s, l) (s', l')) (hl : l.point = .exited → l.reclaimMap = [])
    (hexit : l'.point = .exited) : l'.reclaimMap = [] := by
  cases h with
  | call _ _ i x hi =>
    cases x with
    | markHazard p => cases p <;> cases hexit
    | unMarkHazard k => cases k <;> cases hexit
    | reclaimLater p f =>
      simp only [invoke] at hexit
      split at hexit <;> cases hexit
    | reclaimNoHazardPointer => cases hexit
    | destroy => cases hexit
  | exec _ _ ch => exact exec_exited ch hl hexit

variable [Fintype T]

theorem Run.accounted (h : Run flag c) :
    (c.shared.retired : Multiset (P × F)) = c.shared.deleted + ∑ t, ((c.point t).reclaimMap : Multiset (P × F)) := by
  induction h with
  | refl => simp [start, new]
  | @tail d e hd hm ih =>
    obtain ⟨t, s, l, hs, rfl⟩ := hm
    have hsum := sum_set_add (fun l : Local P F => (l.reclaimMap : Multiset (P × F))) d t s l
    have hstep : (s.retired : Multiset (P × F)) + _ = _ := hs.accounted (Run.waits hd t)
    have hwaits : (s.retired : Multiset (P × F)) + (d.shared.deleted + (d.point t).reclaimMap) =
        s.deleted + ∑ u, (((d.set t s l).point u).reclaimMap : Multiset (P × F)) +
          (d.shared.deleted + (d.point t).reclaimMap) := by
      rw [hstep, ih, add_add_add_comm _ _ (d.shared.deleted : Multiset (P × F)), hsum]
      abel
    exact add_right_cancel hwaits

theorem Run.all_deleted (h : Run flag c) (hexit : ∀ t, (c.point t).point = .exited) :
    c.shared.deleted.Perm c.shared.retired := by
  have hempty (t : T) : (c.point t).reclaimMap = [] := by
    refine (Reachable.local_inv (I := fun _ => True)
      (P := fun _ l => l.point = .exited → l.reclaimMap = []) h trivial ?_ ?_ ?_).2 t (hexit t)
    · exact fun t _ => rfl
    · exact fun s l s' l' _ hl hs => ⟨trivial, hs.exited hl⟩
    · exact fun s l s' l' m _ _ _ hm => hm
  have hall := h.accounted
  simp only [hempty, Multiset.coe_nil, Finset.sum_const_zero, add_zero, Multiset.coe_eq_coe] at hall
  exact hall.symm

-- A scan deletes 8 while the other thread has marked 7. The thread that scanned ends when 7 is unmarked.
theorem Run.all_deleted_two : ∃ c : Threads Bool (Shared ℕ Unit) (Local ℕ Unit),
    c.shared.retired = [(7, ()), (8, ()), (9, ())] ∧ c.shared.deleted = [(8, ()), (9, ()), (7, ())] ∧
      c.shared.deleted.Perm c.shared.retired := by
  let go (t : Bool) (n : ℕ) : List (Bool × Action ℕ Unit) := List.replicate n (t, .exec ⟨false, 0⟩)
  let steps : List (Bool × Action ℕ Unit) :=
    (false, .call (.markHazard (some 7))) :: go false 3 ++
      [(true, .call (.reclaimLater 7 ())), (true, .call (.reclaimLater 8 ())),
        (true, .call .reclaimNoHazardPointer)] ++ go true 2 ++
      (false, .call (.reclaimLater 9 ())) :: go true 4 ++
      (true, .call .destroy) :: go true 2 ++ (false, .call (.unMarkHazard (some 0))) :: go false 1 ++
      (false, .call .destroy) :: go false 4 ++ go true 1 ++ go false 4 ++ go true 5
  have hreplay : (replay act (fun _ _ => true) (fun _ => true) true steps
      (start (new false) ⟨[], [], .idle none⟩)).any (fun c =>
        decide ((c.point true).point = .exited ∧ (c.point false).point = .exited ∧
          c.shared.retired = [(7, ()), (8, ()), (9, ())] ∧ c.shared.deleted = [(8, ()), (9, ()), (7, ())])) = true := by
    decide +kernel
  obtain ⟨c, hc, hend⟩ := (Option.any_eq_true ..).mp hreplay
  obtain ⟨htrue, hfalse, hretired, hdeleted⟩ := of_decide_eq_true hend
  have hrun : Run false c := During.reachable (t := true) (replay_during act_step (fun _ _ => trivial) hc)
  have hexit : ∀ t, (c.point t).point = .exited
    | true => htrue
    | false => hfalse
  exact ⟨c, hretired, hdeleted, Run.all_deleted hrun hexit⟩

end Accounting

end Runs

end MetadataService.HazardThreads
