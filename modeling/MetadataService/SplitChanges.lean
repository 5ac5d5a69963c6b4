import MetadataService.SplitList

namespace MetadataService.CT

open HeapCells

variable {A K V : Type} [LinearOrder K] [DecidableEq A] {hash : K → UInt64} {h : Heap A (Obj A K V)}
  {waiting : List (A × DeleteFunc)} {l pre post : List (Entry A K V)} {g : List (Garbage A K V)}
  {f : List (A × Obj A K V)} {x y : Entry A K V} {a : A} {o : Obj A K V}

theorem perm_third {α : Type} (b c d e : List α) : (b ++ (c ++ (d ++ e))).Perm (d ++ (b ++ (c ++ e))) :=
  ((List.perm_append_comm_assoc c d e).append_left b).trans (List.perm_append_comm_assoc b d _)

theorem sublist_second {α : Type} (pre post : List α) (x y : α) :
    (pre ++ x :: post).Sublist (pre ++ x :: y :: post) :=
  ((List.sublist_cons_self y post).cons_cons x).append_left pre

namespace Listed

theorem alloc (w : Listed hash h waiting l g f) (ha : a ∉ h.keys) (o : Obj A K V) :
    Listed hash (h.insert a o) waiting l g ((a, o) :: f) := by
  refine ⟨?_, w.sorted, w.valid, w.waits⟩
  apply (w.owns.alloc ha o).perm
  exact (perm_third (listCells hash l .null) (g.flatMap (Garbage.cells hash)) [(a, o)] f).symm

theorem write (w : Listed hash h waiting l g ((a, o) :: f)) (o' : Obj A K V) :
    Listed hash (h.insert a o') waiting l g ((a, o') :: f) := by
  refine ⟨?_, w.sorted, w.valid, w.waits⟩
  have howns := w.owns
  rw [← List.append_assoc] at howns ⊢
  exact howns.write_mid o'

theorem free (w : Listed hash h waiting l g ((a, o) :: f)) : Listed hash (h.erase a) waiting l g f := by
  refine ⟨?_, w.sorted, w.valid, w.waits⟩
  have howns := w.owns
  rw [← List.append_assoc] at howns ⊢
  exact howns.free_mid

theorem frame_perm {f' : List (A × Obj A K V)} (w : Listed hash h waiting l g f) (hp : f.Perm f') :
    Listed hash h waiting l g f' :=
  ⟨w.owns.perm ((hp.append_left _).append_left _), w.sorted, w.valid, w.waits⟩

theorem lookup (w : Listed hash h waiting l g f) (hc : (a, o) ∈ f) : h.lookup a = some o :=
  w.owns.lookup (by simp [hc])

omit [DecidableEq A] in
theorem sorted_insert (hs : (pre ++ x :: post).Pairwise fun z u => z.key hash < u.key hash)
    (hxy : x.key hash < y.key hash) (hpost : ∀ z ∈ post.head?, y.key hash < z.key hash) :
    (pre ++ x :: y :: post).Pairwise fun z u => z.key hash < u.key hash := by
  rw [List.pairwise_append, List.pairwise_cons] at hs
  obtain ⟨hpre, ⟨hx, hrest⟩, hcross⟩ := hs
  have hyz : ∀ z ∈ post, y.key hash < z.key hash := by
    cases post with
    | nil => simp
    | cons z₀ post =>
      intro z hz
      rcases List.mem_cons.mp hz with rfl | hz
      · exact hpost z rfl
      · exact (hpost z₀ rfl).trans ((List.pairwise_cons.mp hrest).1 z hz)
  rw [List.pairwise_append, List.pairwise_cons, List.pairwise_cons]
  refine ⟨hpre, ⟨?_, hyz, hrest⟩, ?_⟩
  · intro z hz
    rcases List.mem_cons.mp hz with rfl | hz
    · exact hxy
    · exact hx z hz
  · intro z hz u hu
    simp only [List.mem_cons] at hu
    rcases hu with rfl | rfl | hu
    · exact hcross z hz u (by simp)
    · exact (hcross z hz x (by simp)).trans hxy
    · exact hcross z hz u (by simp [hu])

theorem link_owns {p : Link A} (w : Listed hash h waiting (pre ++ x :: post) g (y.cells hash p ++ f)) :
    Owns (setNode (setNode h y.addr (y.node hash (headLink post))) x.addr (x.node hash y.ref))
      (listCells hash (pre ++ x :: y :: post) .null ++ (g.flatMap (Garbage.cells hash) ++ f)) := by
  have howns := w.owns
  rw [listCells_split] at howns
  have h₁ : Owns h ((listCells hash pre x.ref ++ (x.cells hash (headLink post) ++
      (listCells hash post .null ++ g.flatMap (Garbage.cells hash)))) ++
      (y.addr, .node (y.node hash p)) :: (y.valueCells ++ f)) := by
    simpa [Entry.cells] using howns
  have h₂ := h₁.write_mid (.node (y.node hash (headLink post)))
  have h₃ : Owns (setNode h y.addr (y.node hash (headLink post))) (listCells hash pre x.ref ++
      (x.addr, .node (x.node hash (headLink post))) :: (x.valueCells ++ (listCells hash post .null ++
        (g.flatMap (Garbage.cells hash) ++ (y.cells hash (headLink post) ++ f))))) := by
    simpa [Entry.cells, setNode] using h₂
  have h₄ := h₃.write_mid (.node (x.node hash y.ref))
  rw [listCells_split, List.append_assoc, List.append_assoc]
  apply h₄.perm
  apply List.Perm.append_left
  apply List.Perm.cons
  apply List.Perm.append_left
  rw [listCells_cons, List.append_assoc]
  exact perm_third ..

theorem link {p : Link A} (w : Listed hash h waiting (pre ++ x :: post) g (y.cells hash p ++ f)) (hy : y.Valid)
    (hxy : x.key hash < y.key hash) (hpost : ∀ z ∈ post.head?, y.key hash < z.key hash) :
    Listed hash (setNode (setNode h y.addr (y.node hash (headLink post))) x.addr (x.node hash y.ref)) waiting
      (pre ++ x :: y :: post) g f := by
  refine ⟨w.link_owns, sorted_insert w.sorted hxy hpost, ?_, w.waits⟩
  intro z hz
  simp only [List.mem_append, List.mem_cons] at hz
  rcases hz with hz | rfl | rfl | hz
  · exact w.valid z (by simp [hz])
  · exact w.valid z (by simp)
  · exact hy
  · exact w.valid z (by simp [hz])

omit [DecidableEq A] in
theorem sorted_replace {x' : Entry A K V}
    (hs : (pre ++ x :: post).Pairwise fun y z => y.key hash < z.key hash)
    (hx : x'.key hash = x.key hash) : (pre ++ x' :: post).Pairwise fun y z => y.key hash < z.key hash := by
  have hkeys := List.pairwise_map.mpr hs
  apply List.pairwise_map.mp
  simpa [hx] using hkeys

theorem sorted_erase (w : Listed hash h waiting (pre ++ x :: y :: post) g f) :
    (pre ++ x :: post).Pairwise (fun z u => z.key hash < u.key hash) ∧ ∀ z ∈ pre ++ x :: post, z.Valid :=
  ⟨w.sorted.sublist (sublist_second ..), fun z hz => w.valid z ((sublist_second ..).subset hz)⟩

theorem mark (w : Listed hash h waiting (pre ++ x :: y :: post) g f) (p : Link A) :
    Owns (setNode h y.addr (y.node hash p)) (listCells hash pre x.ref ++
      (x.addr, .node (x.node hash y.ref)) :: (x.valueCells ++ (y.cells hash p ++
        (listCells hash post .null ++ (g.flatMap (Garbage.cells hash) ++ f))))) := by
  have howns := w.owns
  rw [listCells_split, headLink_cons, listCells_cons] at howns
  have h₁ : Owns h ((listCells hash pre x.ref ++ x.cells hash y.ref) ++
      (y.addr, .node (y.node hash (headLink post))) :: (y.valueCells ++ (listCells hash post .null ++
        (g.flatMap (Garbage.cells hash) ++ f)))) := by
    simpa [Entry.cells] using howns
  have h₂ := h₁.write_mid (.node (y.node hash p))
  simpa [Entry.cells, setNode] using h₂

theorem unlink (w : Listed hash h waiting (pre ++ x :: y :: post) g f) (p : Link A) :
    Owns (setNode (setNode h y.addr (y.node hash p)) x.addr (x.node hash (headLink post)))
      (listCells hash (pre ++ x :: post) .null ++ (y.cells hash p ++ (g.flatMap (Garbage.cells hash) ++ f))) := by
  have howns := (w.mark p).write_mid (.node (x.node hash (headLink post)))
  rw [listCells_split, List.append_assoc, List.append_assoc]
  apply howns.perm
  apply List.Perm.append_left
  apply List.Perm.cons
  apply List.Perm.append_left
  exact List.perm_append_comm_assoc ..

theorem revalue {k : K} {va va' : A} {v v' : V}
    (w : Listed hash h waiting (pre ++ .item a k va v :: post) g ((va', .value v') :: f)) :
    Owns (setNode h a ((Entry.item a k va' v').node hash (headLink post)))
      (listCells hash (pre ++ .item a k va' v' :: post) .null ++
        ((va, .value v) :: (g.flatMap (Garbage.cells hash) ++ f))) := by
  have howns := w.owns
  rw [listCells_split] at howns
  have h₁ : Owns h (listCells hash pre (.ref a) ++
      (a, .node ((Entry.item a k va v).node hash (headLink post))) :: ((va, .value v) ::
        (listCells hash post .null ++ (g.flatMap (Garbage.cells hash) ++ ((va', .value v') :: f))))) := by
    simpa [Entry.cells, Entry.valueCells, Entry.addr, Entry.ref] using howns
  have h₂ := h₁.write_mid (.node ((Entry.item a k va' v').node hash (headLink post)))
  rw [listCells_split, List.append_assoc]
  apply h₂.perm
  apply List.Perm.append_left
  apply List.Perm.cons
  -- the two value cells change places
  have hfront := perm_third (listCells hash post .null) (g.flatMap (Garbage.cells hash)) [(va', .value v')] f
  have hback := List.perm_append_comm_assoc [(va, (.value v : Obj A K V))] (listCells hash post .null)
    (g.flatMap (Garbage.cells hash) ++ f)
  exact ((hfront.cons (va, .value v)).trans (List.Perm.swap ..)).trans (hback.cons (va', .value v'))

end Listed

omit [LinearOrder K] in
theorem not_waiting {γ : Garbage A K V} {cs : List (A × Obj A K V)}
    (howns : Owns h (cs ++ (γ.cells hash ++ (g.flatMap (Garbage.cells hash) ++ f)))) :
    γ.waiting.1 ∉ (g.map Garbage.waiting).map Prod.fst := by
  have hhead : ∀ γ : Garbage A K V, γ.waiting.1 ∈ (γ.cells hash).map Prod.fst := by
    intro γ
    cases γ with
    | value a v => exact List.mem_singleton.mpr rfl
    | entry x p => exact List.mem_cons_self
  intro hmem
  rw [List.map_map] at hmem
  obtain ⟨γ', hγ', heq⟩ := List.mem_map.mp hmem
  have hapart := howns.right.apart
  rw [List.map_append] at hapart
  apply List.disjoint_of_nodup_append hapart (hhead γ)
  rw [← heq, List.map_append, List.mem_append]
  left
  obtain ⟨c, hc, hfst⟩ := List.mem_map.mp (hhead γ')
  exact List.mem_map.mpr ⟨c, List.mem_flatMap.mpr ⟨γ', hγ', hc⟩, hfst⟩

theorem Listed.retire {γ : Garbage A K V} {r : Reclaimer A DeleteFunc}
    (howns : Owns h (listCells hash l .null ++ (γ.cells hash ++ (g.flatMap (Garbage.cells hash) ++ f))))
    (hsorted : l.Pairwise fun x y => x.key hash < y.key hash) (hvalid : ∀ x ∈ l, x.Valid)
    (hwaits : r.reclaimMap = g.map Garbage.waiting) :
    Listed hash h (r.reclaimLater γ.waiting.1 γ.waiting.2).reclaimMap l (g ++ [γ]) f := by
  refine ⟨?_, hsorted, hvalid, ?_⟩
  · apply howns.perm
    apply List.Perm.append_left
    rw [List.flatMap_append, List.append_assoc]
    simpa using List.perm_append_comm_assoc (γ.cells hash) (g.flatMap (Garbage.cells hash)) f
  · have hnot := not_waiting howns
    rw [← hwaits] at hnot
    rw [Reclaimer.reclaimLater, if_neg hnot, hwaits, List.map_append]
    rfl

omit [LinearOrder K] in
theorem runDelete_ok {γ : Garbage A K V} {cs rest : List (A × Obj A K V)}
    (howns : Owns h (cs ++ (γ.cells hash ++ rest))) :
    ∃ h', runDelete h γ.waiting = .ok h' ∧ Owns h' (cs ++ rest) := by
  cases γ with
  | value a v =>
    have hv : valueAt h a = .ok v := by
      rw [valueAt, howns.lookup (o := .value v) (by simp [Garbage.cells])]
    refine ⟨h.erase a, ?_, howns.free_mid⟩
    simp [runDelete, Garbage.waiting, deleteValue, hv]
  | entry x p =>
    have hn : nodeAt h x.addr = .ok (x.node hash p) :=
      nodeAt_of_lookup (howns.lookup (by simp [Garbage.cells, Entry.cells]))
    cases x with
    | bucket a b =>
      refine ⟨h.erase a, ?_, howns.free_mid⟩
      simp only [Entry.addr] at hn
      simp [runDelete, Garbage.waiting, Entry.addr, onDeleteNode, hn, Entry.node, dummyNode]
    | item a k va v =>
      have hv : valueAt h va = .ok v := by
        rw [valueAt, howns.lookup (o := .value v) (by simp [Garbage.cells, Entry.cells, Entry.valueCells])]
      have h₁ : Owns h ((cs ++ [(a, .node ((Entry.item a k va v).node hash p))]) ++
          (va, .value v) :: rest) := by
        simpa [Garbage.cells, Entry.cells, Entry.valueCells, Entry.addr] using howns
      have h₂ := h₁.free_mid
      rw [List.append_assoc] at h₂
      refine ⟨(h.erase va).erase a, ?_, h₂.free_mid⟩
      simp only [Entry.addr] at hn
      simp [runDelete, Garbage.waiting, Entry.addr, onDeleteNode, hn, Entry.node, regularNode, deleteValue, hv]

omit [LinearOrder K] in
theorem runDeletes_ok {dead : List (Garbage A K V)} {cs rest : List (A × Obj A K V)}
    (howns : Owns h (cs ++ (dead.flatMap (Garbage.cells hash) ++ rest))) :
    ∃ h', (dead.map Garbage.waiting).foldlM runDelete h = .ok h' ∧ Owns h' (cs ++ rest) := by
  induction dead generalizing h with
  | nil => exact ⟨h, rfl, howns⟩
  | cons γ dead ih =>
    rw [List.flatMap_cons, List.append_assoc] at howns
    obtain ⟨h₁, hrun, howns₁⟩ := runDelete_ok howns
    obtain ⟨h₂, hruns, howns₂⟩ := ih howns₁
    exact ⟨h₂, by rw [List.map_cons, List.foldlM_cons, hrun, ok_bind, hruns], howns₂⟩

theorem Table.reclaimNoHazardPointer_ok {t : Table A K V}
    (w : Listed hash t.heap t.reclaimer.reclaimMap l g f) :
    ∃ h r g', t.reclaimNoHazardPointer = .ok { t with heap := h, reclaimer := r } ∧
      Listed hash h r.reclaimMap l g' f ∧ r.slots = t.reclaimer.slots := by
  rw [Table.reclaimNoHazardPointer]
  by_cases hfew : t.reclaimer.reclaimMap.length < Reclaimer.kCoefficient * t.reclaimer.globalSize
  · refine ⟨t.heap, t.reclaimer, g, ?_, w, rfl⟩
    simp [Reclaimer.reclaimNoHazardPointer, hfew]
  · let keep : Garbage A K V → Bool := fun γ => γ.waiting.1 ∈ t.reclaimer.hazards
    have hdead : t.reclaimer.reclaimNoHazardPointer.1 = (g.filter fun γ => !keep γ).map Garbage.waiting := by
      rw [Reclaimer.reclaimNoHazardPointer, if_neg hfew]
      simp only [w.waits, List.filter_map]
      congr 1
      apply List.filter_congr
      intro γ _
      simp [keep]
    have hlive : t.reclaimer.reclaimNoHazardPointer.2.reclaimMap = (g.filter keep).map Garbage.waiting := by
      rw [Reclaimer.reclaimNoHazardPointer, if_neg hfew]
      simp only [w.waits, List.filter_map]
      rfl
    have hperm : (g.flatMap (Garbage.cells hash)).Perm
        ((g.filter fun γ => !keep γ).flatMap (Garbage.cells hash) ++
          (g.filter keep).flatMap (Garbage.cells hash)) := by
      rw [← List.flatMap_append]
      apply List.Perm.flatMap_right
      exact (List.filter_append_perm keep g).symm.trans List.perm_append_comm
    have howns : Owns t.heap (listCells hash l .null ++
        ((g.filter fun γ => !keep γ).flatMap (Garbage.cells hash) ++
          ((g.filter keep).flatMap (Garbage.cells hash) ++ f))) := by
      apply w.owns.perm
      rw [← List.append_assoc ((g.filter fun γ => !keep γ).flatMap _)]
      exact (hperm.append_right f).append_left _
    obtain ⟨h', hrun, howns'⟩ := runDeletes_ok howns
    refine ⟨h', t.reclaimer.reclaimNoHazardPointer.2, g.filter keep, ?_,
      ⟨howns', w.sorted, w.valid, hlive⟩, Reclaimer.reclaimNoHazardPointer_slots _⟩
    rw [hdead, hrun]
    rfl

end MetadataService.CT
