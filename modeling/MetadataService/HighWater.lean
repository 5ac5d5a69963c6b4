import MetadataService.ChainSafety
import Mathlib.Algebra.BigOperators.Group.Finset.Piecewise
import Mathlib.Algebra.Order.BigOperators.Group.List
import Mathlib.Algebra.Ring.Nat
import Mathlib.Order.Lattice.Nat

namespace MetadataService.MemStore

open ByteMemory LinkedChain Loops

def validSlots (m : Memory) (xs : List UInt64) : ℕ :=
  (slots xs).countP fun p => (itemAt m p).valid != 0

theorem slots_length (xs : List UInt64) : (slots xs).length = 22 * xs.length := by
  induction xs with
  | nil => rfl
  | cons x xs ih =>
    have hx : (slotsOf x).length = 22 := by simp [slotsOf]
    rw [slots, List.flatMap_cons, List.length_append, hx, List.length_cons]
    change 22 + (slots xs).length = _
    rw [ih]
    ring

theorem validSlots_le (m : Memory) (xs : List UInt64) : validSlots m xs ≤ 22 * xs.length := by
  rw [← slots_length]
  exact List.countP_le_length

theorem validSlots_append {m : Memory} {xs : List UInt64} {x p : UInt64}
    (hfull : ∀ q ∈ slots xs, (itemAt m q).valid ≠ 0) (hp : p ∈ slots [x]) (hv : (itemAt m p).valid ≠ 0) :
    22 * xs.length < validSlots m (xs ++ [x]) := by
  have hsplit : slots (xs ++ [x]) = slots xs ++ slots [x] := List.flatMap_append
  have hall : (slots xs).countP (fun q => (itemAt m q).valid != 0) = (slots xs).length := by
    apply List.countP_eq_length.mpr
    intro q hq
    exact bne_iff_ne.mpr (hfull q hq)
  have hnew : 0 < (slots [x]).countP (fun q => (itemAt m q).valid != 0) :=
    List.countP_pos_iff.mpr ⟨p, hp, bne_iff_ne.mpr hv⟩
  rw [validSlots, hsplit, List.countP_append, hall, slots_length]
  omega

namespace MemoryNode

variable {n n' n₀ : MemoryNode} {C C' : UInt64 → List UInt64} {s : HashStore} {ns : List MemoryNode}
  {a : UInt64}

inductive Visits (n₀ : MemoryNode) : List MemoryNode → Prop
  | start : Visits n₀ [n₀]
  | step {n n' : MemoryNode} {ns : List MemoryNode} {op : Op} {r : Reply} (h : Visits n₀ (n :: ns))
      (hstep : n.Step op n' r) : Visits n₀ (n' :: n :: ns)

theorem Run.visits {ok : List (Op × Reply) → Op → Prop} {h : List (Op × Reply)} (hrun : Run ok n₀ h n) :
    ∃ ns, Visits n₀ (n :: ns) := by
  induction hrun with
  | start => exact ⟨[], .start⟩
  | step _ _ hstep ih =>
    obtain ⟨ns, hvisits⟩ := ih
    exact ⟨_, hvisits.step hstep⟩

def occupancy (ns : List MemoryNode) (a : UInt64) : Set ℕ :=
  {c | ∃ n ∈ ns, a ∈ n.roots ∧ ∃ xs, Chain (nextOf n.mem) 0 a xs ∧ c = validSlots n.mem xs}

theorem occupancy_cons {c : ℕ} (L : Layout n C) (h : c ∈ occupancy (n :: ns) a) :
    a ∈ n.roots ∧ c = validSlots n.mem (C a) ∨ c ∈ occupancy ns a := by
  obtain ⟨m, hm, ha, xs, hxs, hc⟩ := h
  rcases List.mem_cons.mp hm with rfl | hm
  · have hunique := (L.forest.chain a ha).unique hxs
    exact Or.inl ⟨ha, by rw [hunique, hc]⟩
  · exact Or.inr ⟨m, hm, ha, xs, hxs, hc⟩

theorem occupancy_now (L : Layout n C) (ha : a ∈ n.roots) :
    validSlots n.mem (C a) ∈ occupancy (n :: ns) a :=
  ⟨n, List.mem_cons_self, ha, C a, L.forest.chain a ha, rfl⟩

theorem occupancy_mono : occupancy ns a ⊆ occupancy (n :: ns) a := by
  rintro c ⟨m, hm, h⟩
  exact ⟨m, List.mem_cons_of_mem _ hm, h⟩

structure Water (ns : List MemoryNode) (n : MemoryNode) (C : UInt64 → List UInt64) : Prop where
  roots : ∀ m ∈ ns, m.roots ⊆ n.roots
  bound : ∀ a ∈ n.roots, ∀ c ∈ occupancy (n :: ns) a, c ≤ 22 * (C a).length
  reached : ∀ a ∈ n.roots, (C a).length = 1 ∨ ∃ c ∈ occupancy (n :: ns) a, 22 * ((C a).length - 1) < c

inductive ChainStep (n n' : MemoryNode) (C C' : UInt64 → List UInt64) (a : UInt64) : Prop
  | new (ha : a ∉ n.roots) (hC : (C' a).length = 1)
  | kept (ha : a ∈ n.roots) (hC : C' a = C a)
  | appended (ha : a ∈ n.roots) (hC : (C' a).length = (C a).length + 1)
      (hfull : 22 * (C a).length < validSlots n'.mem (C' a))

theorem Grows.chainStep (hG : Grows n n' C C') (L : Layout n C) (ha : a ∈ n'.roots) :
    ChainStep n n' C C' a := by
  cases hG with
  | @built s hB =>
    rw [hB.roots] at ha
    rcases ha with ha | ha
    · exact .kept ha (hB.kept a ha)
    · refine .new (hB.apart a ha) ?_
      rw [hB.head a ha, List.length_singleton]
  | kept hC ht =>
    have hroots : n'.roots = n.roots := by rw [MemoryNode.roots, MemoryNode.roots, ht]
    exact .kept (hroots ▸ ha) (hC ▸ rfl)
  | @appended i s key p x e hs hfull hC ht htop hS hnew hv =>
    have hroot := L.root_mem (table_mem hs) key
    rw [hS.shapes.roots_eq] at ha
    by_cases hab : a = s.bucket (s.getHash key)
    · subst hab
      have hC' : C' (s.bucket (s.getHash key)) = C (s.bucket (s.getHash key)) ++ [x] := by
        rw [hC, Function.update_self]
      have hslot := hS.slot
      rw [hC', slots, List.flatMap_append, List.mem_append] at hslot
      refine .appended ha (by rw [hC', List.length_append, List.length_singleton]) ?_
      rw [hC']
      apply validSlots_append (p := p)
      · intro q hq
        have hne : q ≠ p := fun h => hnew (h ▸ hq)
        rw [hS.kept _ hroot q hq hne]
        exact firstFree_none hfull hq
      · exact hslot.resolve_left hnew
      · rw [hS.item]
        exact hv
    · exact .kept ha (by rw [hC, Function.update_of_ne hab])

theorem Water.step (W : Water ns n C) (L' : Layout n' C') (hroots : n.roots ⊆ n'.roots)
    (hstep : ∀ a ∈ n'.roots, ChainStep n n' C C' a) : Water (n :: ns) n' C' := by
  refine ⟨?_, ?_, ?_⟩
  · intro m hm
    rcases List.mem_cons.mp hm with rfl | hm
    · exact hroots
    · exact (W.roots m hm).trans hroots
  · intro a ha c hc
    rcases occupancy_cons L' hc with ⟨-, rfl⟩ | hold
    · exact validSlots_le _ _
    · cases hstep a ha with
      | new hnot hC =>
        obtain ⟨m, hm, hma, -⟩ := hold
        rcases List.mem_cons.mp hm with rfl | hm
        · exact absurd hma hnot
        · exact absurd (W.roots m hm hma) hnot
      | kept hin hC =>
        rw [hC]
        exact W.bound a hin c hold
      | appended hin hC =>
        have hle := W.bound a hin c hold
        omega
  · intro a ha
    cases hstep a ha with
    | new hnot hC => exact Or.inl hC
    | kept hin hC =>
      rw [hC]
      refine (W.reached a hin).imp_right ?_
      rintro ⟨c, hc, hlt⟩
      exact ⟨c, occupancy_mono hc, hlt⟩
    | appended hin hC hfull =>
      refine Or.inr ⟨_, occupancy_now L' ha, ?_⟩
      rw [hC]
      exact hfull

def overflow (C : UInt64 → List UInt64) (s : HashStore) : ℕ :=
  ∑ b ∈ Finset.range s.bucketNum.toNat, ((C (s.bucket (UInt64.ofNat b))).length - 1)

structure Counted (n₀ n : MemoryNode) (C : UInt64 → List UInt64) : Prop where
  nodeNum : ∀ i s, n.table i = .ok s → s.nodeNum.toNat = overflow C s
  reserve : n.reserveTop = n₀.reserveTop + 15848 * (n.tables.map fun s => s.nodeNum.toNat).sum

theorem sum_map_set {α : Type} (f : α → ℕ) {xs : List α} {i : ℕ} {x : α} (h : xs[i]? = some x) (y : α) :
    ((xs.set i y).map f).sum + f x = (xs.map f).sum + f y := by
  induction xs generalizing i with
  | nil => cases h
  | cons z xs ih =>
    cases i with
    | zero =>
      obtain rfl := Option.some.inj h
      simp only [List.set_cons_zero, List.map_cons, List.sum_cons]
      omega
    | succ i =>
      have hrest := ih h
      simp only [List.set_cons_succ, List.map_cons, List.sum_cons]
      omega

theorem bucket_mem_roots {i : ℕ} (hs : n.table i = .ok s) {b : ℕ} (hb : b < s.bucketNum.toNat) :
    UInt64.ofNat b < s.bucketNum ∧ s.bucket (UInt64.ofNat b) ∈ n.roots := by
  have hnum := s.bucketNum.toNat_lt
  have hlt : UInt64.ofNat b < s.bucketNum := by
    rw [UInt64.lt_iff_toNat_lt, UInt64.toNat_ofNat', Nat.mod_eq_of_lt (by omega)]
    exact hb
  exact ⟨hlt, s, table_mem hs, _, hlt, rfl⟩

theorem overflow_congr
    (hC : ∀ b < s.bucketNum.toNat, C' (s.bucket (UInt64.ofNat b)) = C (s.bucket (UInt64.ofNat b))) :
    overflow C' s = overflow C s := by
  apply Finset.sum_congr rfl
  intro b hb
  rw [hC b (Finset.mem_range.mp hb)]

theorem overflow_update {h x : UInt64} (hlt : h < s.bucketNum) (hne : C (s.bucket h) ≠ [])
    (hinj : ∀ b < s.bucketNum.toNat, s.bucket (UInt64.ofNat b) = s.bucket h → b = h.toNat) :
    overflow (Function.update C (s.bucket h) (C (s.bucket h) ++ [x])) s = overflow C s + 1 := by
  have hterm : ∀ b ∈ Finset.range s.bucketNum.toNat,
      (Function.update C (s.bucket h) (C (s.bucket h) ++ [x]) (s.bucket (UInt64.ofNat b))).length - 1 =
      ((C (s.bucket (UInt64.ofNat b))).length - 1) + if h.toNat = b then 1 else 0 := by
    intro b hb
    by_cases hbb : h.toNat = b
    · subst hbb
      have hpos := List.length_pos_of_ne_nil hne
      rw [UInt64.ofNat_toNat, Function.update_self, List.length_append, List.length_singleton, if_pos rfl]
      omega
    · have hbucket : s.bucket (UInt64.ofNat b) ≠ s.bucket h :=
        fun heq => hbb (hinj b (Finset.mem_range.mp hb) heq).symm
      rw [Function.update_of_ne hbucket, if_neg hbb, Nat.add_zero]
  rw [overflow, Finset.sum_congr rfl hterm, Finset.sum_add_distrib, Finset.sum_ite_eq,
    if_pos (Finset.mem_range.mpr (UInt64.lt_iff_toNat_lt.mp hlt))]
  rfl

theorem table_congr (ht : n'.tables = n.tables) (i : ℕ) : n'.table i = n.table i := by
  rw [table, table, ht]

theorem Counted.built (K : Counted n₀ n C) (hB : Built n n' C C' s) (hnum : s.nodeNum = 0)
    (hr : n'.reserve = n.reserve) : Counted n₀ n' C' := by
  constructor
  · intro i t ht
    have hget := table_ok.mp ht
    rw [hB.tables] at hget
    rcases Nat.lt_or_ge i n.tables.length with hi | hi
    · rw [List.getElem?_append_left hi] at hget
      have hold := table_ok.mpr hget
      rw [overflow_congr (C := C), K.nodeNum i t hold]
      intro b hb
      exact hB.kept _ (bucket_mem_roots hold hb).2
    · rw [List.getElem?_append_right hi] at hget
      obtain rfl := List.mem_singleton.mp (List.mem_of_getElem? hget)
      rw [hnum, overflow, Finset.sum_eq_zero]
      · rfl
      · intro b hb
        have hhead : t.bucket (UInt64.ofNat b) ∈ t.heads :=
          ⟨_, (bucket_mem_roots ht (Finset.mem_range.mp hb)).1, rfl⟩
        rw [hB.head _ hhead]
        rfl
  · have htop : n'.reserveTop = n.reserveTop := by rw [reserveTop, reserveTop, hr]
    rw [htop, K.reserve, hB.tables, List.map_append, List.sum_append, List.map_singleton, hnum]
    rfl

theorem Counted.appended (K : Counted n₀ n C) (L : Layout n C) (L' : Layout n' C') {i : ℕ}
    {key x : UInt64} (hs : n.table i = .ok s)
    (hC : C' = Function.update C (s.bucket (s.getHash key)) (C (s.bucket (s.getHash key)) ++ [x]))
    (ht : n'.tables = n.tables.set i { s with nodeNum := s.nodeNum + 1 })
    (htop : n'.reserveTop = n.reserveTop + 15848) : Counted n₀ n' C' := by
  have hlt := HashStore.getHash_lt (L.area s (table_mem hs)).pos key
  have hlen := (List.getElem?_eq_some_iff.mp (table_ok.mp hs)).1
  have hset := sum_map_set (fun s : HashStore => s.nodeNum.toNat) (table_ok.mp hs)
    { s with nodeNum := s.nodeNum + 1 }
  -- The node counts cannot wrap: every node takes its bytes from the reserve area.
  have hle : s.nodeNum.toNat ≤ (n.tables.map fun s => s.nodeNum.toNat).sum :=
    List.le_sum_of_mem (List.mem_map_of_mem (table_mem hs))
  have hsucc : (s.nodeNum + 1).toNat = s.nodeNum.toNat + 1 := by
    have hres := K.reserve
    have hw := L'.noWrap
    rw [UInt64.toNat_add, UInt64.toNat_one, Nat.mod_eq_of_lt (by omega)]
  constructor
  · intro j t htj
    have hget := table_ok.mp htj
    rw [ht, List.getElem?_set] at hget
    split_ifs at hget with hij
    · obtain rfl := Option.some.inj hget
      have hinj : ∀ b < s.bucketNum.toNat, s.bucket (UInt64.ofNat b) = s.bucket (s.getHash key) →
          b = (s.getHash key).toNat := by
        intro b hb heq
        obtain ⟨hb', -⟩ := bucket_mem_roots hs hb
        have hnum := s.bucketNum.toNat_lt
        rw [← (L.bucket_index hs hs hb' hlt heq).2, UInt64.toNat_ofNat', Nat.mod_eq_of_lt (by omega)]
      have hover := overflow_update (x := x) hlt (L.chain_ne_nil (L.root_mem (table_mem hs) key)) hinj
      rw [← hC] at hover
      change (s.nodeNum + 1).toNat = overflow C' s
      rw [hsucc, K.nodeNum i s hs, hover]
    · have hold := table_ok.mpr hget
      rw [overflow_congr (C := C), K.nodeNum j t hold]
      intro b hb
      obtain ⟨hb', -⟩ := bucket_mem_roots hold hb
      have hother : t.bucket (UInt64.ofNat b) ≠ s.bucket (s.getHash key) :=
        fun h => hij (L.bucket_index hold hs hb' hlt h).1.symm
      rw [hC, Function.update_of_ne hother]
  · rw [hsucc] at hset
    rw [htop, K.reserve, ht]
    omega

theorem Counted.step (K : Counted n₀ n C) (L : Layout n C) (L' : Layout n' C') (hG : Grows n n' C C') :
    Counted n₀ n' C' := by
  cases hG with
  | built hB hnum hr => exact K.built hB hnum hr
  | kept hC ht hr =>
    constructor
    · intro i s hs
      rw [hC]
      exact K.nodeNum i s (table_congr ht i ▸ hs)
    · have htop : n'.reserveTop = n.reserveTop := by rw [reserveTop, reserveTop, hr]
      rw [htop, ht]
      exact K.reserve
  | appended hs _ hC ht htop => exact K.appended L L' hs hC ht htop

theorem Grows.roots_subset (hG : Grows n n' C C') : n.roots ⊆ n'.roots := by
  cases hG with
  | built hB =>
    rw [hB.roots]
    exact Set.subset_union_left
  | kept _ ht =>
    rw [MemoryNode.roots, MemoryNode.roots, ht]
  | appended _ _ _ _ _ hS =>
    rw [hS.shapes.roots_eq]

theorem Visits.water (hf : Fresh n₀) (h : Visits n₀ (n :: ns)) :
    ∃ C, Layout n C ∧ Water ns n C ∧ Counted n₀ n C := by
  generalize hv : n :: ns = visited at h
  induction h generalizing n ns with
  | start =>
    obtain ⟨rfl, rfl⟩ := List.cons.inj hv
    have hroots : ∀ a, a ∉ n.roots := by
      rintro a ⟨s, hs, -⟩
      rw [hf.tables] at hs
      cases hs
    refine ⟨_, hf.layout, ⟨by simp, fun a ha => absurd ha (hroots a), fun a ha => absurd ha (hroots a)⟩, ?_, ?_⟩
    · intro i s hs
      rw [table_ok, hf.tables] at hs
      cases hs
    · rw [hf.tables]
      rfl
  | step _ hstep ih =>
    obtain ⟨rfl, rfl⟩ := List.cons.inj hv
    obtain ⟨C, L, W, K⟩ := ih rfl
    obtain ⟨C', L', -, hG⟩ := L.step_grows hstep
    refine ⟨C', L', W.step L' hG.roots_subset fun a ha => hG.chainStep L ha, K.step L L' hG⟩

structure HighWater (n₀ n : MemoryNode) (visited : List MemoryNode) (C : UInt64 → List UInt64) : Prop where
  chain : ∀ s ∈ n.tables, ∀ b < s.bucketNum, Chain (nextOf n.mem) 0 (s.bucket b) (C (s.bucket b))
  peak : ∀ s ∈ n.tables, ∀ b < s.bucketNum, ∃ P, IsGreatest (occupancy visited (s.bucket b)) P ∧
    (C (s.bucket b)).length = max 1 ((P + 21) / 22)
  nodeNum : ∀ s ∈ n.tables, s.nodeNum.toNat = overflow C s
  reserve : n.reserveTop = n₀.reserveTop + 15848 * (n.tables.map (overflow C)).sum

theorem Water.peak (W : Water ns n C) (L : Layout n C) (ha : a ∈ n.roots) :
    ∃ P, IsGreatest (occupancy (n :: ns) a) P ∧ (C a).length = max 1 ((P + 21) / 22) := by
  have hbdd : BddAbove (occupancy (n :: ns) a) := ⟨_, W.bound a ha⟩
  have hmem := Nat.sSup_mem ⟨_, occupancy_now L ha⟩ hbdd
  refine ⟨_, ⟨hmem, fun c hc => le_csSup hbdd hc⟩, ?_⟩
  have hpos := List.length_pos_of_ne_nil (L.chain_ne_nil ha)
  have hle := W.bound a ha _ hmem
  rcases W.reached a ha with hone | ⟨c, hc, hlt⟩
  · omega
  · have hpeak := le_csSup hbdd hc
    omega

theorem visits_highWater (hf : Fresh n₀) (h : Visits n₀ (n :: ns)) : ∃ C, HighWater n₀ n (n :: ns) C := by
  obtain ⟨C, L, W, K⟩ := h.water hf
  have hnum : ∀ s ∈ n.tables, s.nodeNum.toNat = overflow C s := by
    intro s hs
    obtain ⟨i, hi⟩ := List.mem_iff_getElem?.mp hs
    exact K.nodeNum i s (table_ok.mpr hi)
  refine ⟨C, ?_, ?_, hnum, ?_⟩
  · intro s hs b hb
    exact L.forest.chain _ ⟨s, hs, b, hb, rfl⟩
  · intro s hs b hb
    exact W.peak L ⟨s, hs, b, hb, rfl⟩
  · rw [K.reserve, List.map_congr_left hnum]

theorem visits_highWater_reuse :
    ∃ n ns C, Visits smallNode (n :: ns) ∧ n.reserveTop = 81384 ∧ HighWater smallNode n (n :: ns) C := by
  obtain ⟨h, n, hrun, hn⟩ := replay_any AnyCall 3 smallNode
    (.build 1 1 :: (List.range 23).map (fun i => .insert 0 (UInt64.ofNat i) (smallItem 1 (UInt64.ofNat i))) ++
      [.delete 0 4, .put 0 30 (smallItem 1 30)])
    (fun _ n => n.reserveTop == 81384) (by decide +kernel)
  obtain ⟨ns, hvisits⟩ := hrun.visits
  obtain ⟨C, hC⟩ := visits_highWater smallNode_fresh hvisits
  exact ⟨n, ns, C, hvisits, beq_iff_eq.mp hn, hC⟩

end MemoryNode

end MetadataService.MemStore
