import MetadataService.SplitChanges

namespace MetadataService.CT

open HeapCells

variable {A K V : Type} [LinearOrder K] [DecidableEq A] {hash : K → UInt64}
  {l pre post : List (Entry A K V)} {g : List (Garbage A K V)} {f : List (A × Obj A K V)}
  {x y : Entry A K V}

abbrev Table.Holds (t : Table A K V) (hash : K → UInt64) (l : List (Entry A K V)) (g : List (Garbage A K V))
    (f : List (A × Obj A K V)) : Prop :=
  Listed hash t.heap t.reclaimer.reclaimMap l g f

structure SameCounts (t t' : Table A K V) : Prop where
  powerOf2 : t'.powerOf2 = t.powerOf2
  size : t'.size = t.size
  segments : t'.segments = t.segments

omit [LinearOrder K] [DecidableEq A] in
theorem SameCounts.trans {t t' t'' : Table A K V} (h : SameCounts t t') (h' : SameCounts t' t'') :
    SameCounts t t'' :=
  ⟨h'.powerOf2.trans h.powerOf2, h'.size.trans h.size, h'.segments.trans h.segments⟩

omit [LinearOrder K] [DecidableEq A] in
theorem SameList.counts {t t' : Table A K V} (h : SameList t t') : SameCounts t t' := by
  obtain ⟨r, rfl, -⟩ := h
  exact ⟨rfl, rfl, rfl⟩

theorem SameList.holds {t t' : Table A K V} (h : SameList t t') (w : t.Holds hash l g f) :
    t'.Holds hash l g f := by
  obtain ⟨r, rfl, hr⟩ := h
  rw [Table.Holds, hr]
  exact w

namespace Table

variable {t : Table A K V} {prevHp curHp : HazardPointer}

theorem linkNode_ok {p : Link A} (w : t.Holds hash (pre ++ x :: post) g (y.cells hash p ++ f)) (hy : y.Valid)
    (hx : x.key hash < y.key hash) (hprev : HandleOk t.reclaimer prevHp) (hcur : HandleOk t.reclaimer curHp)
    {fuel n : ℕ} (hfuel : post.length < fuel) :
    ∃ c found pre' z post', pre ++ x :: post = pre' ++ z :: post' ∧
      linkNode fuel x.addr y.addr (n + 1) t prevHp curHp = .ok (c, found) ∧
      HandleOk c.table.reclaimer c.prevHp ∧ HandleOk c.table.reclaimer c.curHp ∧
      ((found = true ∧ SameList t c.table ∧
          ∃ u post'', post' = u :: post'' ∧ u.key hash = y.key hash ∧ c.cur = some u.addr) ∨
        (found = false ∧ SameCounts t c.table ∧ c.table.Holds hash (pre' ++ z :: y :: post') g f)) := by
  have hsearch : nodeAt t.heap y.addr = .ok (y.node hash p) :=
    nodeAt_of_lookup (w.lookup (by simp [Entry.cells]))
  have hkey : (y.node hash p).key = y.key hash := y.node_key p
  obtain ⟨c, found, pre', z, post', hsplit, hrun, hend⟩ :=
    searchNode_ends w (Entry.node_parity hash hy p) (hkey ▸ hx) hprev hcur hfuel
  rw [hkey] at hend
  have w' := w
  rw [hsplit] at w'
  cases found with
  | true =>
    obtain ⟨u, post'', rfl, hu⟩ := hend.hit rfl
    refine ⟨c, true, pre', z, u :: post'', hsplit, ?_, hend.here.prevHp, hend.here.curHp,
      Or.inl ⟨rfl, hend.here.same, u, post'', rfl, hu, (congrArg Link.ptr hend.here.cur).symm⟩⟩
    simp [linkNode, hsearch, hrun]
  | false =>
    obtain ⟨table, prev, cur, prevHp', curHp'⟩ := c
    obtain ⟨⟨r, htable, hr⟩, hprev', hcur', hprevHp, hcurHp⟩ := hend.here
    simp only at htable hprev' hcur' hprevHp hcurHp
    subst htable hprev'
    -- the new node is pointed at `cur`; the node before it still points there
    let h₁ := setNode t.heap y.addr (y.node hash (headLink post'))
    have w₁ : Listed hash h₁ t.reclaimer.reclaimMap (pre' ++ z :: post') g
        (y.cells hash (headLink post') ++ f) :=
      w'.write (.node (y.node hash (headLink post')))
    have hz : nodeAt h₁ z.addr = .ok (z.node hash (headLink post')) := w₁.nodeAt
    let u : Table A K V := { t with heap := setNode h₁ z.addr (z.node hash y.ref), reclaimer := r }
    refine ⟨⟨u, z.addr, cur, prevHp', curHp'⟩, false, pre', z, post', hsplit, ?_, hprevHp, hcurHp,
      Or.inr ⟨rfl, ⟨rfl, rfl, rfl⟩, ?_⟩⟩
    · simp [linkNode, hsearch, hrun, Entry.node_with_next, ← hcur', Cursor.exchangeNext, hz, h₁, u,
        Entry.ref]
    · rw [Holds, hr]
      exact w'.link hy hend.below (hend.miss rfl)

structure Inv (t : Table A K V) (hash : K → UInt64) (l : List (Entry A K V)) (g : List (Garbage A K V))
    (f : List (A × Obj A K V)) : Prop where
  holds : t.Holds hash l g f
  buckets : ∀ (b : UInt64) (a : A), b.toNat < kMaxBucketSize → t.getBucketHeadByIndex b = some a →
    .bucket a b ∈ l
  root : ∃ a, t.getBucketHeadByIndex 0 = some a

theorem digits_ne {b b' : UInt64} (hb : b.toNat < kMaxBucketSize) (hb' : b'.toNat < kMaxBucketSize)
    (h : b ≠ b') : ∃ i < 4, digits b i ≠ digits b' i := by
  by_contra hall
  push Not at hall
  apply h
  apply UInt64.toNat_inj.mp
  have h₀ := congrArg Fin.val (hall 0 (by decide))
  have h₁ := congrArg Fin.val (hall 1 (by decide))
  have h₂ := congrArg Fin.val (hall 2 (by decide))
  have h₃ := congrArg Fin.val (hall 3 (by decide))
  simp only [digits, kMaxBucketSize] at h₀ h₁ h₂ h₃ hb hb'
  omega

theorem Inv.alloc (i : t.Inv hash l g f) (d : ℕ → Fin 64) :
    Inv { t with segments := t.segments.alloc 4 d } hash l g f := by
  have hget : ∀ b, getBucketHeadByIndex { t with segments := t.segments.alloc 4 d } b =
      t.getBucketHeadByIndex b := fun b => RadixTree.get_alloc 4 t.segments d (digits b)
  refine ⟨i.holds, ?_, ?_⟩
  · intro b a hb ha
    exact i.buckets b a hb (hget b ▸ ha)
  · obtain ⟨a, ha⟩ := i.root
    exact ⟨a, (hget 0).trans ha⟩

theorem Inv.congr {t' : Table A K V} {l' : List (Entry A K V)} {g' : List (Garbage A K V)}
    {f' : List (A × Obj A K V)} (i : t.Inv hash l g f) (w : t'.Holds hash l' g' f')
    (hseg : t'.segments = t.segments) (hkeep : ∀ a b, Entry.bucket a b ∈ l → Entry.bucket a b ∈ l') :
    t'.Inv hash l' g' f' := by
  have hget : ∀ b, t'.getBucketHeadByIndex b = t.getBucketHeadByIndex b := by
    intro b
    rw [getBucketHeadByIndex, hseg]
    rfl
  refine ⟨w, ?_, ?_⟩
  · intro b a hb ha
    exact hkeep a b (i.buckets b a hb (hget b ▸ ha))
  · obtain ⟨a, ha⟩ := i.root
    exact ⟨a, (hget 0).trans ha⟩

theorem Inv.store {b : UInt64} {a : A} (i : t.Inv hash l g f) (hb : b.toNat < kMaxBucketSize)
    (hmem : .bucket a b ∈ l) (halloc : ∃ s, t.segments = RadixTree.alloc 4 s (digits b)) :
    Inv { t with segments := t.segments.set 4 (digits b) a } hash l g f := by
  have hself : getBucketHeadByIndex { t with segments := t.segments.set 4 (digits b) a } b = some a := by
    obtain ⟨s, hs⟩ := halloc
    rw [getBucketHeadByIndex, hs]
    exact RadixTree.get_set_alloc 4 s (digits b) a
  have hother : ∀ b', b'.toNat < kMaxBucketSize → b' ≠ b →
      getBucketHeadByIndex { t with segments := t.segments.set 4 (digits b) a } b' =
        t.getBucketHeadByIndex b' := by
    intro b' hb' hne
    exact RadixTree.get_set_ne 4 t.segments (digits_ne hb' hb hne) a
  refine ⟨i.holds, ?_, ?_⟩
  · intro b' a' hb' ha'
    by_cases hne : b' = b
    · subst hne
      rw [hself, Option.some.injEq] at ha'
      exact ha' ▸ hmem
    · rw [hother b' hb' hne] at ha'
      exact i.buckets b' a' hb' ha'
  · by_cases h0 : b = 0
    · exact ⟨a, h0 ▸ hself⟩
    · obtain ⟨a', ha'⟩ := i.root
      exact ⟨a', (hother 0 (by decide) (Ne.symm h0)).trans ha'⟩

variable (alloc : Allocator A)

structure MoreBuckets (l l' : List (Entry A K V)) (n : ℕ) : Prop where
  items : l'.filter Entry.isItem = l.filter Entry.isItem
  length : l'.length ≤ l.length + n

omit [LinearOrder K] [DecidableEq A] in
theorem moreBuckets_refl (l : List (Entry A K V)) (n : ℕ) : MoreBuckets l l n :=
  ⟨rfl, Nat.le_add_right ..⟩

theorem insertDummyNode_ok {a pa : A} {p b : UInt64}
    (i : t.Inv hash l g ((Entry.bucket a b).cells hash .null ++ f)) (hp : .bucket pa p ∈ l)
    (hb : b.toNat < 2 ^ 63) (hlt : dummyKey p < dummyKey b) {fuel : ℕ} (hfuel : l.length ≤ fuel) :
    ∃ t' real l', t.insertDummyNode fuel pa a = .ok (t', real) ∧ SameCounts t t' ∧ MoreBuckets l l' 1 ∧
      ((real = none ∧ t'.Inv hash l' g f ∧ .bucket a b ∈ l') ∨
        ∃ a', real = some a' ∧ .bucket a' b ∈ l' ∧
          t'.Inv hash l' g ((Entry.bucket a b).cells hash .null ++ f)) := by
  obtain ⟨pre, post, rfl⟩ := List.append_of_mem hp
  rw [List.length_append, List.length_cons] at hfuel
  obtain ⟨n, rfl⟩ : ∃ n, fuel = n + 1 := ⟨fuel - 1, by omega⟩
  have hx : (Entry.bucket pa p : Entry A K V).key hash < (Entry.bucket a b : Entry A K V).key hash :=
    Entry.key_bucket_lt hlt
  obtain ⟨c, found, pre', z, post', hsplit, hrun, hprev, hcur, hcase⟩ :=
    linkNode_ok (n := n) i.holds hb hx (handleOk_null _) (handleOk_null _) (by omega : post.length < n + 1)
  obtain ⟨t', hrelease, hsame⟩ := release_ok hprev hcur
  have hinsert : t.insertDummyNode (n + 1) pa a = .ok (t', if found then c.cur else none) := by
    rw [insertDummyNode]
    simp only [Entry.addr] at hrun
    simp [hrun, hrelease]
  obtain ⟨rfl, hsame', u, post'', rfl, hkey, hu⟩ | ⟨rfl, hcounts, w⟩ := hcase
  · have hmem : u ∈ pre ++ .bucket pa p :: post := by rw [hsplit]; simp
    have hbucket := Entry.eq_bucket_of_key (i.holds.valid u hmem) hb hkey
    refine ⟨t', some u.addr, _, ?_, (hsame'.trans hsame).counts, moreBuckets_refl _ 1,
      Or.inr ⟨u.addr, rfl, hbucket ▸ hmem, ?_⟩⟩
    · simpa [hu] using hinsert
    · exact i.congr ((hsame'.trans hsame).holds i.holds) (hsame'.trans hsame).counts.segments fun _ _ h => h
  · refine ⟨t', none, pre' ++ z :: .bucket a b :: post', hinsert, hcounts.trans hsame.counts, ?_,
      Or.inl ⟨rfl, ?_, by simp⟩⟩
    · rw [hsplit]
      constructor
      · simp [List.filter_append, List.filter_cons]
      · simp only [List.length_append, List.length_cons]
        omega
    · apply i.congr (hsame.holds w) (hcounts.trans hsame.counts).segments
      intro a' b' hmem
      rw [hsplit] at hmem
      exact (sublist_second ..).subset hmem

theorem makeBucket_ok {pa : A} {b : UInt64} (hb0 : b ≠ 0) (hb : b.toNat < kMaxBucketSize)
    (i : t.Inv hash l g f) (hp : .bucket pa (getBucketParent b) ∈ l) {fuel : ℕ} (hfuel : l.length ≤ fuel) :
    ∃ t' a l', makeBucket alloc fuel t b pa = .ok (t', a) ∧ t'.Inv hash l' g f ∧ .bucket a b ∈ l' ∧
      MoreBuckets l l' 1 ∧ t'.size = t.size ∧ t'.powerOf2 = t.powerOf2 := by
  let t₁ : Table A K V := { t with segments := t.segments.alloc 4 (digits b) }
  have i₁ : t₁.Inv hash l g f := i.alloc (digits b)
  have hb63 : b.toNat < 2 ^ 63 := Nat.lt_trans hb (by decide)
  cases hget : t₁.getBucketHeadByIndex b with
  | some a =>
    refine ⟨t₁, a, l, ?_, i₁, i₁.buckets b a hb hget, moreBuckets_refl l 1, rfl, rfl⟩
    rw [makeBucket]
    simp only [t₁] at hget
    rw [hget]
  | none =>
    let head := alloc.pick t.heap.keys
    let t₂ : Table A K V := { t₁ with heap := setNode t.heap head (dummyNode b) }
    have i₂ : t₂.Inv hash l g ((Entry.bucket head b).cells hash .null ++ f) :=
      i₁.congr (i₁.holds.alloc (alloc.fresh _) (.node (dummyNode b))) rfl fun _ _ h => h
    obtain ⟨t₃, real, l', hrun, hcounts, hmore, hcase⟩ :=
      insertDummyNode_ok i₂ hp hb63 (dummyKey_parent_lt hb0) hfuel
    simp only [t₁] at hget
    simp only [t₂, t₁, head] at hrun
    obtain ⟨rfl, i₃, hmem⟩ | ⟨a', rfl, hmem, i₃⟩ := hcase
    · refine ⟨{ t₃ with segments := t₃.segments.set 4 (digits b) head }, head, l', ?_, ?_, hmem, hmore,
        hcounts.size, hcounts.powerOf2⟩
      · rw [makeBucket]
        simp only [hget, hrun, ok_bind]
        rfl
      · exact i₃.store hb hmem ⟨t.segments, hcounts.segments⟩
    · have hhead : nodeAt t₃.heap head = .ok (dummyNode b) :=
        nodeAt_of_lookup (i₃.holds.lookup List.mem_cons_self)
      refine ⟨{ t₃ with heap := t₃.heap.erase head }, a', l', ?_, ?_, hmem, hmore, hcounts.size,
        hcounts.powerOf2⟩
      · have hdelete : onDeleteNode t₃.heap head = .ok (t₃.heap.erase head) := by
          simp [onDeleteNode, hhead, dummyNode]
        rw [makeBucket]
        simp only [hget, hrun, ok_bind]
        simp only [head] at hdelete
        rw [hdelete]
        rfl
      · exact i₃.congr i₃.holds.free rfl fun _ _ h => h

theorem initializeBucket_ok {b : UInt64} (hb0 : b ≠ 0) (hb : b.toNat < kMaxBucketSize) (i : t.Inv hash l g f)
    {fuel n : ℕ} (hn : b.toNat < n) (hfuel : l.length + b.toNat ≤ fuel) :
    ∃ t' a l', initializeBucket alloc fuel n t b = .ok (t', a) ∧ t'.Inv hash l' g f ∧ .bucket a b ∈ l' ∧
      MoreBuckets l l' b.toNat ∧ t'.size = t.size ∧ t'.powerOf2 = t.powerOf2 := by
  induction n generalizing b with
  | zero => exact absurd hn (Nat.not_lt_zero _)
  | succ n ih =>
    have hparent := getBucketParent_lt hb0
    cases hget : t.getBucketHeadByIndex (getBucketParent b) with
    | some pa =>
      have hpa := i.buckets _ pa (by omega) hget
      obtain ⟨t', a, l', hrun, i', hmem, hmore, hcounts⟩ :=
        makeBucket_ok alloc hb0 hb i hpa (by omega : l.length ≤ fuel)
      refine ⟨t', a, l', ?_, i', hmem, ⟨hmore.items, ?_⟩, hcounts⟩
      · rw [initializeBucket, if_neg hb0, hget]
        exact hrun
      · have hlen := hmore.length
        omega
    | none =>
      have hp0 : getBucketParent b ≠ 0 := by
        intro h0
        obtain ⟨a, ha⟩ := i.root
        rw [h0, ha] at hget
        cases hget
      obtain ⟨t₁, pa, l₁, hrun₁, i₁, hmem₁, hmore₁, hsize₁, hpower₁⟩ :=
        ih hp0 (by omega) (by omega) (by omega)
      have hlen₁ := hmore₁.length
      obtain ⟨t', a, l', hrun, i', hmem, hmore, hsize, hpower⟩ :=
        makeBucket_ok alloc hb0 hb i₁ hmem₁ (by omega : l₁.length ≤ fuel)
      refine ⟨t', a, l', ?_, i', hmem, ⟨hmore.items.trans hmore₁.items, ?_⟩, hsize.trans hsize₁,
        hpower.trans hpower₁⟩
      · rw [initializeBucket, if_neg hb0, hget]
        simp only [hrun₁, ok_bind]
        exact hrun
      · have hlen := hmore.length
        omega

theorem bucket_lt (h : UInt64) {n : ℕ} (hn : n ≤ 24) :
    (h &&& (UInt64.ofNat (2 ^ n) - 1)).toNat < kMaxBucketSize ∧
      (UInt64.ofNat (2 ^ n) - 1).toNat < 2 ^ 63 := by
  have hpow : 2 ^ n ≤ 2 ^ 24 := Nat.pow_le_pow_right (by decide) hn
  have hpos : 1 ≤ 2 ^ n := Nat.one_le_two_pow
  rw [UInt64.toNat_and, mask_toNat (by omega : n < 64)]
  have hle : h.toNat &&& (2 ^ n - 1) ≤ 2 ^ n - 1 := Nat.and_le_right
  simp only [kMaxBucketSize]
  omega

theorem getBucketHeadByHash_ok (i : t.Inv hash l g f) (hpower : t.powerOf2 ≤ 24) (k : K) {fuel : ℕ}
    (hfuel : l.length + kMaxBucketSize ≤ fuel) :
    ∃ t' a b l', t.getBucketHeadByHash alloc fuel (hash k) = .ok (t', a) ∧ t'.Inv hash l' g f ∧
      .bucket a b ∈ l' ∧ dummyKey b < regularKey (hash k) ∧ MoreBuckets l l' kMaxBucketSize ∧
      t'.size = t.size ∧ t'.powerOf2 = t.powerOf2 := by
  obtain ⟨hb, hmask⟩ := bucket_lt (hash k) hpower
  have hlt := dummyKey_and_lt (hash k) hmask
  rw [getBucketHeadByHash, bucketSize]
  cases hget : t.getBucketHeadByIndex (hash k &&& (UInt64.ofNat (2 ^ t.powerOf2) - 1)) with
  | some a =>
    exact ⟨t, a, _, l, rfl, i, i.buckets _ a hb hget, hlt, moreBuckets_refl l _, rfl, rfl⟩
  | none =>
    have hb0 : hash k &&& (UInt64.ofNat (2 ^ t.powerOf2) - 1) ≠ 0 := by
      intro h0
      obtain ⟨a, ha⟩ := i.root
      rw [h0, ha] at hget
      cases hget
    have hn : (hash k &&& (UInt64.ofNat (2 ^ t.powerOf2) - 1)).toNat < fuel := by omega
    have hroom : l.length + (hash k &&& (UInt64.ofNat (2 ^ t.powerOf2) - 1)).toNat ≤ fuel := by omega
    obtain ⟨t', a, l', hrun, i', hmem, hmore, hcounts⟩ :=
      initializeBucket_ok alloc hb0 hb i hn hroom
    have hlen := hmore.length
    exact ⟨t', a, _, l', hrun, i', hmem, hlt, ⟨hmore.items, by omega⟩, hcounts⟩

end Table

end MetadataService.CT
