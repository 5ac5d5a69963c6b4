import MetadataService.SplitBuckets

namespace MetadataService.CT

open HeapCells

variable {A K V : Type} {hash : K → UInt64} {l l' pre post : List (Entry A K V)}
  {g : List (Garbage A K V)} {f : List (A × Obj A K V)} {x y : Entry A K V} {k : K} {v : V}

abbrev Contents (K V : Type) := Finmap fun _ : K => V

def HasItem (l : List (Entry A K V)) (k : K) (v : V) : Prop := ∃ a va, Entry.item a k va v ∈ l

theorem hasItem_middle {a va : A} {k' : K} {v' : V} :
    HasItem (pre ++ .item a k va v :: post) k' v' ↔ k' = k ∧ v' = v ∨ HasItem (pre ++ post) k' v' := by
  constructor
  · rintro ⟨a', va', hmem⟩
    simp only [List.mem_append, List.mem_cons] at hmem
    obtain hmem | hmem | hmem := hmem
    · exact Or.inr ⟨a', va', List.mem_append_left _ hmem⟩
    · injection hmem with _ hk _ hv
      exact Or.inl ⟨hk, hv⟩
    · exact Or.inr ⟨a', va', List.mem_append_right _ hmem⟩
  · rintro (⟨rfl, rfl⟩ | ⟨a', va', hmem⟩)
    · exact ⟨a, va, by simp⟩
    · refine ⟨a', va', ?_⟩
      simp only [List.mem_append, List.mem_cons] at hmem ⊢
      obtain hmem | hmem := hmem
      · exact Or.inl hmem
      · exact Or.inr (Or.inr hmem)

theorem MoreBuckets.hasItem {n : ℕ} (h : Table.MoreBuckets l l' n) (k : K) (v : V) :
    HasItem l' k v ↔ HasItem l k v := by
  have hmem : ∀ a va, Entry.item a k va v ∈ l' ↔ Entry.item a k va v ∈ l := by
    intro a va
    have hfilter : Entry.item a k va v ∈ l'.filter Entry.isItem ↔
        Entry.item a k va v ∈ l.filter Entry.isItem := by
      rw [h.items]
    simpa using hfilter
  simp only [HasItem, hmem]

variable [LinearOrder K]

theorem Contents.erase_of_lookup_none {m : Contents K V} (h : m.lookup k = none) : m.erase k = m := by
  apply Finmap.ext_lookup
  intro k'
  by_cases hk : k' = k
  · rw [hk, Finmap.lookup_erase, h]
  · exact Finmap.lookup_erase_ne hk

theorem key_ne_of_sorted (hs : (pre ++ x :: post).Pairwise fun y z => y.key hash < z.key hash)
    (hy : y ∈ pre ++ post) : y.key hash ≠ x.key hash := by
  rw [List.pairwise_append, List.pairwise_cons] at hs
  obtain ⟨-, ⟨hpost, -⟩, hpre⟩ := hs
  rcases List.mem_append.mp hy with hy | hy
  · exact (hpre y hy x List.mem_cons_self).ne
  · exact (hpost y hy).ne'

theorem key_ne_of_between {q : ℕ ×ₗ WithBot K}
    (hs : (pre ++ x :: post).Pairwise fun y z => y.key hash < z.key hash) (hx : x.key hash < q)
    (hpost : ∀ z ∈ post.head?, q < z.key hash) (hy : y ∈ pre ++ x :: post) : y.key hash ≠ q := by
  rw [List.pairwise_append, List.pairwise_cons] at hs
  obtain ⟨-, ⟨-, hrest⟩, hpre⟩ := hs
  simp only [List.mem_append, List.mem_cons] at hy
  obtain hy | rfl | hy := hy
  · exact ((hpre y hy x List.mem_cons_self).trans hx).ne
  · exact hx.ne
  · cases post with
    | nil => cases hy
    | cons z post =>
      have hz := hpost z rfl
      rcases List.mem_cons.mp hy with rfl | hy
      · exact hz.ne'
      · exact (hz.trans ((List.pairwise_cons.mp hrest).1 y hy)).ne'

theorem not_hasItem {a va : A} {v' : V}
    (hs : (pre ++ .item a k va v :: post).Pairwise fun y z => y.key hash < z.key hash) :
    ¬ HasItem (pre ++ post) k v' := by
  rintro ⟨a', va', hmem⟩
  exact key_ne_of_sorted hs hmem rfl

def Models (l : List (Entry A K V)) (m : Contents K V) : Prop :=
  ∀ k v, m.lookup k = some v ↔ HasItem l k v

namespace Models

variable {m : Contents K V} {a va : A}

theorem more {n : ℕ} (hm : Models l m) (h : Table.MoreBuckets l l' n) : Models l' m :=
  fun k v => (hm k v).trans (MoreBuckets.hasItem h k v).symm

theorem lookup_eq_none (hm : Models l m) (h : ∀ v, ¬ HasItem l k v) : m.lookup k = none := by
  cases hl : m.lookup k with
  | none => rfl
  | some v => exact absurd ((hm k v).mp hl) (h v)

theorem add (hm : Models (pre ++ post) m)
    (hs : (pre ++ .item a k va v :: post).Pairwise fun y z => y.key hash < z.key hash) :
    Models (pre ++ .item a k va v :: post) (m.insert k v) := by
  intro k' v'
  rw [hasItem_middle]
  by_cases hk : k' = k
  · subst hk
    rw [Finmap.lookup_insert, Option.some.injEq]
    constructor
    · intro hv
      exact Or.inl ⟨rfl, hv.symm⟩
    · rintro (⟨-, hv⟩ | hmem)
      · exact hv.symm
      · exact absurd hmem (not_hasItem hs)
  · rw [Finmap.lookup_insert_of_ne m hk, hm k' v']
    simp [hk]

theorem remove (hm : Models (pre ++ .item a k va v :: post) m)
    (hs : (pre ++ .item a k va v :: post).Pairwise fun y z => y.key hash < z.key hash) :
    Models (pre ++ post) (m.erase k) := by
  intro k' v'
  by_cases hk : k' = k
  · subst hk
    rw [Finmap.lookup_erase]
    constructor
    · intro h
      cases h
    · intro hmem
      exact absurd hmem (not_hasItem hs)
  · rw [Finmap.lookup_erase_ne hk, hm k' v', hasItem_middle]
    simp [hk]

theorem replace {va' : A} {v' : V} (hm : Models (pre ++ .item a k va v :: post) m)
    (hs : (pre ++ .item a k va v :: post).Pairwise fun y z => y.key hash < z.key hash)
    (hs' : (pre ++ .item a k va' v' :: post).Pairwise fun y z => y.key hash < z.key hash) :
    Models (pre ++ .item a k va' v' :: post) (m.insert k v') := by
  intro k' v''
  rw [← (hm.remove hs).add hs' k' v'']
  by_cases hk : k' = k
  · rw [hk, Finmap.lookup_insert, Finmap.lookup_insert]
  · rw [Finmap.lookup_insert_of_ne _ hk, Finmap.lookup_insert_of_ne _ hk, Finmap.lookup_erase_ne hk]

theorem card (hm : Models l m) (hs : l.Pairwise fun y z => y.key hash < z.key hash) :
    m.keys.card = (l.filter Entry.isItem).length := by
  let keys := l.filterMap Entry.itemKey
  have hnodup : keys.Nodup := by
    apply List.Pairwise.filterMap _ _ hs
    intro y z hlt ky hy kz hz heq
    subst heq
    exact absurd (Entry.key_eq_of_itemKey hy hz) hlt.ne
  have hkeys : m.keys = keys.toFinset := by
    ext k
    rw [Finmap.mem_keys, Finmap.mem_iff, List.mem_toFinset, List.mem_filterMap]
    constructor
    · rintro ⟨v, hv⟩
      obtain ⟨a, va, hmem⟩ := (hm k v).mp hv
      exact ⟨_, hmem, rfl⟩
    · rintro ⟨y, hmem, hy⟩
      obtain ⟨a, va, v, rfl⟩ := Entry.eq_item_of_itemKey hy
      exact ⟨v, (hm k v).mpr ⟨a, va, hmem⟩⟩
  rw [hkeys, List.toFinset_card_of_nodup hnodup]
  exact Entry.length_itemKeys l

end Models

namespace Table

variable [DecidableEq A] {t : Table A K V} {m : Contents K V} {a b : A}

theorem updateNode_ok {va va' na : A} {v' : V} {p : Link A}
    (w : t.Holds hash (pre ++ .item a k va v :: post) g ((Entry.item na k va' v').cells hash p ++ f)) :
    ∃ h r, t.updateNode a na = .ok { t with heap := h, reclaimer := r } ∧
      Listed hash h r.reclaimMap (pre ++ .item a k va' v' :: post) (g ++ [.value va v]) f ∧
      r.slots = t.reclaimer.slots := by
  let fresh := (Entry.item na k va' v').node hash p
  let emptied : Node A K := { fresh with regular := some (k, none) }
  let h₁ := setNode t.heap a ((Entry.item a k va' v').node hash (headLink post))
  let h₂ := setNode h₁ na emptied
  have hn : nodeAt t.heap a = .ok ((Entry.item a k va v).node hash (headLink post)) := w.nodeAt
  have hfresh : nodeAt t.heap na = .ok fresh :=
    nodeAt_of_lookup (w.lookup (by simp [Entry.cells, Entry.addr, fresh]))
  have hperm : ((Entry.item na k va' v').cells hash p ++ f).Perm
      ((va', .value v') :: (na, .node fresh) :: f) := List.Perm.swap ..
  have howns := (w.frame_perm hperm).revalue
  have hsorted := Listed.sorted_replace w.sorted (rfl : (Entry.item a k va' v').key hash = _)
  have hvalid : ∀ x ∈ pre ++ Entry.item a k va' v' :: post, x.Valid := by
    intro x hx
    simp only [List.mem_append, List.mem_cons] at hx
    obtain hx | rfl | hx := hx
    · exact w.valid x (by simp [hx])
    · trivial
    · exact w.valid x (by simp [hx])
  have w₁ := Listed.retire (γ := .value va v) howns hsorted hvalid w.waits
  have w₂ := w₁.write (.node emptied)
  have hemptied : nodeAt h₂ na = .ok emptied := nodeAt_of_lookup (w₂.lookup List.mem_cons_self)
  -- the destructor of the new node does not delete the value, which is now that of the entry
  have hdelete : onDeleteNode h₂ na = .ok (h₂.erase na) := by
    simp [onDeleteNode, hemptied, emptied]
  refine ⟨_, _, ?_, w₂.free, Reclaimer.reclaimLater_slots ..⟩
  rw [updateNode, hn, ok_bind, hfresh, ok_bind]
  simp only [Entry.node, regularNode, fresh, deref, ok_bind]
  simp only [h₂, h₁, Entry.node, regularNode, fresh, emptied] at hdelete
  rw [reclaimLater, hdelete]
  rfl

omit [LinearOrder K] [DecidableEq A] in
theorem grow_ok (hpower : 1 ≤ t.powerOf2 ∧ t.powerOf2 ≤ 24) (hload : 2 * t.size ≤ 2 ^ t.powerOf2) :
    (∃ n, t.grow = .ok { t with size := t.size + 1, powerOf2 := n } ∧ (1 ≤ n ∧ n ≤ 24) ∧
        2 * (t.size + 1) ≤ 2 ^ n) ∨
      (t.grow = .error .bucketSize ∧ 2 ^ 23 < t.size + 1) := by
  have htwo : 2 ^ 1 ≤ 2 ^ t.powerOf2 := Nat.pow_le_pow_right (by decide) hpower.1
  have hsucc : 2 ^ (t.powerOf2 + 1) = 2 ^ t.powerOf2 * 2 := Nat.pow_succ ..
  by_cases hgrow : 2 ^ t.powerOf2 < 2 * (t.size + 1)
  · by_cases hmax : t.powerOf2 = 24
    · right
      constructor
      · have hover : ¬ 2 ^ (t.powerOf2 + 1) ≤ kMaxBucketSize := by rw [hmax]; decide
        simp [grow, bucketSize, hgrow, hover]
        rfl
      · rw [hmax] at hgrow
        omega
    · left
      have hle : 2 ^ (t.powerOf2 + 1) ≤ 2 ^ 24 := Nat.pow_le_pow_right (by decide) (by omega)
      refine ⟨t.powerOf2 + 1, ?_, by omega, by omega⟩
      have hbound : 2 ^ (t.powerOf2 + 1) ≤ kMaxBucketSize := hle
      simp [grow, bucketSize, hgrow, hbound]
  · left
    refine ⟨t.powerOf2, ?_, hpower, by omega⟩
    simp [grow, hgrow]

/-- The table stands for the map `m`: its list has the keys and values of `m`, and its counters are
those of `m` and within the bounds on the number of buckets. -/
structure Refines (t : Table A K V) (hash : K → UInt64) (m : Contents K V) (l : List (Entry A K V))
    (g : List (Garbage A K V)) (f : List (A × Obj A K V)) : Prop where
  inv : t.Inv hash l g f
  models : Models l m
  size : t.size = m.keys.card
  power : 1 ≤ t.powerOf2 ∧ t.powerOf2 ≤ 24
  load : 2 * t.size ≤ 2 ^ t.powerOf2

theorem Refines.congr {t' : Table A K V} {g' : List (Garbage A K V)} {f' : List (A × Obj A K V)}
    (r : t.Refines hash m l g f) (w : t'.Holds hash l g' f') (hs : SameCounts t t') :
    t'.Refines hash m l g' f' :=
  ⟨r.inv.congr w hs.segments fun _ _ h => h, r.models, hs.size.trans r.size, hs.powerOf2.symm ▸ r.power,
    by rw [hs.size, hs.powerOf2]; exact r.load⟩

theorem Refines.head (r : t.Refines hash m l g f) (alloc : Allocator A) (k : K) {fuel : ℕ}
    (hfuel : l.length + kMaxBucketSize ≤ fuel) :
    ∃ t' a b l', t.getBucketHeadByHash alloc fuel (hash k) = .ok (t', a) ∧ t'.Refines hash m l' g f ∧
      .bucket a b ∈ l' ∧ dummyKey b < regularKey (hash k) ∧ l'.length ≤ l.length + kMaxBucketSize := by
  obtain ⟨t', a, b, l', hrun, i', hmem, hlt, hmore, hsize, hpower⟩ :=
    getBucketHeadByHash_ok alloc r.inv r.power.2 k hfuel
  refine ⟨t', a, b, l', hrun, ⟨i', r.models.more hmore, hsize.trans r.size, hpower.symm ▸ r.power, ?_⟩,
    hmem, hlt, hmore.length⟩
  rw [hsize, hpower]
  exact r.load

omit [LinearOrder K] [DecidableEq A] in
theorem length_filter_item (pre post : List (Entry A K V)) (a va : A) (k : K) (v : V) :
    ((pre ++ .item a k va v :: post).filter Entry.isItem).length =
      ((pre ++ post).filter Entry.isItem).length + 1 := by
  simp only [List.filter_append, List.filter_cons, Entry.isItem_item, if_true, List.length_append,
    List.length_cons]
  omega

theorem insertRegularNode_found {na va a' va' : A} {v' : V} {c : Cursor A K V} {fuel : ℕ}
    (r : t.Refines hash m (pre ++ .item a' k va' v' :: post) g ((Entry.item na k va v).cells hash .null ++ f))
    (hrun : linkNode fuel a na fuel t .null .null = .ok (c, true)) (hsame : SameList t c.table)
    (hprev : HandleOk c.table.reclaimer c.prevHp) (hcur : HandleOk c.table.reclaimer c.curHp)
    (hc : c.cur = some a') :
    ∃ t' g', t.insertRegularNode fuel a na = .ok (t', false) ∧
      t'.Refines hash (m.insert k v) (pre ++ .item a' k va v :: post) g' f := by
  obtain ⟨h, r', hupdate, w', hslots⟩ := updateNode_ok (hsame.holds r.inv.holds)
  let u : Table A K V := { c.table with heap := h, reclaimer := r' }
  obtain ⟨t', hrelease, hsame'⟩ := release_of_slots (u := u) hslots hprev hcur
  have hu : SameCounts c.table u := ⟨rfl, rfl, rfl⟩
  have hcounts : SameCounts t t' := (hsame.counts.trans hu).trans hsame'.counts
  have hmodels := r.models.replace r.inv.holds.sorted w'.sorted
  refine ⟨t', g ++ [.value va' v'], ?_, ⟨?_, hmodels, ?_, ?_, ?_⟩⟩
  · simp only [insertRegularNode, hrun, ok_bind, if_true, hc, deref, hupdate]
    simp only [u] at hrelease
    rw [hrelease]
    rfl
  · apply r.inv.congr (hsame'.holds w') hcounts.segments
    intro a₀ b₀ hmem
    simpa using hmem
  · rw [hcounts.size, r.size, hmodels.card w'.sorted, r.models.card r.inv.holds.sorted, length_filter_item,
      length_filter_item]
  · rw [hcounts.powerOf2]
    exact r.power
  · rw [hcounts.size, hcounts.powerOf2]
    exact r.load

theorem insertRegularNode_linked {na va : A} {c : Cursor A K V} {fuel : ℕ} {f' : List (A × Obj A K V)}
    (r : t.Refines hash m (pre ++ post) g f') (hrun : linkNode fuel a na fuel t .null .null = .ok (c, false))
    (hcounts : SameCounts t c.table) (w : c.table.Holds hash (pre ++ .item na k va v :: post) g f)
    (hprev : HandleOk c.table.reclaimer c.prevHp) (hcur : HandleOk c.table.reclaimer c.curHp) :
    (∃ t', t.insertRegularNode fuel a na = .ok (t', true) ∧
        t'.Refines hash (m.insert k v) (pre ++ .item na k va v :: post) g f) ∨
      (t.insertRegularNode fuel a na = .error .bucketSize ∧ 2 ^ 23 < (m.insert k v).keys.card) := by
  have hmodels := r.models.add w.sorted
  have hcard : (m.insert k v).keys.card = t.size + 1 := by
    rw [hmodels.card w.sorted, r.size, r.models.card r.inv.holds.sorted, length_filter_item]
  have hpower : 1 ≤ c.table.powerOf2 ∧ c.table.powerOf2 ≤ 24 := hcounts.powerOf2.symm ▸ r.power
  have hload : 2 * c.table.size ≤ 2 ^ c.table.powerOf2 := by
    rw [hcounts.size, hcounts.powerOf2]
    exact r.load
  obtain ⟨n, hgrow, hn, hload'⟩ | ⟨hgrow, hover⟩ := grow_ok hpower hload
  · left
    let u : Table A K V := { c.table with size := c.table.size + 1, powerOf2 := n }
    obtain ⟨t', hrelease, hsame⟩ := release_ok (t := u) hprev hcur
    refine ⟨t', ?_, ⟨?_, hmodels, ?_, ?_, ?_⟩⟩
    · simp only [insertRegularNode, hrun, ok_bind, Bool.false_eq_true, if_false, hgrow]
      simp only [u] at hrelease
      rw [hrelease]
      rfl
    · have hseg : u.segments = t.segments := hcounts.segments
      apply r.inv.congr (hsame.holds w) (hsame.counts.segments.trans hseg)
      intro a₀ b₀ hmem
      simpa using hmem
    · rw [hsame.counts.size, hcard, ← hcounts.size]
    · rw [hsame.counts.powerOf2]
      exact hn
    · rw [hsame.counts.size, hsame.counts.powerOf2]
      exact hload'
  · right
    constructor
    · simp only [insertRegularNode, hrun, ok_bind, Bool.false_eq_true, if_false, hgrow]
      rfl
    · rw [hcard, ← hcounts.size]
      exact hover

theorem insertRegularNode_ok {na va : A} {d : UInt64}
    (r : t.Refines hash m l g ((Entry.item na k va v).cells hash .null ++ f)) (hmem : .bucket a d ∈ l)
    (hlt : dummyKey d < regularKey (hash k)) {fuel : ℕ} (hfuel : l.length ≤ fuel) :
    (∃ t' l' g', t.insertRegularNode fuel a na = .ok (t', (m.lookup k).isNone) ∧
        t'.Refines hash (m.insert k v) l' g' f ∧ l'.length ≤ l.length + 1) ∨
      (t.insertRegularNode fuel a na = .error .bucketSize ∧ 2 ^ 23 < (m.insert k v).keys.card) := by
  obtain ⟨pre, post, rfl⟩ := List.append_of_mem hmem
  rw [List.length_append, List.length_cons] at hfuel
  obtain ⟨n, rfl⟩ : ∃ n, fuel = n + 1 := ⟨fuel - 1, by omega⟩
  have hx : (Entry.bucket a d : Entry A K V).key hash < (Entry.item na k va v : Entry A K V).key hash :=
    Entry.key_bucket_lt_item hlt
  obtain ⟨c, found, pre', z, post', hsplit, hrun, hprev, hcur, hcase⟩ :=
    linkNode_ok (n := n) r.inv.holds trivial hx (handleOk_null _) (handleOk_null _)
      (by omega : post.length < n + 1)
  rw [hsplit] at r ⊢
  simp only [Entry.addr] at hrun
  obtain ⟨rfl, hsame, u, post'', rfl, hkey, hu⟩ | ⟨rfl, hcounts, w⟩ := hcase
  · obtain ⟨a', va', v', rfl⟩ := Entry.eq_item_of_key (r.inv.holds.valid u (by simp)) hkey
    rw [List.append_cons] at r ⊢
    have hlookup : m.lookup k = some v' := (r.models k v').mpr ⟨a', va', by simp⟩
    obtain ⟨t', g', hinsert, hrefines⟩ := insertRegularNode_found r hrun hsame hprev hcur hu
    refine Or.inl ⟨t', _, g', ?_, hrefines, by simp⟩
    rw [hinsert, hlookup]
    rfl
  · rw [List.append_cons] at r w ⊢
    have hlookup : m.lookup k = none := r.models.lookup_eq_none fun v' => not_hasItem w.sorted
    obtain ⟨t', hinsert, hrefines⟩ | herror := insertRegularNode_linked r hrun hcounts w hprev hcur
    · refine Or.inl ⟨t', _, g, ?_, hrefines, ?_⟩
      · rw [hinsert, hlookup]
        rfl
      · simp only [List.length_append, List.length_cons]
        omega
    · exact Or.inr herror

theorem search_ok {d : UInt64} (r : t.Refines hash m l g f) (hmem : .bucket a d ∈ l)
    (hlt : dummyKey d < regularKey (hash k)) {fuel : ℕ} (hfuel : l.length ≤ fuel) :
    (∃ c pre z a' va' v' post, l = pre ++ z :: .item a' k va' v' :: post ∧
        t.searchNode fuel a (regularNode (hash k) k none) .null .null = .ok (c, true) ∧
        Cursor.At t c z (.item a' k va' v' :: post)) ∨
      (∃ c z post, t.searchNode fuel a (regularNode (hash k) k none) .null .null = .ok (c, false) ∧
        Cursor.At t c z post ∧ m.lookup k = none) := by
  obtain ⟨pre, post, rfl⟩ := List.append_of_mem hmem
  rw [List.length_append, List.length_cons] at hfuel
  have hparity : (regularNode (hash k) k none : Node A K).Parity := regularKey_odd (hash k)
  have hx : (Entry.bucket a d : Entry A K V).key hash < (regularNode (hash k) k none : Node A K).key :=
    Entry.key_bucket_lt_item hlt
  obtain ⟨c, found, pre', z, post', hsplit, hrun, hend⟩ := searchNode_ends r.inv.holds hparity hx
    (handleOk_null _) (handleOk_null _) (by omega : post.length < fuel)
  cases found with
  | true =>
    obtain ⟨u, post'', rfl, hu⟩ := hend.hit rfl
    obtain ⟨a', va', v', rfl⟩ := Entry.eq_item_of_key (r.inv.holds.valid u (by rw [hsplit]; simp)) hu
    exact Or.inl ⟨c, pre', z, a', va', v', post'', hsplit, hrun, hend.here⟩
  | false =>
    refine Or.inr ⟨c, z, post', hrun, hend.here, r.models.lookup_eq_none ?_⟩
    rintro v' ⟨a', va', hitem⟩
    rw [hsplit] at hitem
    have hsorted := r.inv.holds.sorted
    rw [hsplit] at hsorted
    exact key_ne_of_between hsorted hend.below (hend.miss rfl) hitem rfl

theorem findNode_ok {d : UInt64} (r : t.Refines hash m l g f) (hmem : .bucket a d ∈ l)
    (hlt : dummyKey d < regularKey (hash k)) {fuel : ℕ} (hfuel : l.length ≤ fuel) :
    ∃ t' g', t.findNode fuel a (regularNode (hash k) k none) = .ok (t', m.lookup k) ∧
      t'.Refines hash m l g' f := by
  obtain ⟨c, pre, z, a', va', v', post, rfl, hrun, hat⟩ | ⟨c, z, post, hrun, hat, hnone⟩ :=
    search_ok r hmem hlt hfuel
  · have hlookup : m.lookup k = some v' := (r.models k v').mpr ⟨a', va', by simp⟩
    have w := hat.same.holds r.inv.holds
    obtain ⟨h, r', g', hreclaim, w', hslots⟩ := reclaimNoHazardPointer_ok w
    let u : Table A K V := { c.table with heap := h, reclaimer := r' }
    obtain ⟨t', hrelease, hsame⟩ := release_of_slots (u := u) hslots hat.prevHp hat.curHp
    have hu : SameCounts c.table u := ⟨rfl, rfl, rfl⟩
    refine ⟨t', g', ?_, r.congr (hsame.holds w') ((hat.same.counts.trans hu).trans hsame.counts)⟩
    rw [List.append_cons] at w w'
    have hcur : c.cur = some a' := (congrArg Link.ptr hat.cur).symm
    have hnode : nodeAt c.table.heap a' = .ok ((Entry.item a' k va' v').node hash (headLink post)) := w.nodeAt
    rw [findNode, hrun]
    simp only [ok_bind, if_true, hcur, deref, hnode, Entry.node, regularNode, hreclaim, w'.valueAt]
    simp only [u] at hrelease
    rw [hrelease, hlookup]
    rfl
  · obtain ⟨t', hrelease, hsame⟩ := release_ok hat.prevHp hat.curHp
    refine ⟨t', g, ?_, r.congr ((hat.same.trans hsame).holds r.inv.holds) (hat.same.trans hsame).counts⟩
    rw [findNode, hrun, hnone]
    simp [hrelease]

theorem Refines.erased {t' : Table A K V} {z : Entry A K V} {va : A} {g' : List (Garbage A K V)}
    {f' : List (A × Obj A K V)} (r : t.Refines hash m (pre ++ z :: .item a k va v :: post) g f)
    (w : t'.Holds hash (pre ++ z :: post) g' f') (hs : SameCounts { t with size := t.size - 1 } t') :
    t'.Refines hash (m.erase k) (pre ++ z :: post) g' f' := by
  have hmodels := r.models
  have hsorted := r.inv.holds.sorted
  rw [List.append_cons] at hmodels hsorted
  have hcard := hmodels.card hsorted
  have hremove := hmodels.remove hsorted
  rw [← List.append_cons] at hremove
  rw [length_filter_item, ← List.append_cons] at hcard
  refine ⟨?_, hremove, ?_, hs.powerOf2.symm ▸ r.power, ?_⟩
  · apply r.inv.congr w hs.segments
    intro a₀ b₀ hmem
    simpa using hmem
  · rw [hremove.card w.sorted, hs.size]
    simp only
    rw [r.size, hcard]
    rfl
  · rw [hs.size, hs.powerOf2]
    have hload := r.load
    simp only
    omega

theorem deleteNode_found {z : Entry A K V} {a' va' : A} {v' : V} {c : Cursor A K V} {n : ℕ}
    (r : t.Refines hash m (pre ++ z :: .item a' k va' v' :: post) g f)
    (hrun : t.searchNode (n + 1) a (regularNode (hash k) k none) .null .null = .ok (c, true))
    (hat : Cursor.At t c z (.item a' k va' v' :: post)) :
    ∃ t' g', t.deleteNode (n + 1) a (regularNode (hash k) k none) = .ok (t', true) ∧
      t'.Refines hash (m.erase k) (pre ++ z :: post) g' f := by
  obtain ⟨table, prev, cur, prevHp, curHp⟩ := c
  obtain ⟨⟨r₀, htable, hr₀⟩, hprev, hcur, hprevHp, hcurHp⟩ := hat
  simp only at htable hprev hcur hprevHp hcurHp
  subst htable hprev
  obtain rfl : some a' = cur := congrArg Link.ptr hcur
  let y : Entry A K V := .item a' k va' v'
  let p := (headLink post).getMarkedReference
  have w := r.inv.holds
  have hnode : nodeAt t.heap a' = .ok (y.node hash (headLink post)) := by
    have w' := w
    rw [List.append_cons] at w'
    exact w'.nodeAt
  have hunmarked : (headLink post).marked = false := by rw [headLink_eq]
  -- the node before it still points to the marked node, so the exchange succeeds
  have hz : nodeAt (setNode t.heap a' (y.node hash p)) z.addr = .ok (z.node hash (.ref a')) :=
    nodeAt_of_lookup ((w.mark p).lookup (by simp [Entry.ref, Entry.addr]))
  obtain ⟨hsorted, hvalid⟩ := w.sorted_erase
  let u : Table A K V := { t with
    size := t.size - 1
    heap := setNode (setNode t.heap a' (y.node hash p)) z.addr (z.node hash (headLink post))
    reclaimer := r₀.reclaimLater a' .onDeleteNode }
  have w₂ : u.Holds hash (pre ++ z :: post) (g ++ [.entry y p]) f :=
    Listed.retire (γ := .entry y p) (w.unlink p) hsorted hvalid (hr₀.trans w.waits)
  obtain ⟨h₃, r₃, g₃, hreclaim, w₃, hslots⟩ := reclaimNoHazardPointer_ok w₂
  obtain ⟨t', hrelease, hsame⟩ := release_of_slots (u := { u with heap := h₃, reclaimer := r₃ })
    (hslots.trans (Reclaimer.reclaimLater_slots ..)) hprevHp hcurHp
  have hu : SameCounts { t with size := t.size - 1 } { u with heap := h₃, reclaimer := r₃ } :=
    ⟨rfl, rfl, rfl⟩
  refine ⟨t', g₃, ?_, r.erased (hsame.holds w₃) (hu.trans hsame.counts)⟩
  rw [deleteNode, markNode, hrun]
  simp only [u, y, p] at hreclaim hrelease hz hnode
  simp [deref, hnode, hunmarked, Cursor.exchangeNext, hz, Entry.node_with_next, Link.ref, reclaimLater,
    hreclaim, hrelease]

theorem deleteNode_ok {d : UInt64} (r : t.Refines hash m l g f) (hmem : .bucket a d ∈ l)
    (hlt : dummyKey d < regularKey (hash k)) {fuel : ℕ} (hfuel : l.length ≤ fuel) :
    ∃ t' l' g', t.deleteNode fuel a (regularNode (hash k) k none) = .ok (t', (m.lookup k).isSome) ∧
      t'.Refines hash (m.erase k) l' g' f ∧ l'.length ≤ l.length := by
  obtain ⟨n, rfl⟩ : ∃ n, fuel = n + 1 := ⟨fuel - 1, by have := List.length_pos_of_mem hmem; omega⟩
  obtain ⟨c, pre, z, a', va', v', post, rfl, hrun, hat⟩ | ⟨c, z, post, hrun, hat, hnone⟩ :=
    search_ok r hmem hlt hfuel
  · have hlookup : m.lookup k = some v' := (r.models k v').mpr ⟨a', va', by simp⟩
    obtain ⟨t', g', hdelete, hrefines⟩ := deleteNode_found r hrun hat
    refine ⟨t', pre ++ z :: post, g', ?_, hrefines, ?_⟩
    · rw [hdelete, hlookup]
      rfl
    · simp only [List.length_append, List.length_cons]
      omega
  · obtain ⟨t', hrelease, hsame⟩ := release_ok hat.prevHp hat.curHp
    refine ⟨t', l, g, ?_, ?_, Nat.le_refl _⟩
    · rw [deleteNode, markNode, hrun, hnone]
      simp [hrelease]
    · rw [Contents.erase_of_lookup_none hnone]
      exact r.congr ((hat.same.trans hsame).holds r.inv.holds) (hat.same.trans hsame).counts

end Table

end MetadataService.CT
