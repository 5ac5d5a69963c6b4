import MetadataService.AddrCache
import MetadataService.PathResolution
import MetadataService.PublishedStore

namespace MetadataService.Dmc

open ByteMemory Loops MemStore MetaExchange

inductive DMCType
  | native
  | disaggregated
deriving DecidableEq

structure DMC where
  readerSet : List DataSetItem
  addrCache : AddrCache
  servers : Int32
  dmcType : DMCType

def shard (servers : Int32) (key : UInt64) : Int32 := (key % servers.toInt64.toUInt64).toUInt32.toInt32

namespace DMC

def addToReaderSet (d : DMC) (item : DataItem) : DMC :=
  { d with readerSet := d.readerSet ++ [⟨item, false, 0, -1⟩] }

def checkCache (heap : ℕ → Vector UInt8 664) (d : DMC) (id : NameID) : DMC :=
  match d.addrCache.search (shard d.servers id.key) id.key with
  | some cached =>
    if cached.inode.isDir then d
    else d.addToReaderSet (ofFetch 0 id.key (heap d.readerSet.length))
  | none => d.addToReaderSet (ofFetch 0 id.key (heap d.readerSet.length))

def collect (heap : ℕ → Vector UInt8 664) (paths : List NameID) (d : DMC) : DMC :=
  match d.dmcType with
  | .native => d
  | .disaggregated => paths.foldl (checkCache heap) d

def client (d : DMC) : Client d.readerSet.length := ⟨d.readerSet.get, d.addrCache, [], 0⟩

def ofClient {n : ℕ} (d : DMC) (c : Client n) : DMC :=
  { d with readerSet := List.ofFn c.readerSet, addrCache := c.addrCache }

/-- The result of `CheckReadRO` is not looked at. -/
def statFile (w : Cluster) (heap : ℕ → Vector UInt8 664) (path : List UInt8) (d : DMC) (fuel : ℕ) :
    Except Fault (Bool × DMC) := do
  let paths ← pathResolution path fuel
  let d := d.collect heap paths
  let (ok, c, p) ← issueReader w d.client
  if ok then
    let res ← checkReadRO w p.direct p.hash c fuel
    let (_, s) ← timed res
    return (true, d.ofClient s.client)
  else return (false, d.ofClient c)

structure Extends (d d' : DMC) : Prop where
  cache : d'.addrCache = d.addrCache
  servers : d'.servers = d.servers
  added : ∃ xs, d'.readerSet = d.readerSet ++ xs ∧ ∀ x ∈ xs, x.isFetched = false ∧ x.offset = 0

theorem Extends.refl (d : DMC) : Extends d d := ⟨rfl, rfl, [], by simp, by simp⟩

theorem Extends.trans {d d' d'' : DMC} (h : Extends d d') (h' : Extends d' d'') : Extends d d'' := by
  obtain ⟨xs, hxs, hx⟩ := h.added
  obtain ⟨ys, hys, hy⟩ := h'.added
  refine ⟨h'.cache.trans h.cache, h'.servers.trans h.servers, xs ++ ys, ?_, ?_⟩
  · rw [hys, hxs, List.append_assoc]
  · intro x hmem
    exact (List.mem_append.mp hmem).elim (hx x) (hy x)

theorem addToReaderSet_extends (d : DMC) (item : DataItem) : Extends d (d.addToReaderSet item) :=
  ⟨rfl, rfl, _, rfl, by simp⟩

theorem checkCache_extends (heap : ℕ → Vector UInt8 664) (d : DMC) (id : NameID) :
    Extends d (d.checkCache heap id) := by
  unfold checkCache
  split
  · split
    · exact .refl d
    · apply addToReaderSet_extends
  · apply addToReaderSet_extends

theorem collect_extends (heap : ℕ → Vector UInt8 664) (paths : List NameID) (d : DMC) :
    Extends d (d.collect heap paths) := by
  have hall : Extends d (paths.foldl (checkCache heap) d) := by
    induction paths generalizing d with
    | nil => exact .refl d
    | cons id paths ih => exact (checkCache_extends heap d id).trans (ih _)
  unfold collect
  split
  · exact .refl d
  · exact hall

theorem Extends.added_get {d d' : DMC} (h : Extends d d') (i : Fin d'.readerSet.length)
    (hi : d.readerSet.length ≤ i) : (d'.readerSet.get i).isFetched = false ∧ (d'.readerSet.get i).offset = 0 := by
  obtain ⟨xs, hxs, hx⟩ := h.added
  apply hx
  have hlt : i.val - d.readerSet.length < xs.length := by
    have hlen := congrArg List.length hxs
    rw [List.length_append] at hlen
    omega
  have hget : d'.readerSet.get i = xs[i.val - d.readerSet.length] := by
    simp only [List.get_eq_getElem, hxs, List.getElem_append_right hi]
  rw [hget]
  exact List.getElem_mem hlt

end DMC

section Issuing

variable {n : ℕ} {w : Cluster}

inductive Issuing (w : Cluster) : List (Fin n) → Client n → Pending n → Bool → Client n → Pending n → Prop
  | done {c : Client n} {p : Pending n} : Issuing w [] c p true c p
  | skip {i : Fin n} {is : List (Fin n)} {c c' : Client n} {p p' : Pending n} {ok : Bool}
      (hf : (c.readerSet i).isFetched = true) (h : Issuing w is c p ok c' p') :
      Issuing w (i :: is) c p ok c' p'
  | post {i : Fin n} {is : List (Fin n)} {c c₁ c' : Client n} {p p₁ p' : Pending n} {r : Request n} {ok : Bool}
      (hf : (c.readerSet i).isFetched = false) (hacc : w.accepts c.posted.length = true) (ha : Asked c c₁)
      (hs : ∀ j ≠ i, c₁.readerSet j = c.readerSet j) (hr : Asks w c i p r p₁)
      (hp : c₁.posted = c.posted ++ [r]) (h : Issuing w is c₁ p₁ ok c' p') :
      Issuing w (i :: is) c p ok c' p'
  | fail {i : Fin n} {is : List (Fin n)} {c c₁ : Client n} {p p₁ : Pending n} {r : Request n}
      (hf : (c.readerSet i).isFetched = false) (hacc : w.accepts c.posted.length = false) (ha : Asked c c₁)
      (hs : ∀ j ≠ i, c₁.readerSet j = c.readerSet j) (hr : Asks w c i p r p₁) (hp : c₁.posted = c.posted) :
      Issuing w (i :: is) c p false c₁ p₁

theorem issueItem_others {i j : Fin n} {c c' : Client n} {p p' : Pending n} {ok : Bool}
    (h : issueItem w i c p = .ok (ok, c', p')) (hj : j ≠ i) : c'.readerSet j = c.readerSet j := by
  unfold issueItem at h
  split at h
  · cases h
    rfl
  · obtain ⟨node, -, h⟩ := bind_ok.mp h
    dsimp only at h
    split at h
    · cases h
      rw [Client.rdmaRead_readerSet]
      simp [Client.set, Function.update_of_ne hj]
    · obtain ⟨table, -, h⟩ := bind_ok.mp h
      cases h
      rw [Client.rdmaRead_readerSet]
      simp [Client.set, Function.update_of_ne hj]

theorem issueLoop_issuing {is : List (Fin n)} {c c' : Client n} {p p' : Pending n} {ok : Bool}
    (h : issueLoop w is c p = .ok (ok, c', p')) : Issuing w is c p ok c' p' := by
  induction is generalizing c p with
  | nil =>
    cases h
    exact .done
  | cons i is ih =>
    obtain ⟨⟨ok₁, c₁, p₁⟩, h₁, h₂⟩ := bind_ok.mp h
    rcases issueItem_ok h₁ with ⟨hf, rfl, rfl, rfl⟩ | ⟨hf, hacc, ha, r, hr, hp⟩
    · exact .skip hf (ih h₂)
    · cases ok₁ with
      | false =>
        cases h₂
        exact .fail hf hacc.symm ha (fun j hj => issueItem_others h₁ hj) hr hp
      | true => exact .post hf hacc.symm ha (fun j hj => issueItem_others h₁ hj) hr hp (ih h₂)

theorem Asked.refl (c : Client n) : Asked c c := ⟨Kept.refl c, fun _ => rfl, fun _ => rfl, rfl⟩

variable {is : List (Fin n)} {c c' : Client n} {p p' : Pending n} {ok : Bool}

theorem Issuing.asked (h : Issuing w is c p ok c' p') : Asked c c' := by
  induction h with
  | done => exact .refl _
  | skip hf h ih => exact ih
  | post hf hacc ha hs hr hp h ih => exact ha.trans ih
  | fail hf hacc ha hs hr hp => exact ha

inductive FirstRead (w : Cluster) (c : Client n) (i : Fin n) : Request n → Prop
  | direct {node : Int32} (hn : w.manager.primaryTableNodes (c.readerSet i).item.tableId = some node)
      (ho : (c.readerSet i).offset ≠ notFound) : FirstRead w c i ⟨i, node, (c.readerSet i).offset, 720⟩
  | hash {node : Int32} {table : HashMeta}
      (hn : w.manager.primaryTableNodes (c.readerSet i).item.tableId = some node)
      (ht : w.manager.primaryHashMetas (c.readerSet i).item.tableId = some table)
      (ho : (c.readerSet i).offset = notFound) :
      FirstRead w c i ⟨i, node, bucketOff table (c.readerSet i).item.key, 15848⟩

theorem Asks.firstRead {i : Fin n} {r : Request n} (h : Asks w c i p r p') : FirstRead w c i r := by
  cases h with
  | direct hn ho => exact .direct hn ho
  | hash hn ht ho => exact .hash hn ht ho

theorem FirstRead.of_asked {i : Fin n} {r : Request n} (ha : Asked c c') (h : FirstRead w c' i r) :
    FirstRead w c i r := by
  cases h with
  | direct hn ho =>
    rw [ha.offset] at ho ⊢
    rw [ha.table] at hn
    exact .direct hn ho
  | hash hn ht ho =>
    rw [ha.table] at hn ht
    rw [ha.offset] at ho
    rw [ha.key]
    exact .hash hn ht ho

theorem FirstRead.item {i : Fin n} {r : Request n} (h : FirstRead w c i r) : r.item = i := by
  cases h <;> rfl

theorem Issuing.firstRead (h : Issuing w is c p ok c' p') {r : Request n} (hr : r ∈ c'.posted) :
    r ∈ c.posted ∨ FirstRead w c r.item r := by
  induction h with
  | done => exact .inl hr
  | skip hf h ih => exact ih hr
  | @post i is c c₁ c' p p₁ p' q ok hf hacc ha hs hq hp h ih =>
    rcases ih hr with hr | hr
    · rw [hp, List.mem_append, List.mem_singleton] at hr
      refine hr.imp_right ?_
      rintro rfl
      rw [hq.firstRead.item]
      exact hq.firstRead
    · exact .inr (hr.of_asked ha)
  | fail hf hacc ha hs hq hp => exact .inl (hp ▸ hr)

end Issuing

/-- Where the first read of an item should go: to the cached address, or else to the bucket of its key. -/
def RightPlace (w : Cluster) (d : DMC) (r : Request d.readerSet.length) : Prop :=
  let x := d.readerSet.get r.item
  match d.addrCache.search (shard d.servers x.item.key) x.item.key with
  | some cached => r.offset = cached.addr ∧ r.size = 720
  | none => x.offset = notFound ∧ ∃ table, w.manager.primaryHashMetas x.item.tableId = some table ∧
      r.offset = bucketOff table x.item.key ∧ r.size = 15848

def CachedAtZero (d : DMC) (key : UInt64) : Prop :=
  ∃ cached, d.addrCache.search (shard d.servers key) key = some cached ∧ cached.addr = 0

theorem DMC.Extends.rightPlace_iff {w : Cluster} {d d' : DMC} (hext : d.Extends d') {ok : Bool}
    {c : Client d'.readerSet.length} {p : Pending d'.readerSet.length}
    (h : issueReader w d'.client = .ok (ok, c, p)) {r : Request d'.readerSet.length} (hr : r ∈ c.posted)
    (hnew : d.readerSet.length ≤ r.item) :
    RightPlace w d' r ↔ CachedAtZero d (d'.readerSet.get r.item).item.key := by
  have hoff := (hext.added_get r.item hnew).2
  have hne : (0 : UInt64) ≠ notFound := by decide
  have hread : r.offset = 0 ∧ r.size = 720 := by
    rcases (issueLoop_issuing h).firstRead hr with hr | hr
    · cases hr
    · generalize r.item = i at hr hoff
      cases hr with
      | direct hn ho => exact ⟨hoff, rfl⟩
      | hash hn ht ho => exact absurd (hoff.symm.trans ho) hne
  unfold RightPlace CachedAtZero
  simp only [hext.cache, hext.servers, hread, hoff]
  cases d.addrCache.search (shard d.servers (d'.readerSet.get r.item).item.key)
      (d'.readerSet.get r.item).item.key with
  | some cached => simp [eq_comm]
  | none => simp [hne]

theorem firstRead_rightPlace_iff {w : Cluster} {d : DMC} {heap : ℕ → Vector UInt8 664}
    {paths : List NameID} {ok : Bool} {c : Client (d.collect heap paths).readerSet.length}
    {p : Pending (d.collect heap paths).readerSet.length}
    (h : issueReader w (d.collect heap paths).client = .ok (ok, c, p))
    {r : Request (d.collect heap paths).readerSet.length} (hr : r ∈ c.posted)
    (hnew : d.readerSet.length ≤ r.item) :
    RightPlace w (d.collect heap paths) r ↔
      CachedAtZero d ((d.collect heap paths).readerSet.get r.item).item.key :=
  (DMC.collect_extends heap paths d).rightPlace_iff h hr hnew

def emptyTable : Cluster :=
  ⟨MetaManager.empty.addPrimary 0 ⟨0, 0, 0, 1, 15848⟩, fun _ _ => 0, fun _ => 0, fun _ => true⟩

def newDMC (addrCache : AddrCache) : DMC := ⟨[], addrCache, 1, .disaggregated⟩

def blankHeap : ℕ → Vector UInt8 664 := fun _ => Vector.replicate 664 0

def firstReads {n : ℕ} (w : Cluster) (c : Client n) : List (Request n) :=
  match issueReader w c with
  | .ok (true, c', _) => c'.posted
  | _ => []

theorem mem_firstReads {n : ℕ} {w : Cluster} {c : Client n} {r : Request n} (h : r ∈ firstReads w c) :
    ∃ c' p, issueReader w c = .ok (true, c', p) ∧ r ∈ c'.posted := by
  unfold firstReads at h
  split at h
  · exact ⟨_, _, by assumption, h⟩
  · cases h

theorem firstRead_rightPlace_iff_cached_at_zero :
    let d := newDMC (AddrCache.empty.insert 0 5 ⟨0, ⟨0, 0, 0, 0, false⟩⟩)
    ∃ c p r, issueReader emptyTable (d.collect blankHeap [⟨5, []⟩]).client = .ok (true, c, p) ∧
      r ∈ c.posted ∧ d.readerSet.length ≤ r.item ∧ RightPlace emptyTable (d.collect blankHeap [⟨5, []⟩]) r := by
  intro d
  obtain ⟨r, hmem⟩ := List.exists_mem_of_ne_nil
    (firstReads emptyTable (d.collect blankHeap [⟨5, []⟩]).client) (by decide +kernel)
  obtain ⟨c, p, h, hr⟩ := mem_firstReads hmem
  have hkey : ∀ i, ((d.collect blankHeap [⟨5, []⟩]).readerSet.get i).item.key = 5 := by decide +kernel
  refine ⟨c, p, r, h, hr, Nat.zero_le _, (firstRead_rightPlace_iff h hr (Nat.zero_le _)).mpr ?_⟩
  rw [hkey]
  exact ⟨_, (AddrCache.search_insert _ _ _ _ _ _).trans (if_pos (by decide)), rfl⟩

theorem uncached_key_read_at_zero :
    let d := newDMC AddrCache.empty
    ∃ c p r, issueReader emptyTable (d.collect blankHeap [⟨5, []⟩]).client = .ok (true, c, p) ∧
      r ∈ c.posted ∧ d.readerSet.length ≤ r.item ∧ r.offset = 0 ∧ r.size = 720 ∧
      ¬ RightPlace emptyTable (d.collect blankHeap [⟨5, []⟩]) r := by
  intro d
  obtain ⟨r, hmem, hoff, hsize⟩ : ∃ r ∈ firstReads emptyTable (d.collect blankHeap [⟨5, []⟩]).client,
      r.offset = 0 ∧ r.size = 720 := by decide +kernel
  obtain ⟨c, p, h, hr⟩ := mem_firstReads hmem
  have hne : ∀ i, ((d.collect blankHeap [⟨5, []⟩]).readerSet.get i).offset ≠ notFound := by decide +kernel
  refine ⟨c, p, r, h, hr, Nat.zero_le _, hoff, hsize, ?_⟩
  rintro ⟨hnot, -⟩
  exact hne _ hnot

end MetadataService.Dmc
