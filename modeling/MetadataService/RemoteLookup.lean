import MetadataService.PublishedStore

namespace MetadataService.Dmc

open ByteMemory Loops LinkedChain MemStore MetaExchange MemoryNode

variable {n : ℕ} {w : Cluster} {node : Int32} {m : MemoryNode} {C : UInt64 → List UInt64} {s : HashStore}

structure Site (w : Cluster) (node : Int32) (m : MemoryNode) (C : UInt64 → List UInt64)
    (s : HashStore) : Prop where
  layout : Layout m C
  owned : Holds Owned m C
  mem : s ∈ m.tables
  published : Published w node s
  region : w.region node = m.mem

def bucketChain (C : UInt64 → List UInt64) (s : HashStore) (key : UInt64) : List UInt64 :=
  C (s.bucket (s.getHash key))

def hitIn (m : MemoryNode) (key : UInt64) : UInt64 → Option UInt64 := findSlot m.mem (holds key)

theorem loadItem_nodeBytes (mem : Memory) {x : UInt64} (hx : x.toNat + 15848 ≤ 2 ^ 64) {i : ℕ} (hi : i < 22) :
    loadItem (nodeBytes mem x) (i * 720) = itemAt mem (slotPtr x i) := by
  rw [itemAt, slotPtr_toNat hx hi]
  simp only [loadItem, readWord, readNat, readVector, nodeBytes, Nat.add_assoc]

theorem lookup_of_hit {mem : Memory} {key p x : UInt64} {pre post : List UInt64}
    (hpre : ∀ y ∈ pre, findSlot mem (holds key) y = none) (hx : findSlot mem (holds key) x = some p) :
    lookup mem (pre ++ x :: post) key = some p := by
  rw [lookup, ← findSome_findSlot, List.findSome?_append, List.findSome?_eq_none_iff.mpr hpre,
    List.findSome?_cons, hx]
  rfl

theorem lookup_of_misses {mem : Memory} {key : UInt64} {ns : List UInt64}
    (h : ∀ y ∈ ns, findSlot mem (holds key) y = none) : lookup mem ns key = none := by
  rw [lookup, ← findSome_findSlot]
  exact List.findSome?_eq_none_iff.mpr h

namespace Site

theorem chain (S : Site w node m C s) (key : UInt64) :
    Chain (nextOf m.mem) 0 (s.bucket (s.getHash key)) (bucketChain C s key) :=
  S.layout.chain S.mem key

theorem placed (S : Site w node m C s) {key x : UInt64} (hx : x ∈ bucketChain C s key) :
    x.toNat + 15848 ≤ 2 ^ 64 :=
  S.layout.space ⟨_, S.layout.root_mem S.mem key, hx⟩

theorem findItem_eq (S : Site w node m C s) {it : DataItem} {x : UInt64} (ht : it.tableId = s.tableId)
    (hx : x ∈ bucketChain C s it.key) :
    findItem (nodeBytes m.mem x) it = (hitIn m it.key x).map (itemAt m.mem) := by
  have hp := S.placed hx
  have hitem : ∀ i ∈ List.range 22, loadItem (nodeBytes m.mem x) (i * 720) = itemAt m.mem (slotPtr x i) :=
    fun i hi => loadItem_nodeBytes m.mem hp (List.mem_range.mp hi)
  rw [findItem, hitIn, findSlot, slotsOf, List.find?_map, List.find?_map, Option.map_map]
  have htest : ∀ i ∈ List.range 22,
      ((fun d : DataItem => d.valid != 0 && d.key == it.key && d.tableId == it.tableId) ∘
        fun i => loadItem (nodeBytes m.mem x) (i * 720)) i =
      ((fun slot => holds it.key (itemAt m.mem slot)) ∘ slotPtr x) i := by
    intro i hi
    simp only [Function.comp_apply, hitem i hi, holds]
    by_cases hv : (itemAt m.mem (slotPtr x i)).valid = 0
    · simp [hv]
    · have hslot : slotPtr x i ∈ slots (C (s.bucket (s.getHash it.key))) :=
        mem_slots.mpr ⟨x, hx, mem_slotsOf.mpr ⟨i, List.mem_range.mp hi, rfl⟩⟩
      have hown : (itemAt m.mem (slotPtr x i)).tableId = s.tableId :=
        S.owned s S.mem _ (HashStore.getHash_lt (S.layout.area s S.mem).pos it.key) _ hslot hv
      simp [hown, ht]
  rw [List.find?_congr htest]
  apply Option.map_congr
  intro i hi
  exact hitem i (List.mem_of_find?_eq_some hi)

end Site

def log (w : Cluster) (c : Client n) (i : Fin n) : List UInt64 :=
  (c.posted.filter fun r => r.item = i).map fun r => w.regionStart r.qp + r.offset

theorem log_append {c c' : Client n} {r : Request n} (h : c'.posted = c.posted ++ [r]) (i : Fin n) :
    log w c' i = if r.item = i then log w c i ++ [w.regionStart r.qp + r.offset] else log w c i := by
  unfold log
  rw [h, List.filter_append, List.map_append]
  split <;> simp_all

structure Along (w : Cluster) (node : Int32) (m : MemoryNode) (C : UInt64 → List UInt64) (s : HashStore)
    (c : Client n) (e : HashRead n) : Prop where
  qp : e.qp = node
  table : e.table = hashMeta s
  path : ∃ pre x post, bucketChain C s (c.readerSet e.item).item.key = pre ++ x :: post ∧
    (∀ y ∈ pre, hitIn m (c.readerSet e.item).item.key y = none) ∧ log w c e.item = pre ++ [x] ∧
    e.buf = nodeBytes m.mem x

theorem Along.of_same {c c' : Client n} {e : HashRead n} (h : Along w node m C s c e)
    (hk : (c'.readerSet e.item).item.key = (c.readerSet e.item).item.key)
    (hl : log w c' e.item = log w c e.item) : Along w node m C s c' e := by
  refine ⟨h.qp, h.table, ?_⟩
  rw [hk, hl]
  exact h.path

def firstRead (w : Cluster) (node : Int32) (s : HashStore) (i : Fin n) (key : UInt64) : HashRead n :=
  ⟨node, i, w.bytes node (bucketOff (hashMeta s) key), node, hashMeta s⟩

structure Reading (w : Cluster) (node : Int32) (m : MemoryNode) (C : UInt64 → List UInt64) (s : HashStore)
    (c₀ : Client n) (D : Fin n → Prop) (c : Client n) (l : List (HashRead n)) : Prop where
  kept : Kept c₀ c
  wanted : ∀ e ∈ l, D e.item
  along : ∀ e ∈ l, Along w node m C s c e
  nodup : (l.map HashRead.item).Nodup
  table : ∀ i, D i → (c.readerSet i).item.tableId = s.tableId
  logs : ∀ i, D i → log w c i <+: upTo (hitIn m (c.readerSet i).item.key)
    (bucketChain C s (c.readerSet i).item.key)
  found : ∀ i, D i → (c.readerSet i).isFetched = true →
    ∃ p, lookup m.mem (bucketChain C s (c.readerSet i).item.key) (c.readerSet i).item.key = some p ∧
      (c.readerSet i).item = itemAt m.mem p
  pending : ∀ i, D i → (c.readerSet i).isFetched = true ∨ ∃ e ∈ l, e.item = i

theorem mem_replaced {a b : List (HashRead n)} {e e' q : HashRead n}
    (hn : ((a ++ e :: b).map HashRead.item).Nodup) (hq : q ∈ a ++ e' :: b) :
    q = e' ∨ q ∈ a ++ e :: b ∧ q.item ≠ e.item := by
  rw [List.map_append, List.map_cons, List.nodup_middle, ← List.map_append] at hn
  have hne : ∀ q ∈ a ++ b, q.item ≠ e.item := by
    intro q hq h
    exact (List.nodup_cons.mp hn).1 (h ▸ List.mem_map_of_mem hq)
  rcases List.mem_append.mp hq with hq | hq
  · exact .inr ⟨List.mem_append_left _ hq, hne q (List.mem_append_left _ hq)⟩
  · rcases List.mem_cons.mp hq with rfl | hq
    · exact .inl rfl
    · exact .inr ⟨by simp [hq], hne q (List.mem_append_right _ hq)⟩

theorem split_at {l : List (HashRead n)} {j : ℕ} {e : HashRead n} (e' : HashRead n) (h : l[j]? = some e) :
    ∃ a b, l = a ++ e :: b ∧ l.set j e' = a ++ e' :: b := by
  obtain ⟨hj, rfl⟩ := List.getElem?_eq_some_iff.mp h
  refine ⟨l.take j, l.drop (j + 1), ?_, ?_⟩
  · rw [← List.drop_eq_getElem_cons hj, List.take_append_drop]
  · rw [List.set_eq_take_append_cons_drop, if_pos hj]

namespace Reading

variable {c₀ c : Client n} {D : Fin n → Prop} {l l' : List (HashRead n)} {e : HashRead n}

theorem of_client {c' : Client n} (R : Reading w node m C s c₀ D c l) (hs : c'.readerSet = c.readerSet)
    (hp : c'.posted = c.posted) : Reading w node m C s c₀ D c' l := by
  obtain ⟨rs, _, po, _⟩ := c
  obtain ⟨rs', _, po', _⟩ := c'
  obtain rfl : rs' = rs := hs
  obtain rfl : po' = po := hp
  exact ⟨⟨R.kept.key, R.kept.table⟩, R.wanted, fun e he => (R.along e he).of_same rfl rfl, R.nodup, R.table,
    R.logs, R.found, R.pending⟩

theorem congr {D' : Fin n → Prop} (R : Reading w node m C s c₀ D c l) (h : ∀ i, D' i ↔ D i) :
    Reading w node m C s c₀ D' c l := by
  have hD : D' = D := funext fun i => propext (h i)
  rw [hD]
  exact R

theorem perm (R : Reading w node m C s c₀ D c l) (h : l.Perm l') : Reading w node m C s c₀ D c l' := by
  refine ⟨R.kept, ?_, ?_, ?_, R.table, R.logs, R.found, ?_⟩
  · intro e he
    exact R.wanted e (h.mem_iff.mpr he)
  · intro e he
    exact R.along e (h.mem_iff.mpr he)
  · exact (h.map HashRead.item).nodup_iff.mp R.nodup
  · intro i hi
    rcases R.pending i hi with hf | ⟨e, he, hei⟩
    · exact .inl hf
    · exact .inr ⟨e, h.mem_iff.mp he, hei⟩

theorem drop (R : Reading w node m C s c₀ D c (e :: l)) (hf : (c.readerSet e.item).isFetched = true) :
    Reading w node m C s c₀ D c l := by
  refine ⟨R.kept, ?_, ?_, (List.nodup_cons.mp R.nodup).2, R.table, R.logs, R.found, ?_⟩
  · intro q hq
    exact R.wanted q (List.mem_cons_of_mem e hq)
  · intro q hq
    exact R.along q (List.mem_cons_of_mem e hq)
  · intro i hi
    rcases R.pending i hi with h | ⟨q, hq, rfl⟩
    · exact .inl h
    · rcases List.mem_cons.mp hq with rfl | hq
      · exact .inl hf
      · exact .inr ⟨q, hq, rfl⟩

theorem findItem_eq (R : Reading w node m C s c₀ D c l) (S : Site w node m C s) (he : e ∈ l) {x : UInt64}
    (hx : x ∈ bucketChain C s (c.readerSet e.item).item.key) :
    findItem (nodeBytes m.mem x) (c.readerSet e.item).item =
      (hitIn m (c.readerSet e.item).item.key x).map (itemAt m.mem) :=
  S.findItem_eq (R.table _ (R.wanted e he)) hx

theorem fetch (R : Reading w node m C s c₀ D c l) (S : Site w node m C s) (he : e ∈ l) {d : DataItem}
    (hd : findItem e.buf (c.readerSet e.item).item = some d) :
    Reading w node m C s c₀ D (c.fetch e.item d) l := by
  obtain ⟨-, hk, ht⟩ := findItem_spec hd
  have hkept : Kept c (c.fetch e.item d) := .fetch hk ht
  refine ⟨R.kept.trans hkept, R.wanted, ?_, R.nodup, ?_, ?_, ?_, ?_⟩
  · intro q hq
    exact (R.along q hq).of_same (hkept.key _) rfl
  · intro i hi
    rw [hkept.table]
    exact R.table i hi
  · intro i hi
    rw [hkept.key]
    exact R.logs i hi
  · intro i hi hf
    rw [hkept.key]
    by_cases hie : i = e.item
    · subst hie
      obtain ⟨pre, x, post, hchain, hpre, -, hbuf⟩ := (R.along e he).path
      rw [hbuf, R.findItem_eq S he (by simp [hchain])] at hd
      obtain ⟨p, hp, rfl⟩ := Option.map_eq_some_iff.mp hd
      refine ⟨p, ?_, by rw [Client.fetch_self]⟩
      rw [hchain]
      exact lookup_of_hit hpre hp
    · rw [Client.fetch_other c d hie] at hf ⊢
      exact R.found i hi hf
  · intro i hi
    by_cases hie : i = e.item
    · left
      rw [hie, Client.fetch_self]
    · rw [Client.fetch_other c d hie]
      exact R.pending i hi

theorem advance {a b : List (HashRead n)} {c' : Client n} (R : Reading w node m C s c₀ D c (a ++ e :: b))
    (S : Site w node m C s) (hm : Misses c e e.buf) (h0 : readWord e.buf 15840 ≠ 0)
    (hs : c'.readerSet = c.readerSet)
    (hp : c'.posted = c.posted ++ [⟨e.item, e.qp, nextOff e.table (readWord e.buf 15840), 15848⟩]) :
    Reading w node m C s c₀ D c' (a ++ e.advance w :: b) := by
  have he : e ∈ a ++ e :: b := by simp
  have hA := R.along e he
  obtain ⟨pre, x, post, hchain, hpre, hlog, hbuf⟩ := hA.path
  have hmiss : hitIn m (c.readerSet e.item).item.key x = none := by
    rw [Misses, hbuf, R.findItem_eq S he (by simp [hchain])] at hm
    simpa using hm
  have hc := S.chain (c.readerSet e.item).item.key
  rw [hchain] at hc
  rw [hbuf, next_nodeBytes] at h0
  -- The link is not null, so the chain goes on and its next node is the one that is read.
  obtain ⟨y, rest, rfl⟩ : ∃ y rest, post = y :: rest := by
    cases post with
    | nil => exact absurd hc.next_last h0
    | cons y rest => exact ⟨y, rest, rfl⟩
  have hy : nextOf m.mem x = y := hc.next_eq
  have hpre' : ∀ z ∈ pre ++ [x], hitIn m (c.readerSet e.item).item.key z = none := by
    intro z hz
    rcases List.mem_append.mp hz with hz | hz
    · exact hpre z hz
    · rw [List.mem_singleton.mp hz]
      exact hmiss
  have hself : log w c' e.item = pre ++ [x] ++ [y] := by
    rw [log_append hp, if_pos rfl, hlog, hA.table, hA.qp, S.published.next_addr, hbuf, next_nodeBytes, hy]
  have hother : ∀ i, i ≠ e.item → log w c' i = log w c i := by
    intro i hi
    rw [log_append hp, if_neg (Ne.symm hi)]
  have hitems : (a ++ e.advance w :: b).map HashRead.item = (a ++ e :: b).map HashRead.item := by
    simp [HashRead.advance]
  refine ⟨⟨fun i => hs ▸ R.kept.key i, fun i => hs ▸ R.kept.table i⟩, ?_, ?_, hitems ▸ R.nodup,
    ?_, ?_, ?_, ?_⟩
  · intro q hq
    rcases mem_replaced R.nodup hq with rfl | ⟨hq, -⟩
    · exact R.wanted e he
    · exact R.wanted q hq
  · intro q hq
    rcases mem_replaced R.nodup hq with rfl | ⟨hq, hne⟩
    · refine ⟨hA.qp, hA.table, pre ++ [x], y, rest, ?_, ?_, hself, ?_⟩
      · rw [hs]
        simp [HashRead.advance, hchain]
      · rw [hs]
        exact hpre'
      · simp only [HashRead.advance]
        rw [hA.qp, hA.table, S.published.bytes_next, S.region, hbuf, next_nodeBytes, hy]
    · exact (R.along q hq).of_same (by rw [hs]) (hother _ hne)
  · intro i hi
    rw [hs]
    exact R.table i hi
  · intro i hi
    rw [hs]
    by_cases hie : i = e.item
    · subst hie
      rw [hself, hchain]
      have h := prefix_upTo (pre ++ [x]) y rest hpre'
      rwa [List.append_assoc pre [x] (y :: rest)] at h
    · rw [hother i hie]
      exact R.logs i hi
  · intro i hi hf
    rw [hs] at hf ⊢
    exact R.found i hi hf
  · intro i hi
    rw [hs]
    rcases R.pending i hi with hf | ⟨q, hq, rfl⟩
    · exact .inl hf
    · right
      have : q.item ∈ (a ++ e.advance w :: b).map HashRead.item := hitems ▸ List.mem_map_of_mem hq
      exact List.mem_map.mp this

theorem absent (R : Reading w node m C s c₀ D c l) (S : Site w node m C s) (he : e ∈ l)
    (hm : Misses c e e.buf) (h0 : readWord e.buf 15840 = 0) :
    lookup m.mem (bucketChain C s (c.readerSet e.item).item.key) (c.readerSet e.item).item.key = none := by
  obtain ⟨pre, x, post, hchain, hpre, -, hbuf⟩ := (R.along e he).path
  have hx : x ∈ bucketChain C s (c.readerSet e.item).item.key := by simp [hchain]
  have hmiss : hitIn m (c.readerSet e.item).item.key x = none := by
    rw [Misses, hbuf, R.findItem_eq S he hx] at hm
    simpa using hm
  have hc := S.chain (c.readerSet e.item).item.key
  rw [hbuf, next_nodeBytes] at h0
  have hpost : post = [] := by
    cases post with
    | nil => rfl
    | cons y post =>
      rw [hchain] at hc
      have hy := hc.next_eq
      exact absurd (hy.symm.trans h0) (hc.ne_null (by simp))
  rw [hchain, hpost]
  apply lookup_of_misses
  intro y hy
  rcases List.mem_append.mp hy with hy | hy
  · exact hpre y hy
  · rw [List.mem_singleton.mp hy]
    exact hmiss

def Absent (m : MemoryNode) (C : UInt64 → List UInt64) (s : HashStore) (D : Fin n → Prop)
    (c : Client n) : Prop :=
  ∃ i, D i ∧ lookup m.mem (bucketChain C s (c.readerSet i).item.key) (c.readerSet i).item.key = none

theorem checkHashRO_reading (S : Site w node m C s) (hw : ∀ k, w.accepts k = true) (hash : List (HashRead n))
    {next : List (HashRead n)} (R : Reading w node m C s c₀ D c (hash ++ next)) {ok : Bool} {c' : Client n}
    {next' : List (HashRead n)} (h : checkHashRO w hash c next = (ok, c', next')) :
    (∃ l', Reading w node m C s c₀ D c' l') ∧ (ok = true → Reading w node m C s c₀ D c' next') ∧
      (ok = false → Absent m C s D c') := by
  induction hash generalizing c next with
  | nil =>
    obtain ⟨rfl, rfl, rfl⟩ : true = ok ∧ c = c' ∧ next = next' := by simpa [checkHashRO] using h
    exact ⟨⟨next, R⟩, fun _ => R, nofun⟩
  | cons e rest ih =>
    have he : e ∈ (e :: rest) ++ next := by simp
    cases hd : findItem e.buf (c.readerSet e.item).item with
    | some d =>
      simp only [checkHashRO, hd] at h
      apply ih ((R.fetch S he hd).drop ?_) h
      rw [Client.fetch_self]
    | none =>
      simp only [checkHashRO, hd] at h
      by_cases h0 : readWord e.buf 15840 = 0
      · rw [if_pos h0] at h
        obtain ⟨rfl, rfl, rfl⟩ : false = ok ∧ c = c' ∧ next = next' := by simpa using h
        exact ⟨⟨_, R⟩, nofun, fun _ => ⟨e.item, R.wanted e he, R.absent S he hd h0⟩⟩
      · rw [if_neg h0] at h
        simp only [readNext, Client.rdmaRead_ok _ _ (hw _), if_true] at h
        have R' : Reading w node m C s c₀ D { c with posted := c.posted ++
            [⟨e.item, e.qp, nextOff e.table (readWord e.buf 15840), 15848⟩] }
            ([] ++ e.advance w :: (rest ++ next)) := R.advance S hd h0 rfl rfl
        apply ih (R'.perm ?_) h
        rw [List.nil_append, ← List.append_assoc]
        exact (List.perm_append_singleton _ _).symm

theorem walkRound_reading (S : Site w node m C s) (hw : ∀ k, w.accepts k = true) {v : Walk n}
    (R : Reading w node m C s c₀ D v.client v.pending) :
    (∀ t, walkRound w v = .inl t → Reading w node m C s c₀ D t.client t.pending) ∧
      ∀ b t, walkRound w v = .inr (b, t) → Reading w node m C s c₀ D t.client t.pending ∧
        (b = true → t.pending = []) ∧ (b = false → Absent m C s D t.client) := by
  unfold walkRound
  cases hp : v.pos with
  | none =>
    dsimp only
    split
    · rename_i hnil
      refine ⟨by simp, ?_⟩
      rintro b t ⟨⟩
      exact ⟨R, fun _ => hnil, by simp⟩
    · refine ⟨?_, by simp⟩
      rintro t ⟨⟩
      exact R.of_client rfl rfl
  | some j =>
    dsimp only
    cases he : v.pending[j]? with
    | none =>
      refine ⟨?_, by simp⟩
      rintro t ⟨⟩
      exact R
    | some e =>
      have hmem := List.mem_of_getElem? he
      dsimp only [nextRound]
      cases hd : findItem e.buf (v.client.readerSet e.item).item with
      | some d =>
        refine ⟨?_, by simp⟩
        rintro t ⟨⟩
        exact R.fetch S hmem hd
      | none =>
        dsimp only
        by_cases h0 : readWord e.buf 15840 = 0
        · rw [if_pos h0]
          refine ⟨by simp, ?_⟩
          rintro b t ⟨⟩
          exact ⟨R, by simp, fun _ => ⟨e.item, R.wanted e hmem, R.absent S hmem hd h0⟩⟩
        · rw [if_neg h0]
          simp only [readNext, Client.rdmaRead_ok _ _ (hw _), if_true]
          refine ⟨?_, by simp⟩
          rintro t ⟨⟩
          obtain ⟨a, b, hab, hset⟩ := split_at (e.advance w) he
          rw [hab] at R
          dsimp only
          rw [← HashRead.advance, hset]
          exact R.advance S hd h0 rfl rfl

theorem issue {D' : Fin n → Prop} {c' : Client n} {i : Fin n} (R : Reading w node m C s c₀ D c l)
    (S : Site w node m C s) (hD : ∀ j, D' j ↔ D j ∨ j = i) (hi : ¬ D i)
    (hf : ∀ j, D' j → (c.readerSet j).isFetched = false)
    (ht : (c.readerSet i).item.tableId = s.tableId) (hl : log w c i = []) (ha : Asked c c')
    (hp : c'.posted = c.posted ++ [⟨i, node, bucketOff (hashMeta s) (c.readerSet i).item.key, 15848⟩]) :
    Reading w node m C s c₀ D' c' (l ++ [firstRead w node s i (c.readerSet i).item.key]) := by
  have hself : log w c' i = [s.bucket (s.getHash (c.readerSet i).item.key)] := by
    rw [log_append hp, if_pos rfl, hl, S.published.bucket_addr]
    rfl
  have hother : ∀ j, D j → log w c' j = log w c j := by
    intro j hj
    rw [log_append hp, if_neg]
    rintro rfl
    exact hi hj
  have hroot := S.layout.root_mem S.mem (c.readerSet i).item.key
  obtain ⟨post, hpost, -⟩ := (S.chain (c.readerSet i).item.key).eq_cons (S.layout.chain_ne_nil hroot)
  have hnew : ∀ q, q ∈ l ++ [firstRead w node s i (c.readerSet i).item.key] →
      q ∈ l ∨ q = firstRead w node s i (c.readerSet i).item.key := by
    intro q hq
    simpa using hq
  refine ⟨R.kept.trans ha.toKept, ?_, ?_, ?_, ?_, ?_, ?_, ?_⟩
  · intro q hq
    rcases hnew q hq with hq | rfl
    · exact (hD _).mpr (.inl (R.wanted q hq))
    · exact (hD _).mpr (.inr rfl)
  · intro q hq
    rcases hnew q hq with hq | rfl
    · exact (R.along q hq).of_same (ha.key _) (hother _ (R.wanted q hq))
    · refine ⟨rfl, rfl, [], _, post, ?_, by simp, hself, ?_⟩
      · rw [ha.key]
        exact hpost
      · rw [firstRead, S.published.bytes_bucket, S.region]
  · rw [List.map_append, List.nodup_append]
    refine ⟨R.nodup, by simp, ?_⟩
    intro j hj k hk hjk
    obtain ⟨q, hq, rfl⟩ := List.mem_map.mp hj
    obtain rfl : k = i := List.mem_singleton.mp hk
    exact hi (hjk ▸ R.wanted q hq)
  · intro j hj
    rw [ha.table]
    rcases (hD j).mp hj with hj | rfl
    · exact R.table j hj
    · exact ht
  · intro j hj
    rw [ha.key]
    rcases (hD j).mp hj with hj | rfl
    · rw [hother j hj]
      exact R.logs j hj
    · rw [hself, hpost]
      exact prefix_upTo [] _ post (by simp)
  · intro j hj hfetched
    rw [ha.fetched, hf j hj] at hfetched
    cases hfetched
  · intro j hj
    right
    rcases (hD j).mp hj with hj' | rfl
    · rcases R.pending j hj' with h | ⟨q, hq, hqj⟩
      · rw [hf j hj] at h
        cases h
      · exact ⟨q, List.mem_append_left _ hq, hqj⟩
    · exact ⟨_, List.mem_append_right _ (List.mem_singleton_self _), rfl⟩

end Reading

def Wanted (c : Client n) (i : Fin n) : Prop := (c.readerSet i).isFetched = false

theorem issueItem_returns {i : Fin n} {c : Client n} {p : Pending n} {table : HashMeta}
    (hn : w.manager.primaryTableNodes (c.readerSet i).item.tableId = some node)
    (ht : w.manager.primaryHashMetas (c.readerSet i).item.tableId = some table) :
    ∃ r, issueItem w i c p = .ok r := by
  simp only [issueItem, getPrimaryNodeID_ok.mpr hn, getPrimaryHashMeta_ok.mpr ht, bind, Except.bind]
  split
  · exact ⟨_, rfl⟩
  · split <;> exact ⟨_, rfl⟩

theorem issueLoop_reading (S : Site w node m C s) (hw : ∀ k, w.accepts k = true) {c₀ c : Client n}
    (h0 : ∀ i, Wanted c₀ i → (c₀.readerSet i).item.tableId = s.tableId ∧ (c₀.readerSet i).offset = notFound)
    {is : List (Fin n)} {p : Pending n} (hn : is.Nodup) (hd : p.direct = []) (ha : Asked c₀ c)
    (hl : ∀ i ∈ is, log w c i = [])
    (R : Reading w node m C s c₀ (fun i => Wanted c₀ i ∧ i ∉ is) c p.hash) :
    ∃ c' p', issueLoop w is c p = .ok (true, c', p') ∧ p'.direct = [] ∧
      Reading w node m C s c₀ (Wanted c₀) c' p'.hash := by
  induction is generalizing c p with
  | nil => exact ⟨c, p, rfl, hd, by simpa using R⟩
  | cons i is ih =>
    obtain ⟨hi, hn⟩ := List.nodup_cons.mp hn
    have hrest : ∀ j ∈ is, log w c j = [] := fun j hj => hl j (List.mem_cons_of_mem i hj)
    rw [issueLoop]
    by_cases hf : (c.readerSet i).isFetched = true
    · -- The item was fetched before and is passed over.
      have hstep : issueItem w i c p = .ok (true, c, p) := if_pos hf
      have hnot : ¬ Wanted c₀ i := by
        rw [Wanted, ← ha.fetched, hf]
        exact Bool.noConfusion
      simp only [hstep, bind, Except.bind, if_true]
      apply ih hn hd ha hrest
      apply R.congr
      intro j
      by_cases hj : j = i
      · simp [hj, hnot]
      · simp [hj]
    · rw [Bool.not_eq_true] at hf
      have hwant : Wanted c₀ i := by rwa [Wanted, ← ha.fetched]
      obtain ⟨htab, hoff⟩ := h0 i hwant
      rw [← ha.table] at htab
      rw [← ha.offset] at hoff
      have hplace := S.published.place
      have hmeta := S.published.table
      rw [← htab] at hplace hmeta
      obtain ⟨⟨ok, c₁, p₁⟩, hstep⟩ := issueItem_returns (p := p) hplace hmeta
      rcases issueItem_ok hstep with ⟨hf', -⟩ | ⟨-, hok, ha₁, r, hr, hpost⟩
      · rw [hf] at hf'
        cases hf'
      · rw [hw] at hok
        subst hok
        simp only [hstep, bind, Except.bind, if_true] at hpost ⊢
        cases hr with
        | direct hn ho => exact absurd hoff ho
        | hash hn' ht' ho =>
          obtain rfl := Option.some.inj (hn'.symm.trans hplace)
          obtain rfl := Option.some.inj (ht'.symm.trans hmeta)
          refine ih hn ?_ (ha.trans ha₁) ?_ ?_
          · exact hd
          · intro j hj
            rw [log_append hpost, if_neg, hrest j hj]
            rintro rfl
            exact hi hj
          · apply R.issue S ?_ (by simp) ?_ htab (hl i List.mem_cons_self) ha₁ hpost
            · intro j
              by_cases hj : j = i
              · simp [hj, hi, hwant]
              · simp [hj]
            · intro j hj
              rw [ha.fetched]
              exact hj.1

theorem issueReader_reading (S : Site w node m C s) (hw : ∀ k, w.accepts k = true) {c₀ : Client n}
    (hl : c₀.posted = [])
    (h0 : ∀ i, Wanted c₀ i → (c₀.readerSet i).item.tableId = s.tableId ∧ (c₀.readerSet i).offset = notFound) :
    ∃ c p, issueReader w c₀ = .ok (true, c, p) ∧ p.direct = [] ∧
      Reading w node m C s c₀ (Wanted c₀) c p.hash := by
  have hasked : Asked c₀ c₀ := ⟨.refl c₀, fun _ => rfl, fun _ => rfl, rfl⟩
  apply issueLoop_reading S hw h0 (List.nodup_finRange n) rfl hasked
  · intro i _
    simp [log, hl]
  · constructor <;> simp [Kept.refl]

def walkOf : Walk n ⊕ Bool × Walk n → Walk n
  | .inl v => v
  | .inr (_, v) => v

theorem checkReadRO_reading (S : Site w node m C s) (hw : ∀ k, w.accepts k = true) {c₀ c : Client n}
    {D : Fin n → Prop} {hash : List (HashRead n)} (R : Reading w node m C s c₀ D c hash) (fuel : ℕ) :
    ∃ out, checkReadRO w [] hash c fuel = .ok out ∧
      (∃ l, Reading w node m C s c₀ D (walkOf out).client l) ∧
      (∀ v, out = .inr (true, v) → Reading w node m C s c₀ D v.client []) ∧
      ∀ v, out = .inr (false, v) → Reading.Absent m C s D v.client := by
  obtain ⟨ok, c₁, next, hcheck⟩ : ∃ ok c₁ next, checkHashRO w hash c [] = (ok, c₁, next) := ⟨_, _, _, rfl⟩
  obtain ⟨hany, htrue, hfalse⟩ := Reading.checkHashRO_reading S hw hash (by simpa using R) hcheck
  have heq : checkReadRO w [] hash c fuel = .ok (if ok then run (walkRound w) fuel ⟨c₁, next, none⟩
      else .inr (false, ⟨c₁, next, none⟩)) := by
    simp only [checkReadRO, checkDirectRO, bind, Except.bind, if_true, hcheck, pure, Except.pure]
    split <;> rfl
  refine ⟨_, heq, ?_⟩
  cases ok with
  | false =>
    refine ⟨hany, nofun, ?_⟩
    rintro v ⟨⟩
    exact hfalse rfl
  | true =>
    have hinv : ∀ u v : Walk n, Reading w node m C s c₀ D u.client u.pending → walkRound w u = .inl v →
        Reading w node m C s c₀ D v.client v.pending :=
      fun u v hu => (Reading.walkRound_reading S hw hu).1 v
    have hpost : ∀ (u : Walk n) (r : Bool × Walk n), Reading w node m C s c₀ D u.client u.pending →
        walkRound w u = .inr r → Reading w node m C s c₀ D r.2.client r.2.pending ∧
          (r.1 = true → r.2.pending = []) ∧ (r.1 = false → Reading.Absent m C s D r.2.client) :=
      fun u r hu => (Reading.walkRound_reading S hw hu).2 r.1 r.2
    have hstart : Reading w node m C s c₀ D (⟨c₁, next, none⟩ : Walk n).client
        (⟨c₁, next, none⟩ : Walk n).pending := htrue rfl
    simp only [if_true]
    cases hrun : run (walkRound w) fuel ⟨c₁, next, none⟩ with
    | inl v =>
      have hv := run_inv hinv hstart hrun
      exact ⟨⟨_, hv⟩, nofun, nofun⟩
    | inr r =>
      obtain ⟨hr, ht, hf⟩ := run_post hinv hpost hstart hrun
      refine ⟨⟨_, hr⟩, ?_, ?_⟩
      · rintro v ⟨⟩
        have hnil := ht rfl
        dsimp only at hr hnil
        rwa [hnil] at hr
      · rintro v ⟨⟩
        exact hf rfl

def localGetNodes (s : HashStore) (mem : Memory) (key : UInt64) (fuel : ℕ) : List UInt64 :=
  (visited (searchBody mem key) fuel (s.bucket (s.getHash key))).filter (· ≠ 0)

structure LookupAgrees (w : Cluster) (s : HashStore) (mem : Memory) (c₀ : Client n)
    (out : Walk n ⊕ Bool × Walk n) : Prop where
  addresses : ∀ i, Wanted c₀ i → ∃ fuel r, s.localGet mem (c₀.readerSet i).item.key fuel = .ok r ∧
    log w (walkOf out).client i <+: localGetNodes s mem (c₀.readerSet i).item.key fuel
  found : ∀ v, out = .inr (true, v) → ∀ i, Wanted c₀ i → (v.client.readerSet i).isFetched = true ∧
    ∃ fuel p, s.localGet mem (c₀.readerSet i).item.key fuel = .ok (some p) ∧
      (v.client.readerSet i).item = itemAt mem p
  absent : ∀ v, out = .inr (false, v) → ∃ i, Wanted c₀ i ∧
    ∃ fuel, s.localGet mem (c₀.readerSet i).item.key fuel = .ok none

theorem upTo_map_some {α β : Type} (f : α → Option β) (ns : List α) :
    upTo (fun x => (f x).map some) ns = upTo f ns := by
  induction ns with
  | nil => rfl
  | cons a ns ih => simp only [upTo, ih, Option.isSome_map]

theorem Site.localGetNodes_eq (S : Site w node m C s) (key : UInt64) :
    localGetNodes s m.mem key ((bucketChain C s key).length + 1) =
      upTo (hitIn m key) (bucketChain C s key) := by
  rw [localGetNodes, searchBody, walk_visited (S.chain key), upTo_map_some]
  rfl

theorem run_lookupAgrees {n₀ : MemoryNode} {h : List (Op × Reply)} (hf : Fresh n₀)
    (hrun : Run LoadCall n₀ h m)
    (hs : s ∈ m.tables) (P : Published w node s) (hreg : w.region node = m.mem)
    (hw : ∀ k, w.accepts k = true) (c₀ : Client n) (hl : c₀.posted = [])
    (h0 : ∀ i, Wanted c₀ i → (c₀.readerSet i).item.tableId = s.tableId ∧ (c₀.readerSet i).offset = notFound) :
    ∃ c p, issueReader w c₀ = .ok (true, c, p) ∧ p.direct = [] ∧
      ∀ fuel, ∃ out, checkReadRO w p.direct p.hash c fuel = .ok out ∧ LookupAgrees w s m.mem c₀ out := by
  obtain ⟨C, L, H⟩ := hrun.loaded hf
  have S : Site w node m C s := ⟨L, H.owned, hs, P, hreg⟩
  obtain ⟨c, p, hissue, hd, R⟩ := issueReader_reading S hw hl h0
  refine ⟨c, p, hissue, hd, ?_⟩
  intro fuel
  rw [hd]
  obtain ⟨out, hout, ⟨l, Rl⟩, htrue, hfalse⟩ := checkReadRO_reading S hw R fuel
  have hget : ∀ key, s.localGet m.mem key ((bucketChain C s key).length + 1) =
      .ok (lookup m.mem (bucketChain C s key) key) :=
    fun key => localGet_eq (S.chain key) (Nat.lt_succ_self _)
  refine ⟨out, hout, ?_, ?_, ?_⟩
  · intro i hi
    refine ⟨_, _, hget _, ?_⟩
    rw [S.localGetNodes_eq, ← Rl.kept.key]
    exact Rl.logs i hi
  · intro v hv i hi
    have Rv := htrue v hv
    have hfetched : (v.client.readerSet i).isFetched = true := by
      rcases Rv.pending i hi with h | ⟨e, he, -⟩
      · exact h
      · cases he
    obtain ⟨p, hp, hitem⟩ := Rv.found i hi hfetched
    rw [Rv.kept.key] at hp
    exact ⟨hfetched, _, p, (hget _).trans (congrArg Except.ok hp), hitem⟩
  · intro v hv
    obtain ⟨i, hi, hnone⟩ := hfalse v hv
    have hk : Kept c₀ v.client := by
      rw [hv] at Rl
      exact Rl.kept
    rw [hk.key] at hnone
    exact ⟨i, hi, _, (hget _).trans (congrArg Except.ok hnone)⟩

def twoReaders : Client 2 :=
  ⟨fun i => ⟨smallItem 1 (if i = 0 then 5 else 7), false, notFound, 0⟩, fun _ _ => none, [], 0⟩

theorem run_lookupAgrees_two_keys :
    ∃ h m s c p, Run LoadCall smallNode h m ∧ s ∈ m.tables ∧ Published (serving m) 0 s ∧
      issueReader (serving m) twoReaders = .ok (true, c, p) ∧ p.direct = [] ∧ ∀ fuel, ∃ out,
        checkReadRO (serving m) p.direct p.hash c fuel = .ok out ∧
        LookupAgrees (serving m) s m.mem twoReaders out := by
  obtain ⟨h, m, hrun, hm⟩ := replay_any LoadCall 3 smallNode
    [.build 1 1, .load 0 7 [1, 2] (Vector.replicate 664 0), .load 0 5 [3] (Vector.replicate 664 0),
      .delete 0 7]
    (fun _ m => (m.tables.find? fun s => s.tableId == 1).isSome) (by decide +kernel)
  obtain ⟨s, hs⟩ := Option.isSome_iff_exists.mp hm
  obtain ⟨C, L, -⟩ := hrun.loaded smallNode_fresh
  obtain ⟨ht, P⟩ := serving_published L hs
  obtain ⟨c, p, hc⟩ := run_lookupAgrees smallNode_fresh hrun (List.mem_of_find?_eq_some hs) P rfl
    (fun _ => rfl) twoReaders rfl fun _ _ => ⟨ht.symm, rfl⟩
  exact ⟨h, m, s, c, p, hrun, List.mem_of_find?_eq_some hs, P, hc⟩

end MetadataService.Dmc
