import MetadataService.ReadTermination
import MetadataService.StatFile

namespace MetadataService.Dmc

open ByteMemory Loops MemStore MetaExchange

variable {n : ℕ} {w : Cluster}

inductive ChainNode (w : Cluster) (node : Int32) (table : HashMeta) (key : UInt64) : UInt64 → Prop
  | first : ChainNode w node table key (bucketOff table key)
  | next {off : UInt64} (h : ChainNode w node table key off) (hne : readWord (w.bytes node off) 15840 ≠ 0) :
      ChainNode w node table key (nextOff table (readWord (w.bytes node off) 15840))

/-- The item is the content of a valid slot in the chain of the bucket of its key. -/
structure InStore (w : Cluster) (it : DataItem) : Prop where
  valid : it.valid ≠ 0
  slot : ∃ node table off k, w.manager.primaryTableNodes it.tableId = some node ∧
    w.manager.primaryHashMetas it.tableId = some table ∧ ChainNode w node table it.key off ∧ k < 22 ∧
      it = loadItem (w.bytes node off) (k * 720)

def matching (it d : DataItem) : Option DataItem :=
  if d.key = it.key ∧ d.tableId = it.tableId ∧ d.valid ≠ 0 then some d else none

def firstItem (w : Cluster) (x : DataSetItem) : Option DataItem := do
  let node ← w.manager.primaryTableNodes x.item.tableId
  if x.offset ≠ notFound then matching x.item (loadItem (w.bytes node x.offset) 0)
  else
    let table ← w.manager.primaryHashMetas x.item.tableId
    findItem (w.bytes node (bucketOff table x.item.key)) x.item

theorem matching_some {it d e : DataItem} (h : matching it d = some e) :
    e = d ∧ d.key = it.key ∧ d.tableId = it.tableId ∧ d.valid ≠ 0 := by
  unfold matching at h
  split_ifs at h with hd
  exact ⟨(Option.some.inj h).symm, hd⟩

theorem firstItem_spec {x : DataSetItem} {d : DataItem} (h : firstItem w x = some d) :
    d.key = x.item.key ∧ d.tableId = x.item.tableId := by
  obtain ⟨node, -, h⟩ := Option.bind_eq_some_iff.mp h
  split_ifs at h
  · obtain ⟨rfl, hk, ht, -⟩ := matching_some h
    exact ⟨hk, ht⟩
  · obtain ⟨table, -, h⟩ := Option.bind_eq_some_iff.mp h
    exact (findItem_spec h).2

theorem firstItem_congr {x y : DataSetItem} (hk : x.item.key = y.item.key)
    (ht : x.item.tableId = y.item.tableId) (ho : x.offset = y.offset) : firstItem w x = firstItem w y := by
  simp only [firstItem, matching, findItem, hk, ht, ho]

theorem firstItem_inStore {x : DataSetItem} {d : DataItem} (ho : x.offset = notFound)
    (h : firstItem w x = some d) : InStore w d := by
  obtain ⟨hk, ht⟩ := firstItem_spec h
  obtain ⟨node, hn, h⟩ := Option.bind_eq_some_iff.mp h
  rw [if_neg (not_not.mpr ho)] at h
  obtain ⟨table, htab, h⟩ := Option.bind_eq_some_iff.mp h
  obtain ⟨k, hmem, hload⟩ := List.mem_map.mp (List.mem_of_find?_eq_some h)
  refine ⟨(findItem_spec h).1, node, table, bucketOff table x.item.key, k, ?_, ?_, ?_, ?_, hload.symm⟩
  · rw [ht]
    exact hn
  · rw [ht]
    exact htab
  · rw [hk]
    exact .first
  · exact List.mem_range.mp hmem

structure DirectRead.First (w : Cluster) (c : Client n) (e : DirectRead n) : Prop where
  place : w.manager.primaryTableNodes (c.readerSet e.item).item.tableId = some e.qp
  home : e.remoteNode = e.qp
  offset : (c.readerSet e.item).offset ≠ notFound
  bytes : e.buf = w.bytes e.qp (c.readerSet e.item).offset

theorem DirectRead.First.firstItem {c : Client n} {e : DirectRead n} (h : e.First w c) :
    firstItem w (c.readerSet e.item) = matching (c.readerSet e.item).item (loadItem e.buf 0) := by
  simp [Dmc.firstItem, h.place, h.offset, h.bytes]

theorem HashRead.First.firstItem {c : Client n} {e : HashRead n} (h : e.First w c)
    (ho : (c.readerSet e.item).offset = notFound) :
    firstItem w (c.readerSet e.item) = findItem e.buf (c.readerSet e.item).item := by
  simp [Dmc.firstItem, h.place, h.table, ho, ← h.bytes]

section Issue

variable {is : List (Fin n)} {c c' : Client n} {p p' : Pending n} {ok : Bool}

structure Reads (w : Cluster) (c : Client n) (p : Pending n) : Prop where
  direct : ∀ e ∈ p.direct, e.First w c
  hash : ∀ e ∈ p.hash, e.First w c ∧ (c.readerSet e.item).offset = notFound
  unfetched : ∀ i ∈ p.items, (c.readerSet i).isFetched = false

theorem Reads.ask {i : Fin n} {r : Request n} (R : Reads w c p) (hf : (c.readerSet i).isFetched = false)
    (ha : Asked c c') (h : Asks w c i p r p') : Reads w c' p' := by
  have hdirect : ∀ e : DirectRead n, e.First w c → e.First w c' := by
    intro e he
    refine ⟨?_, he.home, ?_, ?_⟩
    · rw [ha.table]
      exact he.place
    · rw [ha.offset]
      exact he.offset
    · rw [ha.offset]
      exact he.bytes
  have hhash : ∀ e : HashRead n, e.First w c ∧ (c.readerSet e.item).offset = notFound →
      e.First w c' ∧ (c'.readerSet e.item).offset = notFound :=
    fun e he => ⟨he.1.of_kept ha.toKept, (ha.offset e.item).trans he.2⟩
  refine ⟨?_, ?_, ?_⟩
  · intro e he
    apply hdirect
    cases h with
    | direct hn ho =>
      rcases List.mem_append.mp he with he | he
      · exact R.direct e he
      · obtain rfl := List.mem_singleton.mp he
        exact ⟨hn, rfl, ho, rfl⟩
    | hash hn ht ho => exact R.direct e he
  · intro e he
    apply hhash
    cases h with
    | direct hn ho => exact R.hash e he
    | hash hn ht ho =>
      rcases List.mem_append.mp he with he | he
      · exact R.hash e he
      · obtain rfl := List.mem_singleton.mp he
        exact ⟨⟨hn, ht, rfl⟩, ho⟩
  · intro j hj
    rw [ha.fetched]
    rcases List.mem_cons.mp (h.items.mem_iff.mp hj) with rfl | hj
    · exact hf
    · exact R.unfetched j hj

theorem Issuing.reads (h : Issuing w is c p ok c' p') (R : Reads w c p) : Reads w c' p' := by
  induction h with
  | done => exact R
  | skip hf h ih => exact ih R
  | post hf hacc ha hs hr hp h ih => exact ih (R.ask hf ha hr)
  | fail hf hacc ha hs hr hp => exact R.ask hf ha hr

theorem issueReader_reads (h : issueReader w c = .ok (ok, c', p')) : Reads w c' p' :=
  (issueLoop_issuing h).reads ⟨by simp, by simp, by simp [Pending.items]⟩

theorem Issuing.fetched (h : Issuing w is c p ok c' p') {i : Fin n}
    (hi : (c.readerSet i).isFetched = true) : c'.readerSet i = c.readerSet i := by
  have hne : ∀ {c : Client n} {j : Fin n}, (c.readerSet i).isFetched = true →
      (c.readerSet j).isFetched = false → i ≠ j := by
    rintro c j hi hj rfl
    rw [hi] at hj
    cases hj
  induction h with
  | done => rfl
  | skip hf h ih => exact ih hi
  | post hf hacc ha hs hr hp h ih =>
    have hsame := hs i (hne hi hf)
    exact (ih ((congrArg DataSetItem.isFetched hsame).trans hi)).trans hsame
  | fail hf hacc ha hs hr hp => exact hs i (hne hi hf)

theorem Issuing.items (h : Issuing w is c p ok c' p') {i : Fin n} (hi : i ∈ p.items) : i ∈ p'.items := by
  induction h with
  | done => exact hi
  | skip hf h ih => exact ih hi
  | post hf hacc ha hs hr hp h ih => exact ih (hr.items.mem_iff.mpr (List.mem_cons_of_mem _ hi))
  | fail hf hacc ha hs hr hp => exact hr.items.mem_iff.mpr (List.mem_cons_of_mem _ hi)

theorem Issuing.covers (h : Issuing w is c p true c' p') {i : Fin n} (hi : i ∈ is)
    (hf : (c.readerSet i).isFetched = false) : i ∈ p'.items := by
  generalize hok : true = ok at h
  induction h with
  | done => cases hi
  | skip hf' h ih =>
    rcases List.mem_cons.mp hi with rfl | hi
    · rw [hf] at hf'
      cases hf'
    · exact ih hi hf hok
  | post hf' hacc ha hs hr hp h ih =>
    rcases List.mem_cons.mp hi with rfl | hi
    · exact h.items (hr.items.mem_iff.mpr List.mem_cons_self)
    · exact ih hi ((ha.fetched i).trans hf) hok
  | fail hf' hacc ha hs hr hp => cases hok

def Client.unfetched (c : Client n) (is : List (Fin n)) : List (Fin n) :=
  is.filter fun i => !(c.readerSet i).isFetched

theorem Client.unfetched_cons {i : Fin n} (hf : (c.readerSet i).isFetched = false) :
    c.unfetched (i :: is) = i :: c.unfetched is := by
  simp [Client.unfetched, hf]

theorem Asked.unfetched (ha : Asked c c') (is : List (Fin n)) : c'.unfetched is = c.unfetched is := by
  simp only [Client.unfetched, ha.fetched]

theorem Issuing.ok_iff (h : Issuing w is c p ok c' p') :
    ok = true ↔ ∀ k < (c.unfetched is).length, w.accepts (c.posted.length + k) = true := by
  induction h with
  | done => simp [Client.unfetched]
  | skip hf h ih =>
    rw [ih]
    simp [Client.unfetched, hf]
  | @post i is c c₁ c' p p₁ p' r ok hf hacc ha hs hr hp h ih =>
    rw [ih, ha.unfetched, Client.unfetched_cons hf, hp, List.length_append, List.length_singleton,
      List.length_cons]
    constructor
    · intro hall k hk
      cases k with
      | zero => exact hacc
      | succ k =>
        rw [← Nat.add_assoc, Nat.add_right_comm]
        exact hall k (by omega)
    · intro hall k hk
      rw [Nat.add_assoc, Nat.add_comm 1]
      exact hall (k + 1) (by omega)
  | @fail i is c c₁ p p₁ r hf hacc ha hs hr hp =>
    rw [Client.unfetched_cons hf]
    constructor
    · intro h
      cases h
    · intro hall
      have := hall 0 (Nat.succ_pos _)
      rw [Nat.add_zero, hacc] at this
      cases this

end Issue

section Check

variable {c₀ c c' : Client n} {ok : Bool} {next next' : List (HashRead n)}

/-- A pass over the results of first reads. An item is fetched if its read shows it; otherwise the pass
ends, or goes on, with the reader set as it is. -/
inductive Checks (w : Cluster) (c₀ : Client n) : List (Fin n) → Client n → Bool → Client n → Prop
  | done {c : Client n} : Checks w c₀ [] c true c
  | hit {i : Fin n} {is : List (Fin n)} {c c' : Client n} {ok : Bool} {d : DataItem}
      (hd : firstItem w (c₀.readerSet i) = some d) (h : Checks w c₀ is (c.fetch i d) ok c') :
      Checks w c₀ (i :: is) c ok c'
  | stop {i : Fin n} {is : List (Fin n)} {c c' : Client n} (hd : firstItem w (c₀.readerSet i) = none)
      (hs : c'.readerSet = c.readerSet) : Checks w c₀ (i :: is) c false c'
  | later {i : Fin n} {is : List (Fin n)} {c c₁ c' : Client n} {ok : Bool}
      (hd : firstItem w (c₀.readerSet i) = none) (hs : c₁.readerSet = c.readerSet)
      (h : Checks w c₀ is c₁ ok c') : Checks w c₀ (i :: is) c ok c'

theorem Kept.hit {i : Fin n} {d : DataItem} (hk : Kept c₀ c) (hd : firstItem w (c₀.readerSet i) = some d) :
    Kept c₀ (c.fetch i d) := by
  obtain ⟨hkey, htable⟩ := firstItem_spec hd
  apply hk.trans
  apply Kept.fetch
  · rw [hkey, hk.key]
  · rw [htable, hk.table]

theorem checkDirectRO_checks {direct : List (DirectRead n)} (hd : ∀ e ∈ direct, e.First w c₀)
    (hk : Kept c₀ c) (h : checkDirectRO w direct c next = .ok (ok, c', next')) :
    Checks w c₀ (direct.map DirectRead.item) c ok c' := by
  induction direct generalizing c next with
  | nil =>
    cases h
    exact .done
  | cons e rest ih =>
    have hfirst := (hd e List.mem_cons_self).firstItem
    have hrest : ∀ e ∈ rest, e.First w c₀ := fun q hq => hd q (List.mem_cons_of_mem e hq)
    simp only [checkDirectRO, hk.key, hk.table] at h
    split_ifs at h with hmatch hvalid
    · have hsome := hfirst.trans (if_pos ⟨hmatch.1, hmatch.2, hvalid⟩)
      exact .hit hsome (ih hrest (hk.hit hsome) h)
    · have hnone := hfirst.trans (if_neg fun hd => hvalid hd.2.2)
      cases h
      exact .stop hnone rfl
    · have hnone := hfirst.trans (if_neg fun hd => hmatch ⟨hd.1, hd.2.1⟩)
      obtain ⟨node, -, h⟩ := bind_ok.mp h
      obtain ⟨table, -, h⟩ := bind_ok.mp h
      have hs := Client.rdmaRead_readerSet (w := w) c
        ⟨e.item, e.qp, bucketOff table (c₀.readerSet e.item).item.key, 15848⟩
      split_ifs at h
      · exact .later hnone hs (ih hrest (hk.same hs) h)
      · cases h
        exact .stop hnone hs

theorem checkHashRO_checks {hash : List (HashRead n)}
    (hh : ∀ e ∈ hash, e.First w c₀ ∧ (c₀.readerSet e.item).offset = notFound) (hk : Kept c₀ c)
    (h : checkHashRO w hash c next = (ok, c', next')) :
    Checks w c₀ (hash.map HashRead.item) c ok c' := by
  induction hash generalizing c next with
  | nil =>
    cases h
    exact .done
  | cons e rest ih =>
    obtain ⟨he, ho⟩ := hh e List.mem_cons_self
    have hfirst := he.firstItem ho
    have hrest : ∀ e ∈ rest, e.First w c₀ ∧ (c₀.readerSet e.item).offset = notFound :=
      fun q hq => hh q (List.mem_cons_of_mem e hq)
    rw [← findItem_congr (hk.key e.item) (hk.table e.item)] at hfirst
    simp only [checkHashRO] at h
    split at h
    · rename_i d hd
      exact .hit (hfirst.trans hd) (ih hrest (hk.hit (hfirst.trans hd)) h)
    · rename_i hnone
      have hs := Client.rdmaRead_readerSet (w := w) c
        ⟨e.item, e.qp, nextOff e.table (readWord e.buf 15840), 15848⟩
      split_ifs at h
      · cases h
        exact .stop (hfirst.trans hnone) rfl
      · exact .later (hfirst.trans hnone) hs (ih hrest (hk.same hs) h)
      · cases h
        exact .stop (hfirst.trans hnone) hs

theorem Checks.append {is js : List (Fin n)} {c₁ : Client n} (h : Checks w c₀ is c true c₁)
    (h' : Checks w c₀ js c₁ ok c') : Checks w c₀ (is ++ js) c ok c' := by
  generalize hok : true = b at h
  induction h with
  | done => exact h'
  | hit hd h ih => exact .hit hd (ih h' hok)
  | stop hd hs => cases hok
  | later hd hs h ih => exact .later hd hs (ih h' hok)

theorem Checks.append_false {is js : List (Fin n)} (h : Checks w c₀ is c false c') :
    Checks w c₀ (is ++ js) c false c' := by
  generalize hok : false = b at h
  induction h with
  | done => cases hok
  | hit hd h ih => exact .hit hd (ih hok)
  | stop hd hs => exact .stop hd hs
  | later hd hs h ih => exact .later hd hs (ih hok)

theorem Checks.kept {is : List (Fin n)} (h : Checks w c₀ is c ok c') (hk : Kept c₀ c) : Kept c₀ c' := by
  induction h with
  | done => exact hk
  | hit hd h ih => exact ih (hk.hit hd)
  | stop hd hs => exact hk.same hs
  | later hd hs h ih => exact ih (hk.same hs)

theorem Reads.checks {p : Pending n} (R : Reads w c₀ p) (h : firstCheck w p c₀ = .ok (ok, c', next)) :
    Checks w c₀ p.items c₀ ok c' := by
  obtain ⟨⟨ok₁, c₁, next₁⟩, hdirect, h⟩ := bind_ok.mp h
  have D := checkDirectRO_checks R.direct (Kept.refl c₀) hdirect
  cases ok₁ with
  | false =>
    cases h
    exact D.append_false
  | true =>
    have hhash : checkHashRO w p.hash c₁ next₁ = (ok, c', next) := Except.ok.inj h
    exact D.append (checkHashRO_checks R.hash (D.kept (Kept.refl c₀)) hhash)

def Fetches (w : Cluster) (c₀ c : Client n) : Prop :=
  ∀ i, c.readerSet i = c₀.readerSet i ∨ (c₀.readerSet i).isFetched = false ∧
    ∃ d, firstItem w (c₀.readerSet i) = some d ∧
      c.readerSet i = { c₀.readerSet i with item := d, isFetched := true }

theorem Fetches.same (F : Fetches w c₀ c) (h : c'.readerSet = c.readerSet) : Fetches w c₀ c' := by
  unfold Fetches
  rw [h]
  exact F

theorem Fetches.hit {i : Fin n} {d : DataItem} (F : Fetches w c₀ c)
    (hf : (c₀.readerSet i).isFetched = false) (hd : firstItem w (c₀.readerSet i) = some d) :
    Fetches w c₀ (c.fetch i d) := by
  intro j
  by_cases hj : j = i
  · subst hj
    refine .inr ⟨hf, d, hd, ?_⟩
    rw [Client.fetch_self]
    rcases F j with h | ⟨-, d', -, h⟩ <;> rw [h]
  · rw [Client.fetch_other c d hj]
    exact F j

theorem Checks.fetches {is : List (Fin n)} (h : Checks w c₀ is c ok c')
    (hf : ∀ i ∈ is, (c₀.readerSet i).isFetched = false) (F : Fetches w c₀ c) : Fetches w c₀ c' := by
  induction h with
  | done => exact F
  | hit hd h ih =>
    exact ih (fun j hj => hf j (List.mem_cons_of_mem _ hj)) (F.hit (hf _ List.mem_cons_self) hd)
  | stop hd hs => exact F.same hs
  | later hd hs h ih => exact ih (fun j hj => hf j (List.mem_cons_of_mem _ hj)) (F.same hs)

theorem Checks.complete {is : List (Fin n)} (h : Checks w c₀ is c ok c')
    (hall : ∀ i ∈ is, firstItem w (c₀.readerSet i) ≠ none) {i : Fin n}
    (hi : i ∈ is ∨ (c.readerSet i).isFetched = true) : (c'.readerSet i).isFetched = true := by
  induction h with
  | done => exact hi.resolve_left List.not_mem_nil
  | @hit j is c c' ok d hd h ih =>
    apply ih (fun k hk => hall k (List.mem_cons_of_mem j hk))
    by_cases hij : i = j
    · right
      rw [hij, Client.fetch_self]
    · rw [Client.fetch_other c d hij]
      exact hi.imp_left fun hmem => (List.mem_cons.mp hmem).resolve_left hij
  | stop hd hs => exact absurd hd (hall _ List.mem_cons_self)
  | later hd hs h ih => exact absurd hd (hall _ List.mem_cons_self)

theorem walkRound_readerSet (w : Cluster) (s : Walk n) : Diverges (walkRound w) s ∨
    (walkRound w s).elim (fun t => t.client.readerSet) (fun r => r.2.client.readerSet) =
      s.client.readerSet := by
  cases hp : s.pos with
  | none =>
    right
    simp only [walkRound, hp]
    split <;> rfl
  | some j =>
    cases he : s.pending[j]? with
    | none =>
      right
      simp only [walkRound, hp, he]
      rfl
    | some e =>
      by_cases hm : Misses s.client e e.buf
      · right
        have hm' : findItem e.buf (s.client.readerSet e.item).item = none := hm
        simp only [walkRound, hp, he, nextRound, hm', readNext]
        split_ifs
        · rfl
        · exact Client.rdmaRead_readerSet _ _
        · exact Client.rdmaRead_readerSet _ _
      · exact .inl (walkRound_hangs hp he hm)

theorem walk_returns_readerSet {fuel : ℕ} {s t : Walk n} {b : Bool}
    (h : run (walkRound w) fuel s = .inr (b, t)) : t.client.readerSet = s.client.readerSet := by
  induction fuel generalizing s with
  | zero => cases h
  | succ fuel ih =>
    rcases walkRound_readerSet w s with hspin | hround
    · exact absurd ⟨_, h⟩ (diverges_not_returns hspin (b, t))
    · cases hb : walkRound w s with
      | inl u =>
        rw [run_next hb] at h
        rw [hb] at hround
        exact (ih h).trans hround
      | inr r =>
        rw [run_exit hb] at h
        rw [hb, Sum.inr.inj h] at hround
        exact hround

theorem Reads.returned {p : Pending n} {fuel : ℕ} {b : Bool} {s : Walk n} (R : Reads w c₀ p)
    (h : checkReadRO w p.direct p.hash c₀ fuel = .ok (.inr (b, s))) :
    ∃ ok c', Checks w c₀ p.items c₀ ok c' ∧ s.client.readerSet = c'.readerSet := by
  rw [checkReadRO_eq] at h
  cases hfirst : firstCheck w p c₀ with
  | error e =>
    rw [hfirst] at h
    cases h
  | ok r =>
    obtain ⟨ok, c', next⟩ := r
    rw [hfirst] at h
    have hrun := Except.ok.inj h
    refine ⟨ok, c', R.checks hfirst, ?_⟩
    cases ok with
    | false =>
      cases hrun
      rfl
    | true => exact walk_returns_readerSet hrun

end Check

namespace DMC

def Unposted (w : Cluster) (d : DMC) : Prop :=
  ∃ k < (d.readerSet.filter fun x => !x.isFetched).length, w.accepts k = false

def AtHand (w : Cluster) (d : DMC) : Prop :=
  ∀ x ∈ d.readerSet, (x.isFetched = true ∧ InStore w x.item) ∨
    x.isFetched = false ∧ ∃ it, firstItem w x = some it ∧ InStore w it

structure Found (w : Cluster) (d d' : DMC) : Prop where
  asked : d'.readerSet.map (fun x => (x.item.tableId, x.item.key)) =
    d.readerSet.map fun x => (x.item.tableId, x.item.key)
  fetched : ∀ x ∈ d'.readerSet, x.isFetched = true ∧ InStore w x.item

def Present (w : Cluster) (it : DataItem) : Prop :=
  ∃ stored, stored.tableId = it.tableId ∧ stored.key = it.key ∧ InStore w stored

structure Verdict (w : Cluster) (d : DMC) (b : Bool) (d' : DMC) : Prop where
  sound : b = true → Found w d d'
  complete : (∀ k, w.accepts k = true) → (∀ x ∈ d.readerSet, Present w x.item) → b = true

theorem collect_nil (heap : ℕ → Vector UInt8 664) (d : DMC) : d.collect heap [] = d := by
  unfold collect
  split <;> rfl

inductive Returned (w : Cluster) (d : DMC) (fuel : ℕ) : Bool → DMC → Prop
  | unposted {c : Client d.readerSet.length} {p : Pending d.readerSet.length}
      (hi : issueReader w d.client = .ok (false, c, p)) : Returned w d fuel false (d.ofClient c)
  | checked {c : Client d.readerSet.length} {p : Pending d.readerSet.length} {b : Bool}
      {s : Walk d.readerSet.length} (hi : issueReader w d.client = .ok (true, c, p))
      (hc : checkReadRO w p.direct p.hash c fuel = .ok (.inr (b, s))) :
      Returned w d fuel true (d.ofClient s.client)

theorem statFile_returned {heap : ℕ → Vector UInt8 664} {path : List UInt8} {d d' : DMC} {fuel : ℕ}
    {b : Bool} (h : statFile w heap path d fuel = .ok (b, d')) : Returned w d fuel b d' := by
  obtain ⟨paths, hp, h⟩ := bind_ok.mp h
  obtain rfl := pathResolution_ok hp
  rw [collect_nil] at h
  obtain ⟨⟨ok, c, p⟩, hi, h⟩ := bind_ok.mp h
  cases ok with
  | false =>
    cases h
    exact .unposted hi
  | true =>
    obtain ⟨res, hc, h⟩ := bind_ok.mp h
    obtain ⟨⟨r, s⟩, ht, h⟩ := bind_ok.mp h
    cases res with
    | inl t => cases ht
    | inr q =>
      cases ht
      cases h
      exact .checked hi hc

structure Outcome (w : Cluster) (x y : DataSetItem) : Prop where
  key : y.item.key = x.item.key
  table : y.item.tableId = x.item.tableId
  fetched : x.isFetched = true → y = x
  shown : x.isFetched = false → y.isFetched = true → firstItem w x = some y.item

theorem Fetches.outcome {is : List (Fin n)} {c₀ c c' : Client n} {p p' : Pending n} {ok : Bool}
    (I : Issuing w is c₀ p ok c p') (F : Fetches w c c') (i : Fin n) :
    Outcome w (c₀.readerSet i) (c'.readerSet i) := by
  have ha := I.asked
  have hfirst : firstItem w (c.readerSet i) = firstItem w (c₀.readerSet i) :=
    firstItem_congr (ha.key i) (ha.table i) (ha.offset i)
  rcases F i with h | ⟨hf, d, hd, h⟩
  · rw [h]
    refine ⟨ha.key i, ha.table i, I.fetched, ?_⟩
    intro hx hy
    rw [ha.fetched, hx] at hy
    cases hy
  · obtain ⟨hkey, htable⟩ := firstItem_spec hd
    rw [h]
    refine ⟨hkey.trans (ha.key i), htable.trans (ha.table i), ?_, fun _ _ => hfirst ▸ hd⟩
    intro hx
    rw [ha.fetched, hx] at hf
    cases hf

theorem Returned.outcomes {d d' : DMC} {fuel : ℕ} (R : Returned w d fuel true d') :
    ∃ y : Fin d.readerSet.length → DataSetItem, d'.readerSet = List.ofFn y ∧
      (∀ i, Outcome w (d.readerSet.get i) (y i)) ∧
      ((∀ x ∈ d.readerSet, x.isFetched = false → firstItem w x ≠ none) → ∀ i, (y i).isFetched = true) := by
  cases R with
  | @checked c p b s hi hc =>
    have I := issueLoop_issuing hi
    have R := issueReader_reads hi
    obtain ⟨ok, c', hchecks, hset⟩ := R.returned hc
    refine ⟨c'.readerSet, congrArg List.ofFn hset, ?_, ?_⟩
    · exact Fetches.outcome I (hchecks.fetches R.unfetched fun _ => .inl rfl)
    · intro hall i
      have hfirst : ∀ j ∈ p.items, firstItem w (c.readerSet j) ≠ none := by
        intro j hj
        rw [firstItem_congr (I.asked.key j) (I.asked.table j) (I.asked.offset j)]
        exact hall _ (List.get_mem _ _) ((I.asked.fetched j).symm.trans (R.unfetched j hj))
      apply hchecks.complete hfirst
      cases hf : (d.client.readerSet i).isFetched with
      | true => exact .inr ((I.asked.fetched i).trans hf)
      | false => exact .inl (I.covers (List.mem_finRange i) hf)

theorem Returned.found_iff {d d' : DMC} {fuel : ℕ} (R : Returned w d fuel true d') :
    Found w d d' ↔ AtHand w d := by
  obtain ⟨y, hy, hout, hall⟩ := R.outcomes
  have hmem : ∀ i, y i ∈ d'.readerSet := fun i => hy ▸ List.mem_ofFn.mpr ⟨i, rfl⟩
  constructor
  · intro F x hx
    obtain ⟨i, rfl⟩ := List.mem_iff_get.mp hx
    obtain ⟨hfetched, hstore⟩ := F.fetched _ (hmem i)
    cases hf : (d.readerSet.get i).isFetched with
    | true =>
      rw [(hout i).fetched hf] at hstore
      exact .inl ⟨rfl, hstore⟩
    | false => exact .inr ⟨rfl, _, (hout i).shown hf hfetched, hstore⟩
  · intro hat
    have hfetched : ∀ i, (y i).isFetched = true := by
      apply hall
      intro x hx hf hnone
      rcases hat x hx with ⟨ht, -⟩ | ⟨-, it, hit, -⟩
      · rw [hf] at ht
        cases ht
      · rw [hnone] at hit
        cases hit
    constructor
    · rw [hy]
      apply List.ext_getElem
      · simp
      · intro i h₁ h₂
        have hi : i < d.readerSet.length := by simpa using h₂
        simp only [List.getElem_map, List.getElem_ofFn, (hout ⟨i, hi⟩).key, (hout ⟨i, hi⟩).table,
          List.get_eq_getElem]
    · intro x hx
      rw [hy] at hx
      obtain ⟨i, rfl⟩ := List.mem_ofFn.mp hx
      refine ⟨hfetched i, ?_⟩
      rcases hat _ (List.get_mem d.readerSet i) with ⟨hf, hstore⟩ | ⟨hf, it, hit, hstore⟩
      · rw [(hout i).fetched hf]
        exact hstore
      · rw [(hout i).shown hf (hfetched i)] at hit
        exact Option.some.inj hit ▸ hstore

theorem Returned.unposted_iff {d d' : DMC} {fuel : ℕ} {b : Bool} (R : Returned w d fuel b d') :
    b = false ↔ Unposted w d := by
  have hlen : (d.client.unfetched (List.finRange _)).length =
      (d.readerSet.filter fun x => !x.isFetched).length := by
    have hmap : d.readerSet = (List.finRange d.readerSet.length).map d.readerSet.get := by simp
    conv_rhs => rw [hmap, List.filter_map, List.length_map]
    rfl
  have hposts : b = true ↔ ∀ k < (d.readerSet.filter fun x => !x.isFetched).length, w.accepts k = true := by
    rw [← hlen]
    cases R with
    | unposted hi => simpa [client] using (issueLoop_issuing hi).ok_iff
    | checked hi hc => simpa [client] using (issueLoop_issuing hi).ok_iff
  rw [← Bool.not_eq_true, hposts, Unposted]
  simp

theorem statFile_verdict_iff {heap : ℕ → Vector UInt8 664} {path : List UInt8} {d d' : DMC} {fuel : ℕ}
    {b : Bool} (h : statFile w heap path d fuel = .ok (b, d')) :
    Verdict w d b d' ↔ Unposted w d ∨ AtHand w d := by
  have R := statFile_returned h
  cases b with
  | false =>
    have hun := R.unposted_iff.mp rfl
    refine iff_of_true ⟨(nomatch ·), ?_⟩ (.inl hun)
    intro hacc
    obtain ⟨k, -, hk⟩ := hun
    rw [hacc k] at hk
    cases hk
  | true =>
    have hno : ¬ Unposted w d := fun hun => by cases R.unposted_iff.mpr hun
    rw [or_iff_right hno, ← R.found_iff]
    exact ⟨fun V => V.sound rfl, fun F => ⟨fun _ => F, fun _ _ => rfl⟩⟩

def asking (key : UInt64) : DMC :=
  { newDMC AddrCache.empty with readerSet := [⟨ofFetch 0 key (blankHeap 0), false, notFound, -1⟩] }

def stats (w : Cluster) (d : DMC) (P : DMC → Bool) : Bool :=
  match statFile w blankHeap [] d 1 with
  | .ok (true, d') => P d'
  | _ => false

theorem stats_ok {d : DMC} {P : DMC → Bool} (h : stats w d P = true) :
    ∃ d', statFile w blankHeap [] d 1 = .ok (true, d') ∧ P d' = true := by
  unfold stats at h
  split at h
  · exact ⟨_, by assumption, h⟩
  · cases h

theorem statFile_verdict_iff_first_node :
    ∃ h m d', MemoryNode.Run LoadCall smallNode h m ∧
      statFile (serving m) blankHeap [] (asking 5) 1 = .ok (true, d') ∧
      Verdict (serving m) (asking 5) true d' := by
  obtain ⟨h, m, hrun, hm⟩ := MemoryNode.replay_any LoadCall 3 smallNode
    [.build 0 1, .insert 0 5 (smallItem 0 5)]
    (fun _ m => stats (serving m) (asking 5) (fun _ => true) &&
      (asking 5).readerSet.all fun x => (firstItem (serving m) x).isSome) (by decide +kernel)
  obtain ⟨hstat, hall⟩ := Bool.and_eq_true_iff.mp hm
  obtain ⟨d', hret, -⟩ := stats_ok hstat
  refine ⟨h, m, d', hrun, hret, (statFile_verdict_iff hret).mpr (.inr ?_)⟩
  intro x hx
  obtain ⟨it, hit⟩ := Option.isSome_iff_exists.mp (List.all_eq_true.mp hall x hx)
  obtain rfl := List.mem_singleton.mp hx
  exact .inr ⟨rfl, it, hit, firstItem_inStore rfl hit⟩

theorem absent_key_reported_found :
    ∃ d', statFile emptyTable blankHeap [] (asking 5) 1 = .ok (true, d') ∧
      ¬ Verdict emptyTable (asking 5) true d' := by
  obtain ⟨d', hret, hd⟩ := stats_ok (w := emptyTable) (d := asking 5)
    (P := fun d' => d'.readerSet.any fun x => !x.isFetched) (by decide +kernel)
  refine ⟨d', hret, ?_⟩
  intro V
  obtain ⟨x, hx, hf⟩ := List.any_eq_true.mp hd
  rw [((V.sound rfl).fetched x hx).1] at hf
  cases hf

end DMC

end MetadataService.Dmc
