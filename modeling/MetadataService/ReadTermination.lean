import Mathlib.Data.Set.Finite.Lattice
import MetadataService.PublishedStore

namespace MetadataService.Dmc

open ByteMemory Loops LinkedChain MemStore MetaExchange

variable {n N : ℕ} {w : Cluster}

def Cluster.ChainsWithin (w : Cluster) (N : ℕ) : Prop :=
  ∀ t node, w.manager.primaryTableNodes t = some node → ∃ s, s.tableId = t ∧ Published w node s ∧
    ∀ key, s.bucket (s.getHash key) ≠ 0 ∧
      ∃ ns, Chain (nextOf (w.region node)) 0 (s.bucket (s.getHash key)) ns ∧ ns.length ≤ N

theorem serving_chainsWithin {m : MemoryNode} {C : UInt64 → List UInt64} (L : m.Layout C) :
    ∃ N, (serving m).ChainsWithin N := by
  have hfin : Finite UInt64 := Finite.of_injective UInt64.toFin fun _ _ => UInt64.toFin_inj.mp
  obtain ⟨N, hN⟩ := (Set.finite_range fun a => (C a).length).bddAbove
  refine ⟨N, ?_⟩
  intro t node h
  obtain ⟨s, hs, rfl⟩ := Option.map_eq_some_iff.mp h
  obtain ⟨ht, P⟩ := serving_published L hs
  have hmem := List.mem_of_find?_eq_some hs
  exact ⟨s, ht, P, fun key => ⟨L.root_ne_null (L.root_mem hmem key), _, L.chain hmem key, hN ⟨_, rfl⟩⟩⟩

def firstCheck (w : Cluster) (p : Pending n) (c : Client n) :
    Except Fault (Bool × Client n × List (HashRead n)) := do
  let (ok, c, next) ← checkDirectRO w p.direct c []
  if ok then return checkHashRO w p.hash c next else return (false, c, next)

theorem checkReadRO_eq (p : Pending n) (c : Client n) (fuel : ℕ) :
    checkReadRO w p.direct p.hash c fuel = (firstCheck w p c).map fun r =>
      if r.1 then run (walkRound w) fuel ⟨r.2.1, r.2.2, none⟩ else .inr (false, ⟨r.2.1, r.2.2, none⟩) := by
  unfold checkReadRO firstCheck
  cases checkDirectRO w p.direct c [] with
  | error e => rfl
  | ok r =>
    obtain ⟨ok, c, next⟩ := r
    cases ok with
    | false => rfl
    | true =>
      simp only [bind, Except.bind, if_true, pure, Except.pure, Except.map]
      split <;> rfl

def StandsIn (m : Memory) (it : DataItem) (x : UInt64) : Prop :=
  ∃ i < 22, (loadItem m (x.toNat + i * 720)).valid ≠ 0 ∧ (loadItem m (x.toNat + i * 720)).key = it.key ∧
    (loadItem m (x.toNat + i * 720)).tableId = it.tableId

instance (m : Memory) (it : DataItem) (x : UInt64) : Decidable (StandsIn m it x) :=
  inferInstanceAs (Decidable (∃ i < 22, _))

def StandsWithin (m : Memory) (it : DataItem) (ns : List UInt64) (k : ℕ) : Prop :=
  ∃ x ∈ ns.take k, StandsIn m it x

def Bucket (w : Cluster) (it : DataItem) (ns : List UInt64) : Prop :=
  ∃ node s, w.manager.primaryTableNodes it.tableId = some node ∧ s.tableId = it.tableId ∧
    Published w node s ∧ s.bucket (s.getHash it.key) ≠ 0 ∧
    Chain (nextOf (w.region node)) 0 (s.bucket (s.getHash it.key)) ns

structure Late (n : ℕ) where
  item : Fin n
  node : Int32
  nodes : List UInt64

inductive Verdict
  | found
  | gone
  | late (node : Int32) (nodes : List UInt64)
deriving DecidableEq

def lookDirect (c : Client n) (bucket : Fin n → List UInt64) (e : DirectRead n) : Verdict :=
  let it := (c.readerSet e.item).item
  let d := loadItem e.buf 0
  if d.key ≠ it.key ∨ d.tableId ≠ it.tableId then .late e.qp (bucket e.item)
  else if d.valid = 0 then .gone else .found

def lookHash (w : Cluster) (c : Client n) (bucket : Fin n → List UInt64) (e : HashRead n) : Verdict :=
  match bucket e.item with
  | [] => .gone
  | x :: rest =>
    if StandsIn (w.region e.qp) (c.readerSet e.item).item x then .found
    else if rest = [] then .gone else .late e.qp rest

/-- What is known of the pending reads when `CheckReadRO` is called: what lies at the offset of a direct
read, and where in its bucket the item of a hash read stands. -/
def looks (w : Cluster) (c : Client n) (p : Pending n) (bucket : Fin n → List UInt64) :
    List (Fin n × Verdict) :=
  p.direct.map (fun e => (e.item, lookDirect c bucket e)) ++
    p.hash.map fun e => (e.item, lookHash w c bucket e)

def lates : List (Fin n × Verdict) → List (Late n)
  | [] => []
  | (i, .late node nodes) :: vs => ⟨i, node, nodes⟩ :: lates vs
  | (_, .found) :: vs => lates vs
  | (_, .gone) :: vs => lates vs

def Late.Within (w : Cluster) (c : Client n) (r : Late n) (k : ℕ) : Prop :=
  StandsWithin (w.region r.node) (c.readerSet r.item).item r.nodes k

/-- The item of `q` is in none of the first `k + 1` nodes that are left for `q`, and these are all, or the
post for the next one is refused. No other late read has its item in a node that comes to be read before. -/
def RunsOut (w : Cluster) (c : Client n) (ls : List (Late n)) : Prop :=
  ∃ a q b k, ls = a ++ q :: b ∧ k < q.nodes.length ∧ ¬ q.Within w c (k + 1) ∧
    (∀ r ∈ a, ¬ r.Within w c (k + 1)) ∧ (∀ r ∈ b, ¬ r.Within w c k) ∧
    (k + 1 = q.nodes.length ∨ w.accepts (c.posted.length + (k + 1) * ls.length + a.length) = false)

def Refused (w : Cluster) (c : Client n) (ls : List (Late n)) : Prop :=
  ∃ j < ls.length, w.accepts (c.posted.length + j) = false

/-- A read shows that its item is gone, the post for a late read is refused, no read is late, or a late read
runs out of nodes before a late read comes to its item. -/
def Ends (w : Cluster) (c : Client n) (p : Pending n) (bucket : Fin n → List UInt64) : Prop :=
  (∃ i, (i, Verdict.gone) ∈ looks w c p bucket) ∨ Refused w c (lates (looks w c p bucket)) ∨
    lates (looks w c p bucket) = [] ∨ RunsOut w c (lates (looks w c p bucket))

theorem loadItem_nodeBytes_add (m : Memory) (x : UInt64) (k : ℕ) :
    loadItem (nodeBytes m x) k = loadItem m (x.toNat + k) := by
  simp only [loadItem, readWord, readNat, readVector, nodeBytes, Nat.add_assoc]

theorem findItem_none_iff (m : Memory) (it : DataItem) (x : UInt64) :
    findItem (nodeBytes m x) it = none ↔ ¬ StandsIn m it x := by
  simp only [findItem, List.find?_eq_none, List.forall_mem_map, List.mem_range, loadItem_nodeBytes_add,
    Bool.and_eq_true, bne_iff_ne, beq_iff_eq, StandsIn, not_exists, not_and, and_assoc]

variable {c c' c₀ : Client n} {i : Fin n} {bucket : Fin n → List UInt64}

theorem StandsIn.congr {m : Memory} {it it' : DataItem} {x : UInt64} (hk : it.key = it'.key)
    (ht : it.tableId = it'.tableId) : StandsIn m it x ↔ StandsIn m it' x := by
  rw [StandsIn, StandsIn, hk, ht]

theorem Kept.within (hk : Kept c c') (r : Late n) (k : ℕ) : r.Within w c' k ↔ r.Within w c k := by
  simp only [Late.Within, StandsWithin, StandsIn.congr (hk.key r.item) (hk.table r.item)]

structure Follows (w : Cluster) (e : HashRead n) (r : Late n) : Prop where
  item : e.item = r.item
  nodes : Nodes w e.qp e.table e.buf (r.nodes.map (nodeBytes (w.region r.node)))

inductive Pass (w : Cluster) (c₀ : Client n) : List (Fin n × Verdict) → Client n → List (HashRead n) →
    Bool → Client n → List (HashRead n) → Prop
  | done {c : Client n} {next : List (HashRead n)} : Pass w c₀ [] c next true c next
  | found {i : Fin n} {d : DataItem} {vs : List (Fin n × Verdict)} {c c' : Client n}
      {next next' : List (HashRead n)} {ok : Bool} (hk : d.key = (c₀.readerSet i).item.key)
      (ht : d.tableId = (c₀.readerSet i).item.tableId) (h : Pass w c₀ vs (c.fetch i d) next ok c' next') :
      Pass w c₀ ((i, .found) :: vs) c next ok c' next'
  | gone {i : Fin n} {vs : List (Fin n × Verdict)} {c c' : Client n} {next : List (HashRead n)}
      (hs : c'.readerSet = c.readerSet) (hy : c'.yields = c.yields) :
      Pass w c₀ ((i, .gone) :: vs) c next false c' next
  | late {i : Fin n} {node : Int32} {nodes : List UInt64} {vs : List (Fin n × Verdict)} {c c₁ c' : Client n}
      {next next' : List (HashRead n)} {ok : Bool} {e : HashRead n} (he : Follows w e ⟨i, node, nodes⟩)
      (hp : w.accepts c.posted.length = true) (hs : c₁.readerSet = c.readerSet) (hy : c₁.yields = c.yields)
      (hl : c₁.posted.length = c.posted.length + 1) (h : Pass w c₀ vs c₁ (next ++ [e]) ok c' next') :
      Pass w c₀ ((i, .late node nodes) :: vs) c next ok c' next'
  | refused {i : Fin n} {node : Int32} {nodes : List UInt64} {vs : List (Fin n × Verdict)} {c c' : Client n}
      {next : List (HashRead n)} {e : HashRead n} (he : Follows w e ⟨i, node, nodes⟩)
      (hp : w.accepts c.posted.length = false) (hs : c'.readerSet = c.readerSet)
      (hy : c'.yields = c.yields) : Pass w c₀ ((i, .late node nodes) :: vs) c next false c' (next ++ [e])

section Pass

variable {vs vs' : List (Fin n × Verdict)} {c₁ : Client n} {next next₁ next' : List (HashRead n)} {ok : Bool}

theorem Pass.append (h : Pass w c₀ vs c next true c₁ next₁) (h' : Pass w c₀ vs' c₁ next₁ ok c' next') :
    Pass w c₀ (vs ++ vs') c next ok c' next' := by
  generalize hok : true = b at h
  induction h with
  | done => exact h'
  | found hk ht h ih => exact .found hk ht (ih h' hok)
  | gone hs hy => cases hok
  | late he hp hs hy hl h ih => exact .late he hp hs hy hl (ih h' hok)
  | refused he hp hs hy => cases hok

theorem Pass.append_false (h : Pass w c₀ vs c next false c' next') :
    Pass w c₀ (vs ++ vs') c next false c' next' := by
  generalize hok : false = b at h
  induction h with
  | done => cases hok
  | found hk ht h ih => exact .found hk ht (ih hok)
  | gone hs hy => exact .gone hs hy
  | late he hp hs hy hl h ih => exact .late he hp hs hy hl (ih hok)
  | refused he hp hs hy => exact .refused he hp hs hy

theorem Kept.same (hk : Kept c₀ c) (hs : c'.readerSet = c.readerSet) : Kept c₀ c' :=
  ⟨fun i => hs ▸ hk.key i, fun i => hs ▸ hk.table i⟩

theorem Kept.of_fetch {d : DataItem} (hk : Kept c₀ c) (hd : d.key = (c₀.readerSet i).item.key)
    (ht : d.tableId = (c₀.readerSet i).item.tableId) : Kept c₀ (c.fetch i d) := by
  apply hk.trans
  apply Kept.fetch
  · rw [hd, hk.key]
  · rw [ht, hk.table]

theorem Pass.kept (h : Pass w c₀ vs c next ok c' next') (hk : Kept c₀ c) : Kept c₀ c' := by
  induction h with
  | done => exact hk
  | found hd ht h ih => exact ih (hk.of_fetch hd ht)
  | gone hs hy => exact hk.same hs
  | late he hp hs hy hl h ih => exact ih (hk.same hs)
  | refused he hp hs hy => exact hk.same hs

theorem Pass.yields (h : Pass w c₀ vs c next ok c' next') : c'.yields = c.yields := by
  induction h with
  | done => rfl
  | found hd ht h ih => exact ih
  | gone hs hy => exact hy
  | late he hp hs hy hl h ih => exact ih.trans hy
  | refused he hp hs hy => exact hy

theorem Pass.ok_iff (h : Pass w c₀ vs c next ok c' next') :
    ok = false ↔ (∃ i, (i, Verdict.gone) ∈ vs) ∨ Refused w c (lates vs) := by
  induction h with
  | done => simp [lates, Refused]
  | found hd ht h ih =>
    rw [ih]
    simp [lates, Refused, Client.fetch, Client.set]
  | gone hs hy => simp
  | @late i node nodes vs c c₁ c' next next' ok e he hp hs hy hl h ih =>
    rw [ih]
    apply or_congr
    · simp
    · constructor
      · rintro ⟨j, hj, hf⟩
        refine ⟨j + 1, by simpa [lates] using hj, ?_⟩
        rwa [hl, Nat.add_assoc, Nat.add_comm 1] at hf
      · rintro ⟨j, hj, hf⟩
        cases j with
        | zero =>
          rw [Nat.add_zero, hp] at hf
          cases hf
        | succ j =>
          refine ⟨j, by simpa [lates] using hj, ?_⟩
          rwa [hl, Nat.add_assoc, Nat.add_comm 1]
  | refused he hp hs hy =>
    refine iff_of_true rfl (.inr ⟨0, by simp [lates], ?_⟩)
    rwa [Nat.add_zero]

theorem Pass.queued (h : Pass w c₀ vs c next true c' next') :
    (∃ ps : List (HashRead n × Late n), next' = next ++ ps.map Prod.fst ∧ ps.map Prod.snd = lates vs ∧
      ∀ q ∈ ps, Follows w q.1 q.2) ∧ c'.posted.length = c.posted.length + (lates vs).length := by
  generalize hok : true = b at h
  induction h with
  | done => exact ⟨⟨[], by simp, rfl, by simp⟩, rfl⟩
  | found hd ht h ih => exact ih hok
  | gone hs hy => cases hok
  | @late i node nodes vs c c₁ c' next next' ok e he hp hs hy hl h ih =>
    obtain ⟨⟨ps, rfl, hps, hf⟩, hlen⟩ := ih hok
    refine ⟨⟨(e, ⟨i, node, nodes⟩) :: ps, by simp, by simp [lates, hps], ?_⟩, ?_⟩
    · exact List.forall_mem_cons.mpr ⟨he, hf⟩
    · rw [hlen, hl, lates, List.length_cons]
      omega
  | refused he hp hs hy => cases hok

theorem Pass.unfetched (h : Pass w c₀ vs c next ok c' next') (hn : (vs.map Prod.fst).Nodup)
    (hu : ∀ i ∈ vs.map Prod.fst, (c.readerSet i).isFetched = false)
    (hnext : ∀ e ∈ next, (c.readerSet e.item).isFetched = false ∧ e.item ∉ vs.map Prod.fst) :
    ∀ e ∈ next', (c'.readerSet e.item).isFetched = false := by
  induction h with
  | done => exact fun e he => (hnext e he).1
  | @found i d vs c c' next next' ok hd ht h ih =>
    rw [List.map_cons, List.nodup_cons] at hn
    rw [List.map_cons, List.forall_mem_cons] at hu
    apply ih hn.2
    · intro j hj
      rw [Client.fetch_other c d (ne_of_mem_of_not_mem hj hn.1)]
      exact hu.2 j hj
    · intro e he
      obtain ⟨hf, hnot⟩ := hnext e he
      rw [List.map_cons, List.mem_cons, not_or] at hnot
      rw [Client.fetch_other c d hnot.1]
      exact ⟨hf, hnot.2⟩
  | gone hs hy =>
    rw [hs]
    exact fun e he => (hnext e he).1
  | late he hp hs hy hl h ih =>
    rw [List.map_cons, List.nodup_cons] at hn
    rw [List.map_cons, List.forall_mem_cons] at hu
    rw [hs] at ih
    apply ih hn.2 hu.2
    intro q hq
    rcases List.mem_append.mp hq with hq | hq
    · obtain ⟨hf, hnot⟩ := hnext q hq
      exact ⟨hf, fun hmem => hnot (List.mem_cons_of_mem _ hmem)⟩
    · rw [List.mem_singleton.mp hq, he.item]
      exact ⟨hu.1, hn.1⟩
  | refused he hp hs hy =>
    rw [List.map_cons, List.forall_mem_cons] at hu
    rw [hs]
    intro q hq
    rcases List.mem_append.mp hq with hq | hq
    · exact (hnext q hq).1
    · rw [List.mem_singleton.mp hq, he.item]
      exact hu.1

end Pass

theorem Client.rdmaRead_length {r : Request n} (h : w.accepts c.posted.length = true) :
    (c.rdmaRead w r).2.posted.length = c.posted.length + 1 := by
  rw [Client.rdmaRead_ok c r h]
  simp

theorem Bucket.follows {it : DataItem} {ns : List UInt64} {node : Int32} (hb : Bucket w it ns)
    (hp : w.manager.primaryTableNodes it.tableId = some node) :
    ∃ s, w.manager.primaryHashMetas it.tableId = some (hashMeta s) ∧
      Nodes w node (hashMeta s) (w.bytes node (bucketOff (hashMeta s) it.key))
        (ns.map (nodeBytes (w.region node))) := by
  obtain ⟨node', s, hp', hs, P, h0, hns⟩ := hb
  obtain rfl : node = node' := Option.some.inj (hp.symm.trans hp')
  refine ⟨s, hs ▸ P.table, ?_⟩
  rw [P.bytes_bucket]
  exact P.nodes hns h0

theorem checkDirectRO_pass (direct : List (DirectRead n)) (next : List (HashRead n))
    (hp : ∀ e ∈ direct, w.manager.primaryTableNodes (c₀.readerSet e.item).item.tableId = some e.qp)
    (hb : ∀ e ∈ direct, Bucket w (c₀.readerSet e.item).item (bucket e.item)) (hk : Kept c₀ c) :
    ∃ ok c' next', checkDirectRO w direct c next = .ok (ok, c', next') ∧
      Pass w c₀ (direct.map fun e => (e.item, lookDirect c₀ bucket e)) c next ok c' next' := by
  induction direct generalizing c next with
  | nil => exact ⟨true, c, next, rfl, .done⟩
  | cons e rest ih =>
    obtain ⟨hpe, hp⟩ := List.forall_mem_cons.mp hp
    obtain ⟨hbe, hb⟩ := List.forall_mem_cons.mp hb
    simp only [checkDirectRO, hk.key, hk.table, List.map_cons]
    split_ifs with hmatch hvalid
    · have hlook : lookDirect c₀ bucket e = .found := by simp [lookDirect, hmatch, hvalid]
      obtain ⟨ok, c', next', hr, hpass⟩ := ih next hp hb (hk.of_fetch hmatch.1 hmatch.2)
      rw [hlook]
      exact ⟨ok, c', next', hr, .found hmatch.1 hmatch.2 hpass⟩
    · have hlook : lookDirect c₀ bucket e = .gone := by simp [lookDirect, hmatch, not_not.mp hvalid]
      rw [hlook]
      exact ⟨false, _, next, rfl, .gone rfl rfl⟩
    · have hlook : lookDirect c₀ bucket e = .late e.qp (bucket e.item) := by
        rw [lookDirect, if_pos (not_and_or.mp hmatch)]
      obtain ⟨s, htab, hnodes⟩ := hbe.follows hpe
      rw [hlook, getPrimaryNodeID_ok.mpr hpe, getPrimaryHashMeta_ok.mpr htab]
      simp only [bind, Except.bind, Client.rdmaRead_fst]
      have hfollows : Follows w ⟨e.qp, e.item, w.bytes e.qp (bucketOff (hashMeta s)
          (c₀.readerSet e.item).item.key), e.qp, hashMeta s⟩ ⟨e.item, e.qp, bucket e.item⟩ := ⟨rfl, hnodes⟩
      split_ifs with hacc
      · obtain ⟨ok, c', next', hr, hpass⟩ := ih _ hp hb (hk.same (Client.rdmaRead_readerSet c _))
        exact ⟨ok, c', next', hr, .late hfollows hacc (Client.rdmaRead_readerSet c _)
          (Client.rdmaRead_yields c _) (Client.rdmaRead_length hacc) hpass⟩
      · exact ⟨false, _, _, rfl, .refused hfollows (by simpa using hacc) (Client.rdmaRead_readerSet c _)
          (Client.rdmaRead_yields c _)⟩

theorem checkHashRO_pass (hash : List (HashRead n)) (next : List (HashRead n))
    (hp : ∀ e ∈ hash, e.First w c₀)
    (hb : ∀ e ∈ hash, Bucket w (c₀.readerSet e.item).item (bucket e.item)) (hk : Kept c₀ c) :
    ∃ ok c' next', checkHashRO w hash c next = (ok, c', next') ∧
      Pass w c₀ (hash.map fun e => (e.item, lookHash w c₀ bucket e)) c next ok c' next' := by
  induction hash generalizing c next with
  | nil => exact ⟨true, c, next, rfl, .done⟩
  | cons e rest ih =>
    obtain ⟨hpe, hp⟩ := List.forall_mem_cons.mp hp
    obtain ⟨hbe, hb⟩ := List.forall_mem_cons.mp hb
    obtain ⟨s, htab, hnodes⟩ := hbe.follows hpe.place
    have htable : e.table = hashMeta s := Option.some.inj (hpe.table.symm.trans htab)
    rw [← htable, ← hpe.bytes] at hnodes
    obtain ⟨us, hus⟩ := hnodes.cons
    obtain ⟨x, xs, hx, hbuf, -⟩ := List.map_eq_cons_iff.mp hus
    rw [hx, List.map_cons] at hnodes
    have hstands : findItem e.buf (c₀.readerSet e.item).item = none ↔
        ¬ StandsIn (w.region e.qp) (c₀.readerSet e.item).item x := by
      rw [← hbuf, findItem_none_iff]
    simp only [checkHashRO, findItem_congr (hk.key e.item) (hk.table e.item), List.map_cons]
    split
    · rename_i d hd
      obtain ⟨-, hkey, htab⟩ := findItem_spec hd
      have hin : StandsIn (w.region e.qp) (c₀.readerSet e.item).item x := by
        by_contra hnot
        rw [hstands.mpr hnot] at hd
        cases hd
      have hlook : lookHash w c₀ bucket e = .found := by simp [lookHash, hx, hin]
      obtain ⟨ok, c', next', hr, hpass⟩ := ih next hp hb (hk.of_fetch hkey htab)
      rw [hlook]
      exact ⟨ok, c', next', hr, .found hkey htab hpass⟩
    · rename_i hnone
      have hout := hstands.mp hnone
      split
      · rename_i h0
        have hlook : lookHash w c₀ bucket e = .gone := by
          have hxs : xs = [] := List.map_eq_nil_iff.mp (List.cons_eq_cons.mp (hnodes.ends h0)).2
          simp [lookHash, hx, hout, hxs]
        rw [hlook]
        exact ⟨false, c, next, rfl, .gone rfl rfl⟩
      · rename_i h0
        have htail := hnodes.tail h0
        have hlook : lookHash w c₀ bucket e = .late e.qp xs := by
          obtain ⟨us, hus⟩ := htail.cons
          have hxs : xs ≠ [] := by
            rintro rfl
            cases hus
          simp [lookHash, hx, hout, hxs]
        have hfollows : Follows w (e.advance w) ⟨e.item, e.qp, xs⟩ := ⟨rfl, htail⟩
        rw [hlook]
        simp only [readNext, Client.rdmaRead_fst]
        split_ifs with hacc
        · obtain ⟨ok, c', next', hr, hpass⟩ := ih _ hp hb (hk.same (Client.rdmaRead_readerSet c _))
          exact ⟨ok, c', next', hr, .late hfollows hacc (Client.rdmaRead_readerSet c _)
            (Client.rdmaRead_yields c _) (Client.rdmaRead_length hacc) hpass⟩
        · exact ⟨false, _, _, rfl, .refused hfollows (by simpa using hacc) (Client.rdmaRead_readerSet c _)
            (Client.rdmaRead_yields c _)⟩

theorem looks_items (w : Cluster) (c : Client n) (p : Pending n) (bucket : Fin n → List UInt64) :
    (looks w c p bucket).map Prod.fst = p.items := by
  simp [looks, Pending.items, Function.comp_def]

theorem firstCheck_pass {p : Pending n} (I : Issued w c p)
    (hb : ∀ i ∈ p.items, Bucket w (c.readerSet i).item (bucket i)) :
    ∃ ok c' next, firstCheck w p c = .ok (ok, c', next) ∧ Pass w c (looks w c p bucket) c [] ok c' next := by
  have hdirect : ∀ e ∈ p.direct, Bucket w (c.readerSet e.item).item (bucket e.item) :=
    fun e he => hb _ (List.mem_append_left _ (List.mem_map_of_mem he))
  have hhash : ∀ e ∈ p.hash, Bucket w (c.readerSet e.item).item (bucket e.item) :=
    fun e he => hb _ (List.mem_append_right _ (List.mem_map_of_mem he))
  obtain ⟨ok, c₁, next₁, h₁, hpass₁⟩ := checkDirectRO_pass p.direct [] I.direct hdirect (Kept.refl c)
  unfold firstCheck
  rw [h₁]
  cases ok with
  | false => exact ⟨false, c₁, next₁, rfl, hpass₁.append_false⟩
  | true =>
    obtain ⟨ok, c₂, next₂, h₂, hpass₂⟩ :=
      checkHashRO_pass p.hash next₁ I.hash hhash (hpass₁.kept (Kept.refl c))
    refine ⟨ok, c₂, next₂, ?_, hpass₁.append hpass₂⟩
    rw [← h₂]
    rfl

section Tracks

def trackOf (w : Cluster) (q : HashRead n × Late n) : Track n :=
  (q.1, q.2.nodes.map (nodeBytes (w.region q.2.node)))

theorem missesIn_iff {q : HashRead n × Late n} (hf : Follows w q.1 q.2) (hk : Kept c c') (k : ℕ) :
    MissesIn c' k (trackOf w q) ↔ ¬ q.2.Within w c k := by
  rw [← hk.within]
  simp only [MissesIn, Misses, trackOf, ← List.map_take, List.forall_mem_map, findItem_none_iff, hf.item,
    Late.Within, StandsWithin, not_exists, not_and]

theorem stopsFirst_iff {ps : List (HashRead n × Late n)} (hf : ∀ q ∈ ps, Follows w q.1 q.2) (hk : Kept c c')
    (hp : c'.posted.length = c.posted.length + ps.length) :
    StopsFirst w c' (ps.map (trackOf w)) ↔ RunsOut w c (ps.map Prod.snd) := by
  have hpost (k a : ℕ) : c'.posted.length + k * ps.length + a = c.posted.length + (k + 1) * ps.length + a := by
    rw [hp]
    ring
  constructor
  · rintro ⟨a', q', b', k, hps, hlt, hq, ha, hb, hend⟩
    obtain ⟨a, r, rfl, rfl, hr⟩ := List.map_eq_append_iff.mp hps
    obtain ⟨q, b, rfl, rfl, rfl⟩ := List.map_eq_cons_iff.mp hr
    simp only [List.forall_mem_append, List.forall_mem_cons] at hf
    refine ⟨a.map Prod.snd, q.2, b.map Prod.snd, k, by simp, by simpa [trackOf] using hlt,
      (missesIn_iff hf.2.1 hk _).mp hq, ?_, ?_, ?_⟩
    · rw [List.forall_mem_map] at ha ⊢
      exact fun x hx => (missesIn_iff (hf.1 x hx) hk _).mp (ha x hx)
    · rw [List.forall_mem_map] at hb ⊢
      exact fun x hx => (missesIn_iff (hf.2.2 x hx) hk _).mp (hb x hx)
    · rw [List.length_map, hpost, List.length_map] at hend
      simpa [trackOf] using hend
  · rintro ⟨a', q', b', k, hps, hlt, hq, ha, hb, hend⟩
    obtain ⟨a, r, rfl, rfl, hr⟩ := List.map_eq_append_iff.mp hps
    obtain ⟨q, b, rfl, rfl, rfl⟩ := List.map_eq_cons_iff.mp hr
    simp only [List.forall_mem_append, List.forall_mem_cons] at hf
    refine ⟨a.map (trackOf w), trackOf w q, b.map (trackOf w), k, by simp, by simpa [trackOf] using hlt,
      (missesIn_iff hf.2.1 hk _).mpr hq, ?_, ?_, ?_⟩
    · rw [List.forall_mem_map] at ha ⊢
      exact fun x hx => (missesIn_iff (hf.1 x hx) hk _).mpr (ha x hx)
    · rw [List.forall_mem_map] at hb ⊢
      exact fun x hx => (missesIn_iff (hf.2.2 x hx) hk _).mpr (hb x hx)
    · rw [List.length_map, hpost, List.length_map]
      simpa [trackOf] using hend

end Tracks

theorem mem_lates {vs : List (Fin n × Verdict)} {r : Late n} (h : r ∈ lates vs) :
    (r.item, Verdict.late r.node r.nodes) ∈ vs := by
  induction vs with
  | nil => cases h
  | cons v vs ih =>
    obtain ⟨i, v⟩ := v
    cases v with
    | found => exact List.mem_cons_of_mem _ (ih h)
    | gone => exact List.mem_cons_of_mem _ (ih h)
    | late node nodes =>
      rcases List.mem_cons.mp h with rfl | h
      · exact List.mem_cons_self
      · exact List.mem_cons_of_mem _ (ih h)

theorem late_length {p : Pending n} {r : Late n} (h : r ∈ lates (looks w c p bucket)) :
    r.item ∈ p.items ∧ r.nodes.length ≤ (bucket r.item).length := by
  have hmem := mem_lates h
  refine ⟨looks_items w c p bucket ▸ List.mem_map_of_mem hmem, ?_⟩
  rcases List.mem_append.mp hmem with hmem | hmem
  · obtain ⟨e, -, he⟩ := List.mem_map.mp hmem
    obtain ⟨hi, hv⟩ := Prod.mk.inj he
    simp only [lookDirect] at hv
    split_ifs at hv
    obtain ⟨-, hnodes⟩ := Verdict.late.inj hv
    rw [← hi, hnodes]
  · obtain ⟨e, -, he⟩ := List.mem_map.mp hmem
    obtain ⟨hi, hv⟩ := Prod.mk.inj he
    rw [← hi]
    simp only [lookHash] at hv
    split at hv
    · cases hv
    · rename_i x xs hx
      split_ifs at hv
      obtain ⟨-, hnodes⟩ := Verdict.late.inj hv
      rw [hx, hnodes, List.length_cons]
      omega

theorem Cluster.ChainsWithin.length_le {it : DataItem} {ns : List UInt64} (hN : w.ChainsWithin N)
    (hb : Bucket w it ns) : ns.length ≤ N := by
  obtain ⟨node, s, hp, hs, P, -, hns⟩ := hb
  obtain ⟨s', hs', P', hc⟩ := hN _ _ hp
  obtain ⟨-, ms, hms, hlen⟩ := hc it.key
  have hmeta : hashMeta s = hashMeta s' := by
    have htable := P'.table
    rw [hs', ← hs, P.table] at htable
    exact Option.some.inj htable
  rw [← P'.bucket_addr, ← hmeta, P.bucket_addr] at hms
  exact hns.unique hms ▸ hlen

theorem checkReadRO_returns_iff {p : Pending n} (hN : w.ChainsWithin N) (I : Issued w c p)
    (hb : ∀ i ∈ p.items, Bucket w (c.readerSet i).item (bucket i)) :
    (∃ fuel b s, checkReadRO w p.direct p.hash c fuel = .ok (.inr (b, s)) ∧
      s.client.yields ≤ c.yields + N ∧ ∀ e ∈ s.pending, (s.client.readerSet e.item).isFetched = false) ↔
    Ends w c p bucket := by
  obtain ⟨ok, c', next, hfirst, hpass⟩ := firstCheck_pass I hb
  have hy := hpass.yields
  have hu : ∀ e ∈ next, (c'.readerSet e.item).isFetched = false := by
    apply hpass.unfetched <;> rw [looks_items]
    · exact I.nodup
    · exact I.unfetched
    · simp
  simp only [checkReadRO_eq, hfirst, Except.map]
  cases ok with
  | false =>
    have hends := hpass.ok_iff.mp rfl
    apply iff_of_true
    · exact ⟨0, false, ⟨c', next, none⟩, rfl, by simp only; omega, hu⟩
    · exact hends.elim .inl fun h => .inr (.inl h)
  | true =>
    have hgo : ¬ ((∃ i, (i, Verdict.gone) ∈ looks w c p bucket) ∨ Refused w c (lates (looks w c p bucket))) :=
      fun h => absurd (hpass.ok_iff.mpr h) (by decide)
    obtain ⟨⟨ps, rfl, hps, hf⟩, hlen⟩ := hpass.queued
    have hruns := stopsFirst_iff hf (hpass.kept (Kept.refl c)) (by rw [hlen, ← hps, List.length_map])
    have hfst : ps.map Prod.fst = (ps.map (trackOf w)).map Prod.fst := by simp [trackOf]
    rw [Ends, ← or_assoc, or_iff_right hgo, ← hps, ← hruns, List.map_eq_nil_iff]
    rcases eq_or_ne ps [] with rfl | hne
    · exact iff_of_true ⟨1, true, ⟨c', [], none⟩, rfl, by simp only; omega, by simp⟩ (.inl rfl)
    · rw [or_iff_right hne]
      have hv : ∀ q ∈ ps.map (trackOf w), q.Valid w := List.forall_mem_map.mpr fun q hq => (hf q hq).nodes
      have hle : ∀ q ∈ ps.map (trackOf w), q.2.length ≤ N := by
        rw [List.forall_mem_map]
        intro q hq
        obtain ⟨hitem, hq⟩ := late_length (hps ▸ List.mem_map_of_mem hq)
        rw [trackOf, List.length_map]
        exact hq.trans (hN.length_le (hb _ hitem))
      obtain ⟨hstops, hspins⟩ := walk_outcome N c' (ps.map (trackOf w)) hv hle (by simpa using hne)
      simp only [List.nil_append, if_true, hfst] at hu ⊢
      constructor
      · rintro ⟨fuel, b, s, hret, -, -⟩
        by_contra hstop
        exact diverges_not_returns (hspins hstop) (b, s) ⟨fuel, Except.ok.inj hret⟩
      · intro hstop
        obtain ⟨s, ⟨fuel, hs⟩, hset, hsy, hi⟩ := hstops hstop
        refine ⟨fuel, false, s, congrArg Except.ok hs, by omega, ?_⟩
        intro e he
        rw [hset]
        obtain ⟨q, hq, hqe⟩ := List.mem_map.mp (hi ▸ List.mem_map_of_mem he)
        rw [← hqe]
        exact hu q hq

def oneReader (key offset : UInt64) : Client 1 :=
  ⟨fun _ => ⟨smallItem 1 key, false, offset, 0⟩, fun _ _ => none, [], 0⟩

def issues (m : MemoryNode) (c : Client n) (P : Client n → Pending n → Bool) : Bool :=
  match issueReader (serving m) c with
  | .ok (true, c', p) => P c' p
  | _ => false

theorem issues_ok {m : MemoryNode} {c : Client n} {P : Client n → Pending n → Bool}
    (h : issues m c P = true) :
    ∃ c' p, issueReader (serving m) c = .ok (true, c', p) ∧ P c' p = true := by
  unfold issues at h
  split at h
  · exact ⟨_, _, by assumption, h⟩
  · cases h

theorem Issued.place {p : Pending n} (I : Issued w c p) (hi : i ∈ p.items) :
    ∃ node, w.manager.primaryTableNodes (c.readerSet i).item.tableId = some node := by
  rcases List.mem_append.mp hi with hi | hi
  · obtain ⟨e, he, rfl⟩ := List.mem_map.mp hi
    exact ⟨_, I.direct e he⟩
  · obtain ⟨e, he, rfl⟩ := List.mem_map.mp hi
    exact ⟨_, (I.hash e he).place⟩

theorem Cluster.ChainsWithin.buckets {p : Pending n} (hN : w.ChainsWithin N) (I : Issued w c p) :
    ∃ bucket : Fin n → List UInt64, ∀ i ∈ p.items, Bucket w (c.readerSet i).item (bucket i) := by
  have hex (i : Fin n) : ∃ ns, i ∈ p.items → Bucket w (c.readerSet i).item ns := by
    by_cases hi : i ∈ p.items
    · obtain ⟨node, hp⟩ := I.place hi
      obtain ⟨s, hs, P, hc⟩ := hN _ _ hp
      obtain ⟨h0, ns, hns, -⟩ := hc (c.readerSet i).item.key
      exact ⟨ns, fun _ => ⟨node, s, hp, hs, P, h0, hns⟩⟩
    · exact ⟨[], fun h => absurd h hi⟩
  choose bucket hb using hex
  exact ⟨bucket, hb⟩

theorem checkReadRO_returns_iff_stale_absent :
    ∃ h m N c p bucket, MemoryNode.Run LoadCall smallNode h m ∧ (serving m).ChainsWithin N ∧
      Issued (n := 1) (serving m) c p ∧ p.direct.length = 1 ∧
      (∀ i ∈ p.items, Bucket (serving m) (c.readerSet i).item (bucket i)) ∧
      ((∃ fuel b s, checkReadRO (serving m) p.direct p.hash c fuel = .ok (.inr (b, s)) ∧
        s.client.yields ≤ c.yields + N ∧ ∀ e ∈ s.pending, (s.client.readerSet e.item).isFetched = false) ↔
      Ends (serving m) c p bucket) := by
  obtain ⟨h, m, hrun, hm⟩ := MemoryNode.replay_any LoadCall 3 smallNode
    [.build 1 1, .insert 0 7 (smallItem 1 7)]
    (fun _ m => issues m (oneReader 5 0) fun _ p => p.direct.length == 1) (by decide +kernel)
  obtain ⟨C, L, -⟩ := hrun.loaded smallNode_fresh
  obtain ⟨N, hN⟩ := serving_chainsWithin L
  obtain ⟨c, p, hi, hp⟩ := issues_ok hm
  have hI := issueReader_issued hi
  obtain ⟨bucket, hb⟩ := hN.buckets hI
  exact ⟨h, m, N, c, p, bucket, hrun, hN, hI, by simpa using hp, hb, checkReadRO_returns_iff hN hI hb⟩

theorem checkReadRO_spins :
    ∃ h m N c p, MemoryNode.Run LoadCall smallNode h m ∧ (serving m).ChainsWithin N ∧
      Issued (n := 1) (serving m) c p ∧
      ∀ fuel, ∃ s, checkReadRO (serving m) p.direct p.hash c fuel = .ok (.inl s) := by
  obtain ⟨h, m, hrun, hm⟩ := MemoryNode.replay_any LoadCall 3 smallNode
    [.build 1 1, .insert 0 7 (smallItem 1 7), .insert 0 5 (smallItem 1 5)]
    (fun _ m => issues m (oneReader 5 0) fun c p => match firstCheck (serving m) p c with
      | .ok (true, c', e :: _) => (findItem e.buf (c'.readerSet e.item).item).isSome
      | _ => false) (by decide +kernel)
  obtain ⟨C, L, -⟩ := hrun.loaded smallNode_fresh
  obtain ⟨N, hN⟩ := serving_chainsWithin L
  obtain ⟨c, p, hi, hp⟩ := issues_ok hm
  refine ⟨h, m, N, c, p, hrun, hN, issueReader_issued hi, ?_⟩
  intro fuel
  split at hp
  · rename_i c' e rest hfirst
    have hit : ¬ Misses c' e e.buf := by
      intro hmiss
      rw [hmiss] at hp
      cases hp
    have hdiv : Diverges (walkRound (serving m)) ⟨c', e :: rest, none⟩ := walk_hangs hit
    obtain ⟨s, hs⟩ := hdiv fuel
    refine ⟨s, ?_⟩
    rw [checkReadRO_eq, hfirst]
    exact congrArg Except.ok hs
  · cases hp

end MetadataService.Dmc
