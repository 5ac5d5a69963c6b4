import MetadataService.RemoteReader

namespace MetadataService.Dmc

open ByteMemory Loops LinkedChain MemStore MetaExchange

variable {n : ℕ} {w : Cluster}

inductive Nodes (w : Cluster) (qp : Int32) (table : HashMeta) : Memory → List Memory → Prop
  | last {buf : Memory} (h : readWord buf 15840 = 0) : Nodes w qp table buf [buf]
  | more {buf : Memory} {us : List Memory} (h : readWord buf 15840 ≠ 0)
      (ht : Nodes w qp table (w.bytes qp (nextOff table (readWord buf 15840))) us) :
      Nodes w qp table buf (buf :: us)

theorem Nodes.cons {qp : Int32} {table : HashMeta} {buf : Memory} {us : List Memory}
    (h : Nodes w qp table buf us) : ∃ vs, us = buf :: vs := by
  cases h with
  | last h => exact ⟨[], rfl⟩
  | more h ht => exact ⟨_, rfl⟩

theorem Nodes.ends {qp : Int32} {table : HashMeta} {buf : Memory} {us : List Memory}
    (h : Nodes w qp table buf us) (h0 : readWord buf 15840 = 0) : us = [buf] := by
  cases h with
  | last h => rfl
  | more h ht => exact absurd h0 h

theorem Nodes.tail {qp : Int32} {table : HashMeta} {buf : Memory} {us : List Memory}
    (h : Nodes w qp table buf us) (h0 : readWord buf 15840 ≠ 0) :
    Nodes w qp table (w.bytes qp (nextOff table (readWord buf 15840))) us.tail := by
  cases h with
  | last h => exact absurd h h0
  | more h ht => exact ht

def Misses (c : Client n) (e : HashRead n) (u : Memory) : Prop :=
  findItem u (c.readerSet e.item).item = none

def HashRead.advance (w : Cluster) (e : HashRead n) : HashRead n :=
  { e with buf := w.bytes e.qp (nextOff e.table (readWord e.buf 15840)) }

def Moves (w : Cluster) (c : Client n) (k : ℕ) (e : HashRead n) : Prop :=
  Misses c e e.buf ∧ readWord e.buf 15840 ≠ 0 ∧ w.accepts k = true

theorem findItem_spec {u : Memory} {it d : DataItem} (h : findItem u it = some d) :
    d.valid ≠ 0 ∧ d.key = it.key ∧ d.tableId = it.tableId := by
  have hd := List.find?_some h
  simp only [Bool.and_eq_true, bne_iff_ne, beq_iff_eq] at hd
  exact ⟨hd.1.1, hd.1.2, hd.2⟩

theorem findItem_congr {u : Memory} {it d : DataItem} (hk : d.key = it.key) (ht : d.tableId = it.tableId) :
    findItem u d = findItem u it := by
  rw [findItem, findItem, hk, ht]

theorem Client.fetch_self (c : Client n) (i : Fin n) (d : DataItem) :
    (c.fetch i d).readerSet i = { c.readerSet i with item := d, isFetched := true } :=
  Function.update_self i _ c.readerSet

theorem Client.fetch_other (c : Client n) {i j : Fin n} (d : DataItem) (h : j ≠ i) :
    (c.fetch i d).readerSet j = c.readerSet j :=
  Function.update_of_ne h _ c.readerSet

theorem Client.rdmaRead_fst (c : Client n) (r : Request n) :
    (c.rdmaRead w r).1 = w.accepts c.posted.length := by
  unfold Client.rdmaRead
  split <;> simp_all

theorem Client.rdmaRead_readerSet (c : Client n) (r : Request n) :
    (c.rdmaRead w r).2.readerSet = c.readerSet := by
  unfold Client.rdmaRead
  split <;> rfl

theorem Client.rdmaRead_yields (c : Client n) (r : Request n) : (c.rdmaRead w r).2.yields = c.yields := by
  unfold Client.rdmaRead
  split <;> rfl

theorem Client.rdmaRead_ok (c : Client n) (r : Request n) (h : w.accepts c.posted.length = true) :
    c.rdmaRead w r = (true, { c with posted := c.posted ++ [r] }) :=
  if_pos h

theorem walkRound_end {s : Walk n} {j : ℕ} {e : HashRead n} (hp : s.pos = some j)
    (he : s.pending[j]? = some e) (hm : Misses s.client e e.buf)
    (h : ¬ Moves w s.client s.client.posted.length e) :
    ∃ t, walkRound w s = .inr (false, t) ∧ t.client.readerSet = s.client.readerSet ∧
      t.client.yields = s.client.yields ∧ t.pending.map HashRead.item = s.pending.map HashRead.item := by
  have hm' : findItem e.buf (s.client.readerSet e.item).item = none := hm
  simp only [walkRound, hp, he, nextRound, hm']
  split
  · exact ⟨s, rfl, rfl, rfl, rfl⟩
  · rename_i h0
    have hfail : w.accepts s.client.posted.length = false := by
      simpa [Moves, hm, h0] using h
    have hlt := (List.getElem?_eq_some_iff.mp he).1
    have hget := (List.getElem?_eq_some_iff.mp he).2
    simp only [readNext, Client.rdmaRead, hfail]
    refine ⟨_, rfl, rfl, rfl, ?_⟩
    rw [List.map_set]
    apply List.ext_getElem?
    intro k
    grind

theorem walkRound_move {s : Walk n} {j : ℕ} {e : HashRead n} (hp : s.pos = some j)
    (he : s.pending[j]? = some e) (hm : Moves w s.client s.client.posted.length e) :
    ∃ r, walkRound w s = .inl ⟨{ s.client with posted := s.client.posted ++ [r] },
      s.pending.set j (e.advance w), some (j + 1)⟩ := by
  obtain ⟨hmiss, h0, hacc⟩ := hm
  have hmiss' : findItem e.buf (s.client.readerSet e.item).item = none := hmiss
  refine ⟨⟨e.item, e.qp, nextOff e.table (readWord e.buf 15840), 15848⟩, ?_⟩
  simp only [walkRound, hp, he, nextRound, hmiss', if_neg h0, readNext, Client.rdmaRead_ok _ _ hacc, if_true]
  rfl

theorem walkRound_hangs {s : Walk n} {j : ℕ} {e : HashRead n} (hp : s.pos = some j)
    (he : s.pending[j]? = some e) (hh : ¬ Misses s.client e e.buf) : Diverges (walkRound w) s := by
  apply diverges_of_inv (I := fun s => s.pos = some j ∧ s.pending[j]? = some e ∧ ¬ Misses s.client e e.buf)
  · rintro s ⟨hp, he, hh⟩
    obtain ⟨d, hd⟩ := Option.ne_none_iff_exists'.mp hh
    obtain ⟨-, hk, ht⟩ := findItem_spec hd
    refine ⟨{ s with client := s.client.fetch e.item d }, ?_, hp, he, ?_⟩
    · simp only [walkRound, hp, he, nextRound, hd]
    · unfold Misses
      rw [Client.fetch_self, findItem_congr hk ht, hd]
      exact Option.some_ne_none d
  · exact ⟨hp, he, hh⟩

theorem walk_hangs {c : Client n} {e : HashRead n} {rest : List (HashRead n)} (hh : ¬ Misses c e e.buf) :
    Diverges (walkRound w) ⟨c, e :: rest, none⟩ := by
  have hstart : walkRound w ⟨c, e :: rest, none⟩ =
      .inl ⟨{ c with yields := c.yields + 1 }, e :: rest, some 0⟩ := by
    simp [walkRound]
  exact diverges_of_run (run_next hstart 0) (walkRound_hangs rfl rfl hh)

theorem walkRound_sweep (rest done : List (HashRead n)) (c : Client n) :
    ∃ a b c', rest = a ++ b ∧
      run (walkRound w) a.length ⟨c, done ++ rest, some done.length⟩ =
        .inl ⟨c', done ++ a.map (HashRead.advance w) ++ b, some (done.length + a.length)⟩ ∧
      c'.readerSet = c.readerSet ∧ c'.yields = c.yields ∧
      c'.posted.length = c.posted.length + a.length ∧
      (∀ e ∈ a, Misses c e e.buf ∧ readWord e.buf 15840 ≠ 0) ∧
      (∀ i < a.length, w.accepts (c.posted.length + i) = true) ∧
      ∀ e ∈ b.head?, ¬ Moves w c (c.posted.length + a.length) e := by
  induction rest generalizing done c with
  | nil => exact ⟨[], [], c, rfl, by simp [run], rfl, rfl, rfl, by simp, by simp, by simp⟩
  | cons e rest ih =>
    by_cases hm : Moves w c c.posted.length e
    · have he : (done ++ e :: rest)[done.length]? = some e := by simp
      obtain ⟨r, hr⟩ := walkRound_move (s := ⟨c, done ++ e :: rest, some done.length⟩) rfl he hm
      obtain ⟨a, b, c', rfl, hrun, hset, hy, hpost, hmoves, hacc, hstop⟩ :=
        ih (done ++ [e.advance w]) { c with posted := c.posted ++ [r] }
      refine ⟨e :: a, b, c', rfl, ?_, hset, hy, ?_, ?_, ?_, ?_⟩
      · rw [List.length_cons, run_next hr]
        simp only [List.length_append, List.length_singleton, List.append_assoc,
          List.cons_append, List.nil_append] at hrun
        simp only [List.set_append_right _ _ le_rfl, Nat.sub_self, List.set_cons_zero, List.map_cons,
          List.append_assoc, List.cons_append]
        rw [hrun, Nat.add_assoc, Nat.add_comm 1]
      · rw [hpost, List.length_append, List.length_singleton, List.length_cons]
        omega
      · intro q hq
        rcases List.mem_cons.mp hq with rfl | hq
        · exact ⟨hm.1, hm.2.1⟩
        · exact hmoves q hq
      · intro i hi
        cases i with
        | zero => exact hm.2.2
        | succ i =>
          have := hacc i (by simpa using hi)
          rwa [List.length_append, List.length_singleton, Nat.add_assoc, Nat.add_comm 1] at this
      · intro q hq
        have := hstop q hq
        rwa [List.length_append, List.length_singleton, Nat.add_assoc, Nat.add_comm 1] at this
    · refine ⟨[], e :: rest, c, rfl, by simp [run], rfl, rfl, rfl, by simp, by simp, ?_⟩
      rintro q ⟨⟩
      exact hm

abbrev Track (n : ℕ) := HashRead n × List Memory

def Track.Valid (w : Cluster) (q : Track n) : Prop := Nodes w q.1.qp q.1.table q.1.buf q.2

def Track.advance (w : Cluster) (q : Track n) : Track n := (q.1.advance w, q.2.tail)

def MissesIn (c : Client n) (k : ℕ) (q : Track n) : Prop := ∀ u ∈ q.2.take k, Misses c q.1 u

/-- Some read comes to the end of its bucket, or cannot be posted again, in a round in which and before
which no read has found its item. -/
def StopsFirst (w : Cluster) (c : Client n) (ps : List (Track n)) : Prop :=
  ∃ a q b k, ps = a ++ q :: b ∧ k < q.2.length ∧ MissesIn c (k + 1) q ∧
    (∀ p ∈ a, MissesIn c (k + 1) p) ∧ (∀ p ∈ b, MissesIn c k p) ∧
    (k + 1 = q.2.length ∨ w.accepts (c.posted.length + k * ps.length + a.length) = false)

theorem missesIn_succ {c c' : Client n} {k : ℕ} {q : Track n} (hv : q.Valid w)
    (hm : Misses c q.1 q.1.buf) (hc : c'.readerSet = c.readerSet) :
    MissesIn c (k + 1) q ↔ MissesIn c' k (q.advance w) := by
  obtain ⟨us, hus⟩ := Nodes.cons hv
  simp only [MissesIn, Misses, Track.advance, HashRead.advance, hus, hc, List.take_succ_cons, List.tail_cons,
    List.forall_mem_cons]
  exact and_iff_right hm

theorem stopsFirst_advance {c c' : Client n} {ps : List (Track n)} (hv : ∀ q ∈ ps, q.Valid w)
    (hm : ∀ q ∈ ps, Misses c q.1 q.1.buf ∧ readWord q.1.buf 15840 ≠ 0)
    (hacc : ∀ i < ps.length, w.accepts (c.posted.length + i) = true)
    (hc : c'.readerSet = c.readerSet) (hp : c'.posted.length = c.posted.length + ps.length) :
    StopsFirst w c ps ↔ StopsFirst w c' (ps.map (Track.advance w)) := by
  have hlen : ∀ q ∈ ps, q.2.length = (q.advance w).2.length + 1 ∧ 0 < (q.advance w).2.length := by
    intro q hq
    obtain ⟨us, hus⟩ := Nodes.cons (hv q hq)
    obtain ⟨vs, hvs⟩ := Nodes.cons (Nodes.tail (hv q hq) (hm q hq).2)
    rw [Track.advance, hvs]
    rw [hus, List.tail_cons] at hvs
    rw [hus, hvs]
    simp
  have hk : ∀ q ∈ ps, ∀ k, MissesIn c (k + 1) q ↔ MissesIn c' k (q.advance w) :=
    fun q hq k => missesIn_succ (hv q hq) (hm q hq).1 hc
  constructor
  · rintro ⟨a, q, b, k, rfl, hlt, hq, ha, hb, hend⟩
    have hqm : q ∈ a ++ q :: b := by simp
    obtain ⟨hql, hpos⟩ := hlen q hqm
    cases k with
    | zero =>
      rcases hend with hend | hend
      · omega
      · rw [Nat.zero_mul, Nat.add_zero, hacc a.length (by simp)] at hend
        cases hend
    | succ k =>
      refine ⟨a.map (Track.advance w), q.advance w, b.map (Track.advance w), k, by simp, by omega,
        (hk q hqm _).mp hq, ?_, ?_, ?_⟩
      · intro p' hp'
        obtain ⟨p, hmem, rfl⟩ := List.mem_map.mp hp'
        exact (hk p (by simp [hmem]) _).mp (ha p hmem)
      · intro p' hp'
        obtain ⟨p, hmem, rfl⟩ := List.mem_map.mp hp'
        exact (hk p (by simp [hmem]) _).mp (hb p hmem)
      · rcases hend with hend | hend
        · left; omega
        · right
          rw [← hend, hp, List.length_map, List.length_map]
          congr 1
          ring
  · rintro ⟨a', q', b', k, hps, hlt, hq, ha, hb, hend⟩
    obtain ⟨a, r, rfl, rfl, hr⟩ := List.map_eq_append_iff.mp hps
    obtain ⟨q, b, rfl, rfl, rfl⟩ := List.map_eq_cons_iff.mp hr
    have hqm : q ∈ a ++ q :: b := by simp
    obtain ⟨hql, hpos⟩ := hlen q hqm
    refine ⟨a, q, b, k + 1, rfl, by omega, (hk q hqm _).mpr hq, ?_, ?_, ?_⟩
    · intro p hp
      exact (hk p (by simp [hp]) _).mpr (ha _ (List.mem_map_of_mem hp))
    · intro p hp
      exact (hk p (by simp [hp]) _).mpr (hb _ (List.mem_map_of_mem hp))
    · rcases hend with hend | hend
      · left; omega
      · right
        rw [← hend, hp, List.length_map, List.length_map]
        congr 1
        ring

theorem stopsFirst_iff_misses {c : Client n} {a b : List (Track n)} {q : Track n}
    (hv : ∀ p ∈ a ++ q :: b, p.Valid w)
    (hm : ∀ p ∈ a, Misses c p.1 p.1.buf ∧ readWord p.1.buf 15840 ≠ 0)
    (hacc : ∀ i < a.length, w.accepts (c.posted.length + i) = true)
    (hq : ¬ Moves w c (c.posted.length + a.length) q.1) :
    StopsFirst w c (a ++ q :: b) ↔ Misses c q.1 q.1.buf := by
  have hfirst : ∀ p ∈ a ++ q :: b, ∀ k, MissesIn c (k + 1) p → Misses c p.1 p.1.buf := by
    intro p hp k h
    obtain ⟨us, hus⟩ := Nodes.cons (hv p hp)
    exact h p.1.buf (by simp [hus])
  have hone : ∀ p ∈ a ++ q :: b, Misses c p.1 p.1.buf → MissesIn c 1 p := by
    intro p hp h u hu
    obtain ⟨us, hus⟩ := Nodes.cons (hv p hp)
    rw [hus, List.take_succ_cons, List.take_zero, List.mem_singleton] at hu
    exact hu ▸ h
  have hqv := hv q (by simp)
  obtain ⟨us, hus⟩ := Nodes.cons hqv
  constructor
  · rintro ⟨a', q', b', k, he, hlt, hq', ha', hb', hend⟩
    rcases List.append_eq_append_iff.mp he with ⟨x, rfl, hx⟩ | ⟨x, rfl, hx⟩
    · cases x with
      | nil =>
        obtain ⟨rfl, rfl⟩ := List.cons_eq_cons.mp hx
        exact hfirst q (by simp) k hq'
      | cons y x =>
        obtain ⟨rfl, rfl⟩ := List.cons_eq_cons.mp hx
        exact hfirst q (by simp) k (ha' q (by simp))
    · cases x with
      | nil =>
        obtain ⟨rfl, rfl⟩ := List.cons_eq_cons.mp hx
        exact hfirst q' (by simp) k hq'
      | cons y x =>
        obtain ⟨rfl, rfl⟩ := List.cons_eq_cons.mp hx
        -- The read that stops stands among those that move on, so it does not stop in this round.
        cases k with
        | succ k => exact hfirst q (by simp) k (hb' q (by simp))
        | zero =>
          exfalso
          rcases hend with hend | hend
          · obtain ⟨vs, hvs⟩ := Nodes.cons (Nodes.tail (hv q' (by simp)) (hm q' (by simp)).2)
            have := congrArg List.length hvs
            simp at this
            omega
          · rw [Nat.zero_mul, Nat.add_zero, hacc a'.length (by simp)] at hend
            cases hend
  · intro hmiss
    refine ⟨a, q, b, 0, rfl, by simp [hus], hone q (by simp) hmiss,
      fun p hp => hone p (by simp [hp]) (hm p hp).1, fun p hp u hu => by simp at hu, ?_⟩
    by_cases h0 : readWord q.1.buf 15840 = 0
    · left
      rw [Nodes.ends hqv h0]
      rfl
    · right
      simpa [Moves, hmiss, h0] using hq

structure Ended (w : Cluster) (c : Client n) (pending : List (HashRead n)) (rounds : ℕ)
    (s : Walk n) : Prop where
  returns : Returns (walkRound w) ⟨c, pending, none⟩ (false, s)
  readerSet : s.client.readerSet = c.readerSet
  yields : s.client.yields ≤ c.yields + rounds
  items : s.pending.map HashRead.item = pending.map HashRead.item

theorem walk_round (c : Client n) (ps : List (Track n)) (hne : ps ≠ []) :
    ∃ a b c', ps = a ++ b ∧
      run (walkRound w) (a.length + 1) ⟨c, ps.map Prod.fst, none⟩ =
        .inl ⟨c', (a.map (Track.advance w) ++ b).map Prod.fst, some a.length⟩ ∧
      c'.readerSet = c.readerSet ∧ c'.yields = c.yields + 1 ∧
      c'.posted.length = c.posted.length + a.length ∧
      (∀ q ∈ a, Misses c q.1 q.1.buf ∧ readWord q.1.buf 15840 ≠ 0) ∧
      (∀ i < a.length, w.accepts (c.posted.length + i) = true) ∧
      ∀ q ∈ b.head?, ¬ Moves w c (c.posted.length + a.length) q.1 := by
  have hstart : walkRound w ⟨c, ps.map Prod.fst, none⟩ =
      .inl ⟨{ c with yields := c.yields + 1 }, ps.map Prod.fst, some 0⟩ := by
    simp [walkRound, hne]
  obtain ⟨a', b', c', hab, hrun, hset, hy, hpost, hmoves, hacc, hstop⟩ :=
    walkRound_sweep (w := w) (ps.map Prod.fst) [] { c with yields := c.yields + 1 }
  obtain ⟨a, b, rfl, rfl, rfl⟩ := List.map_eq_append_iff.mp hab
  rw [List.length_map] at hrun hpost hacc hstop
  refine ⟨a, b, c', rfl, ?_, hset, hy, hpost, fun q hq => hmoves q.1 (List.mem_map_of_mem hq), hacc, ?_⟩
  · rw [run_next hstart]
    simpa [Track.advance, Function.comp_def] using hrun
  · intro q hq
    exact hstop q.1 (by rw [List.head?_map, hq]; rfl)

theorem Ended.of_run {c c' : Client n} {l l' : List (HashRead n)} {k N M : ℕ} {s : Walk n}
    (hrun : run (walkRound w) k ⟨c, l, none⟩ = .inl ⟨c', l', none⟩) (hset : c'.readerSet = c.readerSet)
    (hy : c'.yields + N ≤ c.yields + M) (hi : l'.map HashRead.item = l.map HashRead.item)
    (h : Ended w c' l' N s) : Ended w c l M s :=
  ⟨returns_of_run hrun h.returns, h.readerSet.trans hset, h.yields.trans hy, h.items.trans hi⟩

theorem walk_outcome (N : ℕ) (c : Client n) (ps : List (Track n)) (hv : ∀ q ∈ ps, q.Valid w)
    (hN : ∀ q ∈ ps, q.2.length ≤ N) (hne : ps ≠ []) :
    (StopsFirst w c ps → ∃ s, Ended w c (ps.map Prod.fst) N s) ∧
      (¬ StopsFirst w c ps → Diverges (walkRound w) ⟨c, ps.map Prod.fst, none⟩) := by
  induction N generalizing c ps with
  | zero =>
    obtain ⟨q, hq⟩ := List.exists_mem_of_ne_nil ps hne
    obtain ⟨us, hus⟩ := Nodes.cons (hv q hq)
    have := hN q hq
    rw [hus] at this
    simp at this
  | succ N ih =>
    obtain ⟨a, b, c', rfl, hrun, hset, hy, hpost, hmiss, hacc, hstop⟩ := walk_round (w := w) c ps hne
    cases b with
    | nil =>
      rw [List.append_nil] at hv hN hne hrun ⊢
      have hlast : walkRound w ⟨c', (a.map (Track.advance w) ++ []).map Prod.fst, some a.length⟩ =
          .inl ⟨c', (a.map (Track.advance w)).map Prod.fst, none⟩ := by
        simp [walkRound]
      have hround : run (walkRound w) (a.length + 1 + 1) ⟨c, a.map Prod.fst, none⟩ =
          .inl ⟨c', (a.map (Track.advance w)).map Prod.fst, none⟩ := by
        rw [run_add, hrun]
        exact run_next hlast 0
      have hiff := stopsFirst_advance hv hmiss hacc hset hpost
      obtain ⟨hstops, hspins⟩ := ih c' (a.map (Track.advance w))
        (by
          intro q' hq'
          obtain ⟨q, hq, rfl⟩ := List.mem_map.mp hq'
          exact Nodes.tail (hv q hq) (hmiss q hq).2)
        (by
          intro q' hq'
          obtain ⟨q, hq, rfl⟩ := List.mem_map.mp hq'
          have := hN q hq
          rw [Track.advance, List.length_tail]
          omega)
        (by simpa using hne)
      constructor
      · intro h
        obtain ⟨s, hs⟩ := hstops (hiff.mp h)
        refine ⟨s, hs.of_run hround hset (by omega) ?_⟩
        simp [Track.advance, HashRead.advance, Function.comp_def]
      · intro h
        exact diverges_of_run hround (hspins fun h' => h (hiff.mpr h'))
    | cons q b =>
      have hget : ((a.map (Track.advance w) ++ q :: b).map Prod.fst)[a.length]? = some q.1 := by simp
      have hnot := hstop q rfl
      have hsame : Misses c q.1 q.1.buf ↔ Misses c' q.1 q.1.buf := by rw [Misses, Misses, hset]
      rw [stopsFirst_iff_misses hv hmiss hacc hnot]
      constructor
      · intro hm
        have hnot' : ¬ Moves w c' c'.posted.length q.1 := by
          rw [hpost]
          exact fun h => hnot ⟨hm, h.2⟩
        obtain ⟨t, ht, hr, hty, hi⟩ := walkRound_end
          (s := ⟨c', (a.map (Track.advance w) ++ q :: b).map Prod.fst, some a.length⟩) rfl hget
          (hsame.mp hm) hnot'
        refine ⟨t, returns_of_run hrun ⟨1, run_exit ht 0⟩, hr.trans hset, ?_, ?_⟩
        · simp only [hty, hy]
          omega
        rw [hi]
        simp [Track.advance, HashRead.advance, Function.comp_def]
      · intro hm
        exact diverges_of_run hrun (walkRound_hangs rfl hget fun h => hm (hsame.mpr h))

end MetadataService.Dmc
