import MetadataService.QueuePairState

namespace MetadataService.QueuePairs

open Allocator MetaExchange Threads

variable {H : Type} {c : Cluster} {sys : System H}

section Threads

variable {s s' : Shared H} {l : Local c H} {e dataQp logQp : Endpoint} {k : Kind} {node : RemoteNode H}
  {rest : List (RemoteNode H)} {man : QPManager Endpoint}

def Connected (s : Shared H) (o : Owner c sys) (e : Endpoint) : Prop :=
  Registered s o e ∧ ∃ q, s.pairs e = some q ∧ q.state = .rts ∧ q.remoteMr.isSome

def Filled (man : QPManager Endpoint) (k : Kind) (node : RemoteNode H) : Prop :=
  ∃ i, QPManager.slot node.nodeId = .ok i ∧ (table man k i).isSome

def Local.Created (s : Shared H) (l : Local c H) (k : Kind) (node : RemoteNode H) (e : Endpoint) : Prop :=
  s.qps l.ctrl (getRcKey (l.idx k node)) = some e

structure Pairing (s : Shared H) (l : Local c H) (k : Kind) (dataQp logQp : Endpoint) (node : RemoteNode H) : Prop where
  data : l.Created s .data node dataQp
  log : l.Created s .log node logQp
  order : k = .log → Filled l.man .data node

def PointOk (s : Shared H) (l : Local c H) (node : RemoteNode H) : Point → Prop
  | .createData => True
  | .createLog dataQp => l.Created s .data node dataQp
  | .connect k dataQp logQp => Pairing s l k dataQp logQp node
  | .await k dataQp logQp n => Pairing s l k dataQp logQp node ∧
    ∃ conn : Conn H, s.conns[n]? = some conn ∧ conn.arg.idx = l.idx k node ∧
      conn.arg.qpAttr.endpoint = k.pick dataQp logQp
  | .done => False
  | .fault => True

structure Progress (sys : System H) (s : Shared H) (l : Local c H) : Prop where
  split : ∃ past, sys.remoteNodes l.thread.machineId = past ++ l.todo ∧ ∀ node ∈ past, ∀ k, Filled l.man k node
  filled : ∀ k i e, table l.man k i = some e → ∃ o : Owner c sys,
    o.thread = l.thread ∧ o.kind = k ∧ QPManager.slot o.node.nodeId = .ok i ∧ Connected s o e

structure LocalOk (sys : System H) (s : Shared H) (l : Local c H) : Prop where
  progress : Progress sys s l
  point : ∀ node rest, l.todo = node :: rest → PointOk s l node l.point

theorem Connected.mono {o : Owner c sys} (h : Connected s o e) (hl : Later s s') : Connected s' o e := by
  obtain ⟨hreg, q, hq, hrts, hmr⟩ := h
  obtain ⟨q', hq', -, hkeep, hmr'⟩ := hl.pairs e q hq
  exact ⟨hreg.mono hl, q', hq', (hkeep hrts).1, hmr' hmr⟩

theorem Local.Created.mono (h : l.Created s k node e) (hl : Later s s') : l.Created s' k node e :=
  hl.registry _ _ _ h

theorem Pairing.mono (h : Pairing s l k dataQp logQp node) (hl : Later s s') : Pairing s' l k dataQp logQp node :=
  ⟨h.data.mono hl, h.log.mono hl, h.order⟩

theorem Pairing.created (h : Pairing s l k dataQp logQp node) : l.Created s k node (k.pick dataQp logQp) := by
  cases k with
  | data => exact h.data
  | log => exact h.log

theorem PointOk.mono {p : Point} (h : PointOk s l node p) (hl : Later s s') : PointOk s' l node p := by
  cases p with
  | createData => trivial
  | createLog dataQp => exact Local.Created.mono h hl
  | connect k dataQp logQp => exact Pairing.mono h hl
  | await k dataQp logQp n =>
    obtain ⟨hpair, conn, hconn, hidx, hend⟩ := h
    obtain ⟨conn', hconn', -, harg⟩ := hl.conns n conn hconn
    exact ⟨hpair.mono hl, conn', hconn', by rw [harg, hidx], by rw [harg, hend]⟩
  | done => exact h
  | fault => trivial

theorem Progress.mono (h : Progress sys s l) (hl : Later s s') : Progress sys s' l := by
  refine ⟨h.split, fun k i e he => ?_⟩
  obtain ⟨o, ht, hk, hslot, ho⟩ := h.filled k i e he
  exact ⟨o, ht, hk, hslot, ho.mono hl⟩

theorem LocalOk.mono (h : LocalOk sys s l) (hl : Later s s') : LocalOk sys s' l :=
  ⟨h.progress.mono hl, fun node rest hn => (h.point node rest hn).mono hl⟩

theorem Progress.mem (h : Progress sys s l) (ht : l.todo = node :: rest) :
    node ∈ sys.remoteNodes l.thread.machineId := by
  obtain ⟨past, hsplit, -⟩ := h.split
  rw [hsplit, ht]
  exact List.mem_append_right _ List.mem_cons_self

def Local.owner (l : Local c H) (k : Kind) (hm : node ∈ sys.remoteNodes l.thread.machineId) : Owner c sys :=
  ⟨l.thread, k, node, hm⟩

theorem Progress.goto (h : Progress sys s l) {p : Point} (ht : l.todo = node :: rest) (hp : PointOk s l node p) :
    LocalOk sys s (l.goto p) := by
  refine ⟨⟨h.split, h.filled⟩, fun node' rest' ht' => ?_⟩
  obtain ⟨rfl, rfl⟩ := List.cons.inj (ht.symm.trans ht')
  cases p with
  | connect k dataQp logQp => exact ⟨hp.data, hp.log, hp.order⟩
  | await k dataQp logQp n => exact ⟨⟨hp.1.data, hp.1.log, hp.1.order⟩, hp.2⟩
  | _ => exact hp

theorem table_setQp_self (man : QPManager Endpoint) (k : Kind) (i : Fin 100) (e : Endpoint) :
    table (setQp man k i e) k i = some e := by
  cases k <;> simp [table, setQp]

theorem table_setQp_ne {k' : Kind} {i i' : Fin 100} (h : ¬ (k' = k ∧ i' = i)) :
    table (setQp man k i e) k' i' = table man k' i' := by
  cases k <;> cases k' <;> simp_all [table, setQp]

theorem Filled.setQp (h : Filled man k node) (j : Kind) (i : Fin 100) (e : Endpoint) :
    Filled (setQp man j i e) k node := by
  obtain ⟨i', hslot, hsome⟩ := h
  refine ⟨i', hslot, ?_⟩
  by_cases hself : k = j ∧ i' = i
  · obtain ⟨rfl, rfl⟩ := hself
    rw [table_setQp_self]
    rfl
  · rw [table_setQp_ne hself]
    exact hsome

-- A queue pair enters the table when it is ready and its remote memory is bound.
theorem Progress.store {i : Fin 100} (h : Progress sys s l) (ht : l.todo = node :: rest)
    (hslot : QPManager.slot node.nodeId = .ok i) (he : Connected s (l.owner k (h.mem ht)) e) :
    Progress sys s { l with man := setQp l.man k i e } := by
  obtain ⟨past, hsplit, hpast⟩ := h.split
  refine ⟨⟨past, hsplit, fun node hn k' => (hpast node hn k').setQp k i e⟩, fun k' i' e' he' => ?_⟩
  by_cases hself : k' = k ∧ i' = i
  · obtain ⟨rfl, rfl⟩ := hself
    change table (setQp l.man k' i' e) k' i' = some e' at he'
    rw [table_setQp_self] at he'
    cases he'
    exact ⟨l.owner k' (h.mem ht), rfl, rfl, hslot, he⟩
  · change table (setQp l.man k i e) k' i' = some e' at he'
    rw [table_setQp_ne hself] at he'
    exact h.filled k' i' e' he'

theorem Progress.advance (h : Progress sys s l) (ht : l.todo = node :: rest) (hfilled : ∀ k, Filled l.man k node) :
    LocalOk sys s { l with todo := rest, point := .createData } := by
  obtain ⟨past, hsplit, hpast⟩ := h.split
  refine ⟨⟨⟨past ++ [node], ?_, ?_⟩, h.filled⟩, fun _ _ _ => trivial⟩
  · rw [hsplit, ht, List.append_assoc]
    rfl
  · intro node' hnode'
    rcases List.mem_append.mp hnode' with hold | hnew
    · exact hpast node' hold
    · rw [List.mem_singleton.mp hnew]
      exact hfilled

theorem Progress.bind {q : RCQP H} {mr : MemoryAttr} (h : Progress sys s l) (hi : Inv c sys s)
    (ht : l.todo = node :: rest) (hcreated : l.Created s k node e) (hq : s.pairs e = some q) (hrts : q.state = .rts)
    (hmr : mr = remoteMr sys l.thread.machineId k node.nodeId) :
    Inv c sys (s.put e (q.bindRemoteMr mr)) ∧ Later s (s.put e (q.bindRemoteMr mr)) ∧
      Connected (s.put e (q.bindRemoteMr mr)) (l.owner k (h.mem ht)) e := by
  have hreg : Registered s (l.owner k (h.mem ht)) e := hcreated
  obtain ⟨q', hq', hclient⟩ := hi.registered hreg
  obtain rfl := Option.some.inj (hq.symm.trans hq')
  have hl : Later s (s.put e (q.bindRemoteMr mr)) := later_put hq rfl (fun hs => ⟨hs, rfl⟩) fun _ => rfl
  refine ⟨hi.put hreg hq hl ⟨hclient.ctrl, hclient.idx, ?_, hclient.dest, hclient.ready⟩, hl, hreg.mono hl, ?_⟩
  · rintro mr' ⟨⟩
    exact hmr
  · exact ⟨_, pairs_put_self .., hrts, rfl⟩

theorem connected_ok {rc : ConnStatus} (h : Progress sys s l) (hi : Inv c sys s) (ht : l.todo = node :: rest)
    (hpair : Pairing s l k dataQp logQp node)
    (hrts : rc = .succ → ∃ q, s.pairs (k.pick dataQp logQp) = some q ∧ q.state = .rts) :
    Inv c sys (connected sys rc k dataQp logQp node rest s l).1 ∧
      Later s (connected sys rc k dataQp logQp node rest s l).1 ∧
      LocalOk sys (connected sys rc k dataQp logQp node rest s l).1
        (connected sys rc k dataQp logQp node rest s l).2 := by
  by_cases hrc : rc = .succ
  · obtain ⟨q, hq, hready⟩ := hrts hrc
    obtain ⟨hi', hl, hconnected⟩ := h.bind hi ht hpair.created hq hready rfl
    have hpair' := hpair.mono hl
    cases hslot : QPManager.slot node.nodeId with
    | error x =>
      simp only [connected, hrc, ne_eq, not_true_eq_false, if_false, hq, Option.map_some, hslot]
      exact ⟨hi', hl, (h.mono hl).goto ht trivial⟩
    | ok i =>
      have hstore := (h.mono hl).store ht hslot hconnected
      have hfilled : Filled (setQp l.man k i (k.pick dataQp logQp)) k node :=
        ⟨i, hslot, by rw [table_setQp_self]; rfl⟩
      cases k with
      | data =>
        simp only [connected, hrc, ne_eq, not_true_eq_false, if_false, hq, Option.map_some, hslot]
        exact ⟨hi', hl, hstore.goto ht ⟨hpair'.data, hpair'.log, fun _ => hfilled⟩⟩
      | log =>
        simp only [connected, hrc, ne_eq, not_true_eq_false, if_false, hq, Option.map_some, hslot]
        have hdata := (hpair.order rfl).setQp .log i logQp
        exact ⟨hi', hl, hstore.advance ht fun
          | .data => hdata
          | .log => hfilled⟩
  · simp only [connected, ne_eq, hrc, not_false_eq_true, if_true]
    exact ⟨hi, .refl s, h.goto ht hpair⟩

variable [DecidableEq H]

theorem exec_ok (x : Choice) (hi : Inv c sys s) (h : LocalOk sys s l) :
    Inv c sys (exec sys x s l).1 ∧ Later s (exec sys x s l).1 ∧ LocalOk sys (exec sys x s l).1 (exec sys x s l).2 := by
  obtain ⟨hprogress, hpoint⟩ := h
  cases ht : l.todo with
  | nil =>
    simp only [exec, ht]
    refine ⟨hi, .refl s, ⟨hprogress.split, hprogress.filled⟩, fun node rest hn => ?_⟩
    cases ht.symm.trans hn
  | cons node rest =>
    have hmem := hprogress.mem ht
    have hp := hpoint node rest ht
    cases hpt : l.point with
    | createData =>
      simp only [exec, ht, hpt]
      split
      · rename_i e s' hcreate
        obtain ⟨hi', hl, hreg⟩ := createRcQp_ok (o := l.owner .data hmem) hi hcreate
        exact ⟨hi', hl, (hprogress.mono hl).goto ht hreg⟩
      · exact ⟨hi, .refl s, hprogress.goto ht trivial⟩
    | createLog dataQp =>
      rw [hpt] at hp
      simp only [exec, ht, hpt]
      split
      · rename_i e s' hcreate
        obtain ⟨hi', hl, hreg⟩ := createRcQp_ok (o := l.owner .log hmem) hi hcreate
        exact ⟨hi', hl, (hprogress.mono hl).goto ht ⟨Local.Created.mono hp hl, hreg, nofun⟩⟩
      · exact ⟨hi, .refl s, hprogress.goto ht trivial⟩
    | connect k dataQp logQp =>
      rw [hpt] at hp
      have hpair : Pairing s l k dataQp logQp node := hp
      have hreg : Registered s (l.owner k hmem) (k.pick dataQp logQp) := hpair.created
      simp only [exec, ht, hpt]
      split
      · rename_i rc hrc
        exact connected_ok hprogress hi ht hpair (connectArg_inl hrc)
      · rename_i arg harg
        obtain ⟨hidx, hend⟩ := connectArg_inr hi hreg harg
        split
        · have hcarries : Carries s (l.owner k hmem) ⟨node.host, arg, none⟩ :=
            ⟨rfl, hidx, hend ▸ hreg, fun _ hr => nomatch hr⟩
          have hl := later_request s ⟨node.host, arg, none⟩
          refine ⟨hi.request hcarries, hl, (hprogress.mono hl).goto ht ⟨hpair.mono hl, ⟨node.host, arg, none⟩, ?_, hidx, hend⟩⟩
          exact List.getElem?_concat_length
        · exact connected_ok hprogress hi ht hpair nofun
    | await k dataQp logQp n =>
      rw [hpt] at hp
      obtain ⟨hpair, conn, hconn, hidx, hend⟩ := hp
      simp only [exec, ht, hpt, hconn, Option.bind_some]
      split
      · split
        · rename_i r hr
          obtain ⟨o, ho⟩ := hi.conns conn (List.mem_of_getElem? hconn)
          obtain rfl : o = l.owner k hmem := Owner.idx_inj (ho.idx.symm.trans hidx)
          obtain ⟨hack, hserves⟩ := ho.reply r hr
          have hreg : Registered s (l.owner k hmem) (k.pick dataQp logQp) := hpair.created
          obtain ⟨hi₁, hl₁, hrts⟩ := connectReply_ok (x := x) hi hreg hack (hend ▸ hserves)
          obtain ⟨hi₂, hl₂, hok⟩ := connected_ok (hprogress.mono hl₁) hi₁ ht (hpair.mono hl₁) hrts
          exact ⟨hi₂, hl₁.trans hl₂, hok⟩
        · exact ⟨hi, .refl s, hprogress, hpoint⟩
      · exact connected_ok hprogress hi ht hpair nofun
    | done =>
      rw [hpt] at hp
      exact hp.elim
    | fault =>
      simp only [exec, ht, hpt]
      exact ⟨hi, .refl s, hprogress, hpoint⟩

theorem Step.ok {l' : Local c H} (h : Step sys (s, l) (s', l')) (hi : Inv c sys s) (hl : LocalOk sys s l) :
    Inv c sys s' ∧ Later s s' ∧ LocalOk sys s' l' := by
  cases h with
  | exec _ _ x => exact exec_ok x hi hl
  | serve _ _ _ h n qpn hs =>
    obtain ⟨hi', hlater⟩ := connectionHandler_ok hi hs
    exact ⟨hi', hlater, hl.mono hlater⟩
  | clean _ _ h =>
    obtain ⟨hi', hlater⟩ := hi.clean h
    exact ⟨hi', hlater, hl.mono hlater⟩

theorem exec_thread (x : Choice) (s : Shared H) (l : Local c H) : (exec sys x s l).2.thread = l.thread := by
  unfold exec connected
  repeat' split
  all_goals rfl

variable {d : Threads c.Thread (Shared H) (Local c H)}

theorem Run.thread (h : Run sys d) (t : c.Thread) : (d.point t).thread = t := by
  induction h with
  | refl => rfl
  | @tail d e hd hm ih =>
    obtain ⟨u, s, l, hs, rfl⟩ := hm
    by_cases ht : t = u
    · subst ht
      rw [set_point_self, ← ih]
      cases hs with
      | exec _ _ x => exact exec_thread x d.shared (d.point t)
      | serve _ _ _ h n qpn hs => rfl
      | clean _ _ h => rfl
    · rw [set_point_ne _ ht]
      exact ih

theorem Run.ok (h : Run sys d) : Inv c sys d.shared ∧ ∀ t, LocalOk sys d.shared (d.point t) := by
  refine Reachable.local_inv (I := Inv c sys) (P := LocalOk sys) h new_inv (fun t => ?_) ?_ ?_
  · refine ⟨⟨⟨[], rfl, List.forall_mem_nil _⟩, fun k i e he => ?_⟩, fun _ _ _ => trivial⟩
    cases k <;> cases he
  · intro s l s' l' hi hl hs
    obtain ⟨hi', -, hl'⟩ := hs.ok hi hl
    exact ⟨hi', hl'⟩
  · intro s l s' l' m hi hl hs hm
    obtain ⟨-, hlater, -⟩ := hs.ok hi hl
    exact hm.mono hlater

end Threads

end MetadataService.QueuePairs
