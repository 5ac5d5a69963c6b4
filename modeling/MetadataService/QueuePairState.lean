import MetadataService.QueuePairs

namespace MetadataService.QueuePairs

open Allocator MetaExchange Threads

section Identifiers

variable {n w : Int32} {a b : ℕ}

theorem encodeQp64bId_toNat (hn : n.toInt = a) (hw : w.toInt = b) :
    (encodeQp64bId n w).toNat = 2 ^ 32 * a + b := by
  have ha := n.toInt_lt
  have hb := w.toInt_lt
  have hhigh : n.toInt64.toUInt64.toNat = a := toNat_toUInt64_of_toInt (by rw [Int32.toInt_toInt64, hn])
  have hlow : w.toInt64.toUInt64.toNat = b := toNat_toUInt64_of_toInt (by rw [Int32.toInt_toInt64, hw])
  rw [encodeQp64bId, UInt64.toNat_or, UInt64.toNat_shiftLeft, hhigh, hlow, Nat.shiftLeft_eq]
  change a * 2 ^ 32 % 2 ^ 64 ||| b = _
  rw [Nat.mod_eq_of_lt (by omega), Nat.mul_comm, Nat.two_pow_add_eq_or_of_lt (by omega)]

def Kind.bit : Kind → ℕ
  | .data => 0
  | .log => 1

theorem Kind.bit_lt (k : Kind) : k.bit < 2 := by cases k <;> decide

theorem Kind.bit_inj {k j : Kind} (h : k.bit = j.bit) : k = j := by
  cases k <;> cases j <;> first | rfl | cases h

theorem workerId_toInt {tid : UInt32} (h : tid.toNat < 2 ^ 30) (k : Kind) :
    (workerId tid k).toInt = (2 * tid.toNat + k.bit : ℕ) := by
  have htid : tid.toInt32.toInt = tid.toNat := by
    change tid.toBitVec.toInt = _
    rw [BitVec.toInt_eq_toNat_of_lt (by change 2 * tid.toNat < 2 ^ 32; omega)]
    rfl
  have hdouble : ((tid.toNat : ℤ) * 2).bmod (2 ^ 32) = tid.toNat * 2 := Int.bmod_eq_of_le (by omega) (by omega)
  cases k with
  | data =>
    rw [workerId, Int32.toInt_mul, htid]
    change ((tid.toNat : ℤ) * 2).bmod (2 ^ 32) = _
    rw [hdouble, mul_comm]
    rfl
  | log =>
    rw [workerId, Int32.toInt_add, Int32.toInt_mul, htid]
    change (((tid.toNat : ℤ) * 2).bmod (2 ^ 32) + 1).bmod (2 ^ 32) = _
    rw [hdouble, Int.bmod_eq_of_le (by omega) (by omega), mul_comm]
    rfl

-- `from_node` has 16 bits, which node ids fit into.
theorem nodeId_round_trip (h : NodeInRange n) : n.toInt16.toUInt16.toUInt32.toInt32 = n := by
  have hall : ∀ k < 100, (Int32.ofNat k).toInt16.toUInt16.toUInt32.toInt32 = Int32.ofNat k := by decide
  have hn : n = Int32.ofNat n.toInt.toNat := by
    have h0 : 0 ≤ n.toInt := Int32.le_iff_toInt_le.mp h.1
    have hlt := h.toNat_lt
    apply Int32.toInt_inj.mp
    rw [Int32.toInt_ofNat_of_lt (by omega), Int.toNat_of_nonneg h0]
  rw [hn]
  exact hall _ h.toNat_lt

end Identifiers

variable {H : Type} {c : Cluster} {sys : System H}

structure Owner (c : Cluster) (sys : System H) where
  thread : c.Thread
  kind : Kind
  node : RemoteNode H
  mem : node ∈ sys.remoteNodes thread.machineId

namespace Owner

def idx (o : Owner c sys) : QPIdx := createRcIdx o.node.nodeId (workerId o.thread.globalId o.kind)

def key (o : Owner c sys) : UInt64 := getRcKey o.idx

theorem globalId_lt (t : c.Thread) : t.globalId.toNat < 2 ^ 30 :=
  t.globalId_lt.trans_le (c.totalThreadNum_toNat ▸ c.total_room.2)

theorem key_toNat (o : Owner c sys) :
    o.key.toNat = 2 ^ 32 * o.node.nodeId.toInt.toNat + (2 * o.thread.globalId.toNat + o.kind.bit) := by
  have hnode : 0 ≤ o.node.nodeId.toInt := Int32.le_iff_toInt_le.mp (sys.inRange _ _ o.mem).1
  apply encodeQp64bId_toNat
  · exact (Int.toNat_of_nonneg hnode).symm
  · exact workerId_toInt (globalId_lt o.thread) o.kind

theorem key_inj {o o' : Owner c sys} (h : o.key = o'.key) : o = o' := by
  have hkey := congrArg UInt64.toNat h
  rw [key_toNat, key_toNat] at hkey
  have hk := o.kind.bit_lt
  have hk' := o'.kind.bit_lt
  have ht := globalId_lt o.thread
  have ht' := globalId_lt o'.thread
  have hthread : o.thread = o'.thread := Cluster.Thread.globalId_inj (by omega)
  have hkind : o.kind = o'.kind := Kind.bit_inj (by omega)
  have hnat : o.node.nodeId.toInt.toNat = o'.node.nodeId.toInt.toNat := by omega
  have hid : o.node.nodeId = o'.node.nodeId := by
    have h0 : 0 ≤ o.node.nodeId.toInt := Int32.le_iff_toInt_le.mp (sys.inRange _ _ o.mem).1
    have h0' : 0 ≤ o'.node.nodeId.toInt := Int32.le_iff_toInt_le.mp (sys.inRange _ _ o'.mem).1
    apply Int32.toInt_inj.mp
    omega
  obtain ⟨t, k, node, hmem⟩ := o
  obtain ⟨t', k', node', hmem'⟩ := o'
  obtain rfl : t = t' := hthread
  obtain rfl : k = k' := hkind
  obtain rfl : node = node' := List.inj_on_of_nodup_map (sys.distinct t.machineId) hmem hmem' hid
  rfl

theorem idx_inj {o o' : Owner c sys} (h : o.idx = o'.idx) : o = o' := key_inj (congrArg getRcKey h)

end Owner

section Invariant

variable {s s' : Shared H} {o : Owner c sys} {e client : Endpoint} {q q' : RCQP H}

def Registered (s : Shared H) (o : Owner c sys) (e : Endpoint) : Prop :=
  s.qps (.compute o.thread.machineId) o.key = some e

def Serves (s : Shared H) (o : Owner c sys) (e client : Endpoint) : Prop :=
  ∃ q, s.pairs e = some q ∧ q.ctrl = .memory o.node.host ∧ q.state = .rts ∧ q.dest = some client

structure Client (s : Shared H) (o : Owner c sys) (e : Endpoint) (q : RCQP H) : Prop where
  ctrl : q.ctrl = .compute o.thread.machineId
  idx : q.idx = o.idx
  mr : ∀ mr, q.remoteMr = some mr → mr = remoteMr sys o.thread.machineId o.kind o.node.nodeId
  dest : ∀ e', q.dest = some e' → Serves s o e' e
  ready : q.state = .rtr ∨ q.state = .rts → q.dest.isSome

structure Carries (s : Shared H) (o : Owner c sys) (conn : Conn H) : Prop where
  host : conn.host = o.node.host
  idx : conn.arg.idx = o.idx
  registered : Registered s o conn.arg.qpAttr.endpoint
  reply : ∀ r, conn.reply = some r → r.ack = .succ ∧ Serves s o r.qp.endpoint conn.arg.qpAttr.endpoint

variable (c sys) in
structure Inv (s : Shared H) : Prop where
  located : ∀ e q, s.pairs e = some q → (getAttr sys q.ctrl e.qpn).endpoint = e
  clients : ∀ m key e, s.qps (.compute m) key = some e →
    ∃ o : Owner c sys, o.thread.machineId = m ∧ o.key = key ∧ ∃ q, s.pairs e = some q ∧ Client s o e q
  servers : ∀ h key e, s.qps (.memory h) key = some e →
    ∃ (o : Owner c sys) (client : Endpoint), o.node.host = h ∧ o.key = key ∧ Registered s o client ∧ Serves s o e client
  conns : ∀ conn ∈ s.conns, ∃ o : Owner c sys, Carries s o conn

theorem new_inv : Inv c sys (Shared.new : Shared H) := by
  refine ⟨fun e q h => ?_, fun m key e h => ?_, fun h key e hk => ?_, List.forall_mem_nil _⟩
  · cases h
  · cases h
  · cases hk

theorem Inv.registered (hi : Inv c sys s) (h : Registered s o e) : ∃ q, s.pairs e = some q ∧ Client s o e q := by
  obtain ⟨o', -, hkey, hq⟩ := hi.clients _ _ _ h
  obtain rfl := Owner.key_inj hkey
  exact hq

structure Later (s s' : Shared H) : Prop where
  registry : ∀ m key e, s.qps (.compute m) key = some e → s'.qps (.compute m) key = some e
  pairs : ∀ e q, s.pairs e = some q → ∃ q', s'.pairs e = some q' ∧ q'.ctrl = q.ctrl ∧
    (q.state = .rts → q'.state = .rts ∧ q'.dest = q.dest) ∧ (q.remoteMr.isSome → q'.remoteMr.isSome)
  conns : ∀ (n : ℕ) (conn : Conn H), s.conns[n]? = some conn →
    ∃ conn' : Conn H, s'.conns[n]? = some conn' ∧ conn'.host = conn.host ∧ conn'.arg = conn.arg

theorem Later.refl (s : Shared H) : Later s s :=
  ⟨fun _ _ _ h => h, fun _ q hq => ⟨q, hq, rfl, fun h => ⟨h, rfl⟩, id⟩, fun _ conn h => ⟨conn, h, rfl, rfl⟩⟩

theorem Later.trans {s'' : Shared H} (h : Later s s') (h' : Later s' s'') : Later s s'' := by
  refine ⟨fun m key e hk => h'.registry m key e (h.registry m key e hk), fun e q hq => ?_, fun n conn hn => ?_⟩
  · obtain ⟨q', hq', hctrl, hrts, hmr⟩ := h.pairs e q hq
    obtain ⟨q'', hq'', hctrl', hrts', hmr'⟩ := h'.pairs e q' hq'
    refine ⟨q'', hq'', hctrl'.trans hctrl, fun hs => ?_, fun hs => hmr' (hmr hs)⟩
    obtain ⟨hs', hdest⟩ := hrts hs
    obtain ⟨hs'', hdest'⟩ := hrts' hs'
    exact ⟨hs'', hdest'.trans hdest⟩
  · obtain ⟨conn', hn', hhost, harg⟩ := h.conns n conn hn
    obtain ⟨conn'', hn'', hhost', harg'⟩ := h'.conns n conn' hn'
    exact ⟨conn'', hn'', hhost'.trans hhost, harg'.trans harg⟩

theorem Registered.mono (h : Registered s o e) (hl : Later s s') : Registered s' o e := hl.registry _ _ _ h

theorem Serves.mono (h : Serves s o e client) (hl : Later s s') : Serves s' o e client := by
  obtain ⟨q, hq, hctrl, hrts, hdest⟩ := h
  obtain ⟨q', hq', hctrl', hkeep, -⟩ := hl.pairs e q hq
  obtain ⟨hrts', hdest'⟩ := hkeep hrts
  exact ⟨q', hq', hctrl'.trans hctrl, hrts', hdest'.trans hdest⟩

theorem Client.mono (h : Client s o e q) (hl : Later s s') : Client s' o e q :=
  ⟨h.ctrl, h.idx, h.mr, fun e' he' => (h.dest e' he').mono hl, h.ready⟩

theorem Carries.mono {conn : Conn H} (h : Carries s o conn) (hl : Later s s') : Carries s' o conn :=
  ⟨h.host, h.idx, h.registered.mono hl, fun r hr => (h.reply r hr).imp_right fun hs => hs.mono hl⟩

theorem Inv.next (hi : Inv c sys s) (hl : Later s s')
    (hloc : ∀ e q, s'.pairs e = some q → (getAttr sys q.ctrl e.qpn).endpoint = e)
    (hclients : ∀ m key e, s'.qps (.compute m) key = some e →
      (s.qps (.compute m) key = some e ∧ ∀ q, s.pairs e = some q → s'.pairs e = some q) ∨
        ∃ o : Owner c sys, o.thread.machineId = m ∧ o.key = key ∧ ∃ q, s'.pairs e = some q ∧ Client s' o e q)
    (hservers : ∀ h key e, s'.qps (.memory h) key = some e → s.qps (.memory h) key = some e ∨
      ∃ (o : Owner c sys) (client : Endpoint),
        o.node.host = h ∧ o.key = key ∧ Registered s' o client ∧ Serves s' o e client)
    (hconns : ∀ conn ∈ s'.conns, conn ∈ s.conns ∨ ∃ o : Owner c sys, Carries s' o conn) : Inv c sys s' := by
  refine ⟨hloc, fun m key e hk => ?_, fun h key e hk => ?_, fun conn hconn => ?_⟩
  · rcases hclients m key e hk with ⟨hold, hpairs⟩ | hnew
    · obtain ⟨o, hm, hkey, q, hq, hclient⟩ := hi.clients m key e hold
      exact ⟨o, hm, hkey, q, hpairs q hq, hclient.mono hl⟩
    · exact hnew
  · rcases hservers h key e hk with hold | hnew
    · obtain ⟨o, client, hhost, hkey, hreg, hserves⟩ := hi.servers h key e hold
      exact ⟨o, client, hhost, hkey, hreg.mono hl, hserves.mono hl⟩
    · exact hnew
  · rcases hconns conn hconn with hold | hnew
    · obtain ⟨o, ho⟩ := hi.conns conn hold
      exact ⟨o, ho.mono hl⟩
    · exact hnew

def Shared.put (s : Shared H) (e : Endpoint) (q : RCQP H) : Shared H :=
  { s with pairs := Function.update s.pairs e (some q) }

theorem pairs_put_self (s : Shared H) (e : Endpoint) (q : RCQP H) : (s.put e q).pairs e = some q :=
  Function.update_self ..

theorem pairs_put_ne {e' : Endpoint} (h : e' ≠ e) : (s.put e q).pairs e' = s.pairs e' :=
  Function.update_of_ne h ..

theorem later_put (hq : s.pairs e = some q) (hctrl : q'.ctrl = q.ctrl)
    (hrts : q.state = .rts → q'.state = .rts ∧ q'.dest = q.dest)
    (hmr : q.remoteMr.isSome → q'.remoteMr.isSome) : Later s (s.put e q') := by
  refine ⟨fun _ _ _ h => h, fun x p hp => ?_, fun _ conn h => ⟨conn, h, rfl, rfl⟩⟩
  by_cases hx : x = e
  · subst hx
    obtain rfl := Option.some.inj (hq.symm.trans hp)
    exact ⟨q', pairs_put_self .., hctrl, hrts, hmr⟩
  · exact ⟨p, (pairs_put_ne hx).trans hp, rfl, fun h => ⟨h, rfl⟩, id⟩

theorem Inv.put (hi : Inv c sys s) (hreg : Registered s o e) (hq : s.pairs e = some q) (hl : Later s (s.put e q'))
    (hclient : Client s o e q') : Inv c sys (s.put e q') := by
  have hold : Client s o e q := by
    obtain ⟨p, hp, hold⟩ := hi.registered hreg
    obtain rfl := Option.some.inj (hq.symm.trans hp)
    exact hold
  refine hi.next hl (fun x p hx => ?_) (fun m key x hx => ?_) (fun _ _ _ hx => .inl hx) (fun _ hconn => .inl hconn)
  · by_cases hxe : x = e
    · subst hxe
      obtain rfl := Option.some.inj ((pairs_put_self ..).symm.trans hx)
      rw [hclient.ctrl, ← hold.ctrl]
      exact hi.located x q hq
    · rw [pairs_put_ne hxe] at hx
      exact hi.located x p hx
  · by_cases hxe : x = e
    · subst hxe
      obtain ⟨o', hm, hkey, p, hp, hold'⟩ := hi.clients m key x hx
      obtain rfl := Option.some.inj (hq.symm.trans hp)
      obtain rfl := Owner.idx_inj (hold'.idx.symm.trans hold.idx)
      exact .inr ⟨o', hm, hkey, q', pairs_put_self .., hclient.mono hl⟩
    · exact .inl ⟨hx, fun p hp => (pairs_put_ne hxe).trans hp⟩

section Registration

theorem compute_ne_memory (m : Int32) (h : H) : (.compute m : Ctrl H) ≠ .memory h := by rintro ⟨⟩

variable [DecidableEq H] {ctrl : Ctrl H} {key : UInt64}

def Shared.register (s : Shared H) (ctrl : Ctrl H) (key : UInt64) (e : Endpoint) (q : RCQP H) : Shared H :=
  { s with
    qps := Function.update s.qps ctrl (Function.update (s.qps ctrl) key (some e))
    pairs := Function.update s.pairs e (some q) }

theorem qps_register_self (s : Shared H) (ctrl : Ctrl H) (key : UInt64) (e : Endpoint) (q : RCQP H) :
    (s.register ctrl key e q).qps ctrl key = some e := by
  simp [Shared.register]

theorem qps_register {ctrl' : Ctrl H} {key' : UInt64} {x : Endpoint}
    (h : (s.register ctrl key e q).qps ctrl' key' = some x) :
    (ctrl' = ctrl ∧ key' = key ∧ x = e) ∨ s.qps ctrl' key' = some x := by
  simp only [Shared.register] at h
  by_cases hctrl : ctrl' = ctrl
  · subst hctrl
    rw [Function.update_self] at h
    by_cases hkey : key' = key
    · subst hkey
      rw [Function.update_self] at h
      exact .inl ⟨rfl, rfl, (Option.some.inj h).symm⟩
    · rw [Function.update_of_ne hkey] at h
      exact .inr h
  · rw [Function.update_of_ne hctrl] at h
    exact .inr h

theorem qps_register_old {ctrl' : Ctrl H} {key' : UInt64} {x : Endpoint} (hkey : s.qps ctrl key = none)
    (h : s.qps ctrl' key' = some x) : (s.register ctrl key e q).qps ctrl' key' = some x := by
  simp only [Shared.register]
  by_cases hctrl : ctrl' = ctrl
  · subst hctrl
    rw [Function.update_self, Function.update_of_ne]
    · exact h
    · rintro rfl
      rw [hkey] at h
      cases h
  · rw [Function.update_of_ne hctrl]
    exact h

theorem pairs_register_self (s : Shared H) (ctrl : Ctrl H) (key : UInt64) (e : Endpoint) (q : RCQP H) :
    (s.register ctrl key e q).pairs e = some q :=
  Function.update_self ..

theorem pairs_register_old {x : Endpoint} {p : RCQP H} (hfresh : s.pairs e = none) (h : s.pairs x = some p) :
    (s.register ctrl key e q).pairs x = some p := by
  have hne : x ≠ e := by
    rintro rfl
    rw [hfresh] at h
    cases h
  exact (Function.update_of_ne hne ..).trans h

theorem later_register (hkey : s.qps ctrl key = none) (hfresh : s.pairs e = none) :
    Later s (s.register ctrl key e q) := by
  refine ⟨fun m k x h => qps_register_old hkey h, fun x p hp => ?_, fun n conn hn => ⟨conn, hn, rfl, rfl⟩⟩
  exact ⟨p, pairs_register_old hfresh hp, rfl, fun h => ⟨h, rfl⟩, id⟩

theorem located_register (hi : Inv c sys s) (hloc : (getAttr sys q.ctrl e.qpn).endpoint = e) (x : Endpoint)
    (p : RCQP H) (h : (s.register ctrl key e q).pairs x = some p) : (getAttr sys p.ctrl x.qpn).endpoint = x := by
  by_cases hx : x = e
  · subst hx
    rw [pairs_register_self] at h
    rw [← Option.some.inj h]
    exact hloc
  · have hold : s.pairs x = some p := (Function.update_of_ne hx ..).symm.trans h
    exact hi.located x p hold

theorem Inv.create {state : QPState} (hi : Inv c sys s) (hkey : s.qps (.compute o.thread.machineId) o.key = none)
    (hfresh : s.pairs e = none) (hloc : (getAttr sys (.compute o.thread.machineId) e.qpn).endpoint = e)
    (hstate : ¬ (state = .rtr ∨ state = .rts)) :
    Inv c sys (s.register (.compute o.thread.machineId) o.key e
      ⟨.compute o.thread.machineId, o.idx, state, none, none⟩) := by
  have hl := later_register (q := ⟨.compute o.thread.machineId, o.idx, state, none, none⟩) hkey hfresh
  refine hi.next hl (located_register hi hloc) (fun m key x hx => ?_) (fun h key x hx => ?_) (fun _ hconn => .inl hconn)
  · rcases qps_register hx with ⟨hm, rfl, rfl⟩ | hold
    · refine .inr ⟨o, (Ctrl.compute.inj hm).symm, rfl, _, pairs_register_self .., rfl, rfl, ?_, ?_, ?_⟩
      · exact fun _ h => nomatch h
      · exact fun _ h => nomatch h
      · exact fun h => absurd h hstate
    · exact .inl ⟨hold, fun p hp => pairs_register_old hfresh hp⟩
  · rcases qps_register hx with ⟨hm, -, -⟩ | hold
    · cases hm
    · exact .inl hold

theorem Inv.serve {h : H} (hi : Inv c sys s) (hhost : o.node.host = h) (hreg : Registered s o client)
    (hkey : s.qps (.memory h) o.key = none) (hfresh : s.pairs e = none)
    (hloc : (getAttr sys (.memory h) e.qpn).endpoint = e) :
    Inv c sys (s.register (.memory h) o.key e ⟨.memory h, o.idx, .rts, some client, none⟩) := by
  subst hhost
  have hl := later_register (q := ⟨.memory o.node.host, o.idx, .rts, some client, none⟩) hkey hfresh
  refine hi.next hl (located_register hi hloc) (fun m key x hx => ?_) (fun h key x hx => ?_) (fun _ hconn => .inl hconn)
  · rcases qps_register hx with ⟨hm, -, -⟩ | hold
    · cases hm
    · exact .inl ⟨hold, fun p hp => pairs_register_old hfresh hp⟩
  · rcases qps_register hx with ⟨hm, rfl, rfl⟩ | hold
    · exact .inr ⟨o, client, (Ctrl.memory.inj hm).symm, rfl, hreg.mono hl, _, pairs_register_self .., rfl, rfl, rfl⟩
    · exact .inl hold

theorem qps_cleanQP_compute (h : H) (m : Int32) (key : UInt64) :
    (cleanQP h s).qps (.compute m) key = s.qps (.compute m) key := by
  simp only [cleanQP, Function.update_of_ne (compute_ne_memory m h)]

theorem Inv.clean (hi : Inv c sys s) (h : H) : Inv c sys (cleanQP h s) ∧ Later s (cleanQP h s) := by
  have hl : Later s (cleanQP h s) := by
    refine ⟨fun m k x hx => ?_, fun x p hp => ⟨p, hp, rfl, fun h => ⟨h, rfl⟩, id⟩, fun n conn hn => ⟨conn, hn, rfl, rfl⟩⟩
    exact (qps_cleanQP_compute h m k).trans hx
  refine ⟨hi.next hl hi.located (fun m key x hx => ?_) (fun g key x hx => ?_) (fun _ hconn => .inl hconn), hl⟩
  · rw [qps_cleanQP_compute] at hx
    exact .inl ⟨hx, fun _ hp => hp⟩
  · left
    by_cases hg : g = h
    · subst hg
      simp [cleanQP] at hx
    · have hne : (Ctrl.memory g : Ctrl H) ≠ .memory h := fun heq => hg (Ctrl.memory.inj heq)
      exact (congrFun (Function.update_of_ne hne ..) key).symm.trans hx

end Registration

section Connections

variable {conn : Conn H} {n : ℕ}

theorem Inv.setConns {conns : List (Conn H)} (hi : Inv c sys s) (hl : Later s { s with conns })
    (hconns : ∀ conn ∈ conns, conn ∈ s.conns ∨ ∃ o : Owner c sys, Carries s o conn) :
    Inv c sys { s with conns } := by
  refine hi.next hl hi.located (fun _ _ _ hx => .inl ⟨hx, fun _ hp => hp⟩) (fun _ _ _ hx => .inl hx) ?_
  intro conn hconn
  exact (hconns conn hconn).imp_right fun ⟨o, ho⟩ => ⟨o, ho.mono hl⟩

theorem later_request (s : Shared H) (conn : Conn H) : Later s { s with conns := s.conns ++ [conn] } := by
  refine ⟨fun _ _ _ h => h, fun x p hp => ⟨p, hp, rfl, fun h => ⟨h, rfl⟩, id⟩, fun n conn' hn => ⟨conn', ?_, rfl, rfl⟩⟩
  exact (List.getElem?_append_left (List.getElem?_eq_some_iff.mp hn).1).trans hn

theorem later_reply {r : ConnReply} (hconn : s.conns[n]? = some conn) :
    Later s { s with conns := s.conns.set n { conn with reply := some r } } := by
  refine ⟨fun _ _ _ h => h, fun x p hp => ⟨p, hp, rfl, fun h => ⟨h, rfl⟩, id⟩, fun i conn' hi => ?_⟩
  by_cases hin : i = n
  · subst hin
    obtain rfl := Option.some.inj (hconn.symm.trans hi)
    have hlt := (List.getElem?_eq_some_iff.mp hi).1
    exact ⟨_, List.getElem?_set_self hlt, rfl, rfl⟩
  · exact ⟨conn', (List.getElem?_set_ne (Ne.symm hin)).trans hi, rfl, rfl⟩

theorem Inv.request (hi : Inv c sys s) (hcarries : Carries s o conn) :
    Inv c sys { s with conns := s.conns ++ [conn] } := by
  apply hi.setConns (later_request s conn)
  intro conn' hconn'
  rcases List.mem_append.mp hconn' with hold | hnew
  · exact .inl hold
  · rw [List.mem_singleton.mp hnew]
    exact .inr ⟨o, hcarries⟩

theorem Inv.reply {r : ConnReply} (hi : Inv c sys s) (hconn : s.conns[n]? = some conn) (hcarries : Carries s o conn)
    (hack : r.ack = .succ) (hserves : Serves s o r.qp.endpoint conn.arg.qpAttr.endpoint) :
    Inv c sys { s with conns := s.conns.set n { conn with reply := some r } } := by
  apply hi.setConns (later_reply hconn)
  intro conn' hconn'
  rcases List.mem_or_eq_of_mem_set hconn' with hold | rfl
  · exact .inl hold
  · refine .inr ⟨o, hcarries.host, hcarries.idx, hcarries.registered, ?_⟩
    rintro r' ⟨⟩
    exact ⟨hack, hserves⟩

end Connections

end Invariant

section Calls

variable {s s' : Shared H} {o : Owner c sys} {e : Endpoint}

theorem connectArg_inl {rc : ConnStatus} (h : connectArg sys s e = .inl rc) (hrc : rc = .succ) :
    ∃ q, s.pairs e = some q ∧ q.state = .rts := by
  subst hrc
  unfold connectArg at h
  split at h
  · rename_i q hq
    split at h
    · cases h
    · rename_i hstate
      exact ⟨q, hq, hstate⟩
    · cases h
    · cases h
  · cases h

theorem connectArg_inr {arg : QPConnArg} (hi : Inv c sys s) (hreg : Registered s o e)
    (h : connectArg sys s e = .inr arg) : arg.idx = o.idx ∧ arg.qpAttr.endpoint = e := by
  obtain ⟨q, hq, hclient⟩ := hi.registered hreg
  have hloc := hi.located e q hq
  simp only [connectArg, hq] at h
  split at h
  · cases h
    refine ⟨?_, hloc⟩
    rw [hclient.idx]
    simp only [QPConnArg.idx, Owner.idx, createRcIdx, Int32.toInt32_toUInt32]
    rw [nodeId_round_trip (sys.inRange _ _ o.mem)]
  · cases h
  · cases h
  · cases h

theorem modify_some {f : RCQP H → Option (RCQP H)} (h : s.modify e f = some s') :
    ∃ q q', s.pairs e = some q ∧ f q = some q' ∧ s' = s.put e q' := by
  obtain ⟨q', hq', rfl⟩ := Option.map_eq_some_iff.mp h
  obtain ⟨q, hq, hf⟩ := Option.bind_eq_some_iff.mp hq'
  exact ⟨q, q', hq, hf, rfl⟩

theorem ready2rcv_ok {attr : QPAttr} {rcv : Bool} (hi : Inv c sys s) (hreg : Registered s o e)
    (hserves : Serves s o attr.endpoint e)
    (h : s.modify e (fun q => if rcv then q.ready2rcv attr else none) = some s') : Inv c sys s' ∧ Later s s' := by
  obtain ⟨q, q', hq, hf, rfl⟩ := modify_some h
  obtain ⟨p, hp, hclient⟩ := hi.registered hreg
  obtain rfl := Option.some.inj (hq.symm.trans hp)
  simp only [RCQP.ready2rcv, Option.ite_none_right_eq_some] at hf
  obtain ⟨-, hinit, hf⟩ := hf
  cases hf
  have hl : Later s (s.put e { q with state := .rtr, dest := some attr.endpoint }) :=
    later_put hq rfl (fun hs => absurd (hinit.symm.trans hs) (by decide)) id
  refine ⟨hi.put hreg hq hl ⟨hclient.ctrl, hclient.idx, hclient.mr, ?_, fun _ => rfl⟩, hl⟩
  rintro e' ⟨⟩
  exact hserves

theorem ready2send_ok {send : Bool} (hi : Inv c sys s) (hreg : Registered s o e)
    (h : s.modify e (fun q => if send then q.ready2send else none) = some s') :
    Inv c sys s' ∧ Later s s' ∧ ∃ q, s'.pairs e = some q ∧ q.state = .rts := by
  obtain ⟨q, q', hq, hf, rfl⟩ := modify_some h
  obtain ⟨p, hp, hclient⟩ := hi.registered hreg
  obtain rfl := Option.some.inj (hq.symm.trans hp)
  simp only [RCQP.ready2send, Option.ite_none_right_eq_some] at hf
  obtain ⟨-, hrtr, hf⟩ := hf
  cases hf
  have hl : Later s (s.put e { q with state := .rts }) := later_put hq rfl (fun _ => ⟨rfl, rfl⟩) id
  refine ⟨hi.put hreg hq hl ⟨hclient.ctrl, hclient.idx, hclient.mr, hclient.dest, ?_⟩, hl, _, pairs_put_self .., rfl⟩
  exact fun _ => hclient.ready (.inl hrtr)

theorem connectReply_ok {x : Choice} {r : ConnReply} (hi : Inv c sys s) (hreg : Registered s o e)
    (hack : r.ack = .succ) (hserves : Serves s o r.qp.endpoint e) :
    Inv c sys (connectReply x s e r).2 ∧ Later s (connectReply x s e r).2 ∧
      ((connectReply x s e r).1 = .succ → ∃ q, (connectReply x s e r).2.pairs e = some q ∧ q.state = .rts) := by
  unfold connectReply
  rw [if_neg (not_not.mpr hack)]
  split
  · exact ⟨hi, .refl s, nofun⟩
  · rename_i s₁ hrcv
    obtain ⟨hi₁, hl₁⟩ := ready2rcv_ok hi hreg hserves hrcv
    split
    · exact ⟨hi₁, hl₁, nofun⟩
    · rename_i s₂ hsend
      obtain ⟨hi₂, hl₂, hready⟩ := ready2send_ok hi₁ (hreg.mono hl₁) hsend
      exact ⟨hi₂, hl₁.trans hl₂, fun _ => hready⟩

variable [DecidableEq H]

theorem modify_register {ctrl : Ctrl H} {key : UInt64} {q : RCQP H} (f : RCQP H → Option (RCQP H)) :
    (s.register ctrl key e q).modify e f = (f q).map fun q' => s.register ctrl key e q' := by
  rw [Shared.modify, pairs_register_self, Option.bind_some]
  simp only [Shared.register, Function.update_idem]

theorem createRcQp_new {ctrl : Ctrl H} {idx : QPIdx} {qpn : UInt32} {init : Bool}
    (hkey : s.qps ctrl (getRcKey idx) = none) (h : createRcQp sys s ctrl idx qpn init = some (e, s')) :
    s.pairs e = none ∧ (getAttr sys ctrl e.qpn).endpoint = e ∧
      s' = s.register ctrl (getRcKey idx) e ⟨ctrl, idx, if init then .init else .reset, none, none⟩ := by
  simp only [createRcQp, hkey, Option.ite_none_left_eq_some] at h
  obtain ⟨hfresh, h⟩ := h
  cases h
  exact ⟨Option.not_isSome_iff_eq_none.mp hfresh, rfl, rfl⟩

theorem createRcQp_ok {qpn : UInt32} {init : Bool} (hi : Inv c sys s)
    (h : createRcQp sys s (.compute o.thread.machineId) o.idx qpn init = some (e, s')) :
    Inv c sys s' ∧ Later s s' ∧ Registered s' o e := by
  cases hkey : s.qps (.compute o.thread.machineId) (getRcKey o.idx) with
  | some e' =>
    simp only [createRcQp, hkey] at h
    cases h
    exact ⟨hi, .refl s, hkey⟩
  | none =>
    obtain ⟨hfresh, hloc, rfl⟩ := createRcQp_new hkey h
    refine ⟨hi.create hkey hfresh hloc ?_, later_register hkey hfresh, qps_register_self ..⟩
    cases init <;> decide

-- A known queue pair serves whoever asks for it, since only its own client has that key.
theorem handleQP_ok {h : H} {qpn : UInt32} {conn : Conn H} {r : ConnReply} (hi : Inv c sys s)
    (hcarries : Carries s o conn) (hhost : conn.host = h) (hr : handleQP sys h qpn conn.arg s = some (r, s')) :
    Inv c sys s' ∧ Later s s' ∧ s'.conns = s.conns ∧ r.ack = .succ ∧
      Serves s' o r.qp.endpoint conn.arg.qpAttr.endpoint := by
  have hkey : getRcKey conn.arg.idx = o.key := congrArg getRcKey hcarries.idx
  have hnode : o.node.host = h := hcarries.host.symm.trans hhost
  cases hreg : s.qps (.memory h) (getRcKey conn.arg.idx) with
  | some e =>
    simp only [handleQP, hreg] at hr
    cases hr
    obtain ⟨o', client, hhost', hkey', hreg, hserves⟩ := hi.servers h _ e hreg
    rw [hkey] at hkey'
    obtain rfl := Owner.key_inj hkey'
    obtain rfl := Option.some.inj (hreg.symm.trans hcarries.registered)
    refine ⟨hi, .refl s, rfl, rfl, ?_⟩
    obtain ⟨q, hq, hctrl, hq'⟩ := hserves
    have hloc := hi.located e q hq
    rw [hctrl, hhost'] at hloc
    exact ⟨q, (congrArg s.pairs hloc).trans hq, hctrl, hq'⟩
  | none =>
    simp only [handleQP, hreg] at hr
    obtain ⟨⟨e, s₁⟩, hcreate, hr⟩ := Option.bind_eq_some_iff.mp hr
    obtain ⟨s₂, hrcv, hr⟩ := Option.bind_eq_some_iff.mp hr
    obtain ⟨s₃, hsend, hr⟩ := Option.bind_eq_some_iff.mp hr
    obtain ⟨hfresh, hloc, rfl⟩ := createRcQp_new hreg hcreate
    rw [modify_register] at hrcv
    cases hrcv
    rw [modify_register] at hsend
    cases hsend
    cases hr
    rw [hkey] at hreg
    rw [hcarries.idx]
    refine ⟨hi.serve hnode hcarries.registered hreg hfresh hloc, later_register hreg hfresh, rfl, rfl, ?_⟩
    exact ⟨_, (congrArg _ hloc).trans (pairs_register_self ..), congrArg _ hnode.symm, rfl, rfl⟩

theorem connectionHandler_ok {h : H} {n : ℕ} {qpn : UInt32} (hi : Inv c sys s)
    (hs : connectionHandler sys h n qpn s = some s') : Inv c sys s' ∧ Later s s' := by
  unfold connectionHandler at hs
  obtain ⟨conn, hconn, hs⟩ := Option.bind_eq_some_iff.mp hs
  split at hs
  · rename_i hcond
    obtain ⟨⟨r, s₁⟩, hr, hs⟩ := Option.bind_eq_some_iff.mp hs
    cases hs
    obtain ⟨o, ho⟩ := hi.conns conn (List.mem_of_getElem? hconn)
    obtain ⟨hi₁, hl₁, hconns, hack, hserves⟩ := handleQP_ok hi ho hcond.1 hr
    have hconn₁ : s₁.conns[n]? = some conn := hconns ▸ hconn
    exact ⟨hi₁.reply hconn₁ (ho.mono hl₁) hack hserves, hl₁.trans (later_reply hconn₁)⟩
  · cases hs

end Calls

end MetadataService.QueuePairs
