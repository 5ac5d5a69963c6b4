import MetadataService.RequestLedger
import MetadataService.YieldRing

namespace MetadataService.Scheduler

open RequestLedger

variable {k : ℕ} {Q : Type}

namespace Pending

def Balances (p : Pending k Q) (kind : Kind) (us : List (Request k Q)) : Prop :=
  Balanced Request.coro Request.qp p.qps p.counts (us.filter fun r => r.kind = kind)

variable {p : Pending k Q} {kind : Kind} {us vs : List (Request k Q)} {r : Request k Q}

theorem Balances.perm (h : p.Balances kind us) (hp : us.Perm vs) : p.Balances kind vs :=
  Balanced.perm h (hp.filter _)

theorem balances_cons_of_ne (hk : r.kind ≠ kind) : p.Balances kind (r :: us) ↔ p.Balances kind us := by
  unfold Balances
  rw [List.filter_cons_of_neg (by simpa using hk)]

theorem Balances.skip (h : p.Balances kind us) (hk : r.kind ≠ kind) : p.Balances kind (r :: us) :=
  (balances_cons_of_ne hk).mpr h

theorem Balances.add (h : p.Balances r.kind us) : (p.add r.coro r.qp).Balances r.kind (r :: us) := by
  unfold Balances
  rw [List.filter_cons_of_pos (by simp)]
  exact Balanced.enter h r

theorem Balances.settle {it : ℕ} (h : p.Balances r.kind (r :: us)) (hit : p.qps[it]? = some r.qp) :
    Balances ⟨p.qps.eraseIdx it, Function.update p.counts r.coro (p.counts r.coro - 1)⟩ r.kind us := by
  unfold Balances at h
  rw [List.filter_cons_of_pos (by simp)] at h
  exact Balanced.settle h hit

theorem Balances.count_pos (h : p.Balances r.kind us) (hr : r ∈ us) : 0 < p.counts r.coro :=
  Balanced.count_pos h (List.mem_filter.mpr ⟨hr, by simp⟩)

theorem Balances.exists_of_entry {q : Q} (h : p.Balances kind us) (hq : q ∈ p.qps) :
    ∃ r ∈ us, r.kind = kind ∧ r.qp = q := by
  obtain ⟨r, hr, hrq⟩ := Balanced.exists_of_entry h hq
  obtain ⟨hr, hk⟩ := List.mem_filter.mp hr
  exact ⟨r, hr, of_decide_eq_true hk, hrq⟩

end Pending

namespace Thread

def unsettled (t : Thread k Q) : List (Request k Q) := t.unconsumed ++ t.lost.map (·.req)

def OwnQps (isLog : Q → Bool) : Action k Q → Prop
  | .post _ q _ => isLog q = false
  | .sync _ q _ => isLog q = false
  | .log q _ => isLog q = true
  | _ => True

/-- A synchronous call is made when all completions of its queue pair have been consumed. -/
def IdleSync (t : Thread k Q) : Action k Q → Prop
  | .sync _ q _ => ∀ r ∈ t.unconsumed, r.qp ≠ q
  | _ => True

def Disciplined (isLog : Q → Bool) (t : Thread k Q) (a : Action k Q) : Prop :=
  OwnQps isLog a ∧ t.IdleSync a

instance (isLog : Q → Bool) (a : Action k Q) : Decidable (OwnQps isLog a) :=
  match a with
  | .post _ q _ => inferInstanceAs (Decidable (isLog q = false))
  | .sync _ q _ => inferInstanceAs (Decidable (isLog q = false))
  | .log q _ => inferInstanceAs (Decidable (isLog q = true))
  | .complete .. | .readInv .. | .yield | .checkLogAck | .poll | .pollLog | .syncPoll => .isTrue trivial

instance [DecidableEq Q] (t : Thread k Q) (a : Action k Q) : Decidable (t.IdleSync a) :=
  match a with
  | .sync _ q _ => inferInstanceAs (Decidable (∀ r ∈ t.unconsumed, r.qp ≠ q))
  | .complete .. | .post .. | .readInv .. | .log .. | .yield | .checkLogAck | .poll | .pollLog
  | .syncPoll => .isTrue trivial

instance [DecidableEq Q] (isLog : Q → Bool) (t : Thread k Q) (a : Action k Q) :
    Decidable (Disciplined isLog t a) := inferInstanceAs (Decidable (_ ∧ _))

structure Regular (isLog : Q → Bool) (r : Request k Q) : Prop where
  own : isLog r.qp = true ↔ r.kind = .log
  tag : r.wrId = r.coro
  worker : r.coro ≠ 0

def Alone (us : List (Request k Q)) (q : Q) (id : ℕ) : Prop :=
  ∃ r vs, us.Perm (r :: vs) ∧ r.qp = q ∧ r.id = id ∧ r.kind = .sync ∧ ∀ v ∈ vs, v.qp ≠ q

structure Accounted (isLog : Q → Bool) (t : Thread k Q) : Prop where
  data : t.sched.pending.Balances .data t.unsettled
  log : t.sched.pendingLog.Balances .log t.unsettled
  regular : ∀ r ∈ t.unsettled, Regular isLog r
  covered : ∀ r ∈ t.posted, r ∈ t.unsettled ∨ r ∈ t.settled
  retried : ∀ w ∈ t.lost, w.req.kind ≠ .sync → w.status = .retryExcErr
  called : ∀ r ∈ t.unconsumed, r.kind = .sync → t.pc.syncing = some (r.qp, r.id)
  alone : ∀ q id, t.pc.syncing = some (q, id) → Alone t.unconsumed q id

variable {isLog : Q → Bool} {t t' : Thread k Q} {a : Action k Q} {e : Option (Event k Q)}
  {r : Request k Q} {wc : Completion k Q} {rest : List (Completion k Q)} {c : Fin (k + 1)}

theorem syncing_of_polling {pc : Pc Q} (h : pc.polling = true) : pc.syncing = none := by
  cases pc with
  | poll it => rfl
  | user => cases h
  | pollLog it => cases h
  | sync q id => cases h

theorem Alone.perm {us vs : List (Request k Q)} {q : Q} {id : ℕ} (h : Alone us q id) (hp : us.Perm vs) :
    Alone vs q id := by
  obtain ⟨r, ws, hr, hrest⟩ := h
  exact ⟨r, ws, hp.symm.trans hr, hrest⟩

theorem Alone.taken {us : List (Request k Q)} {q : Q} {id : ℕ} (h : Alone (r :: us) q id) (hq : r.qp = q) :
    r.id = id ∧ r.kind = .sync ∧ ∀ v ∈ us, v.qp ≠ q := by
  obtain ⟨o, vs, hp, hoq, hid, hkind, hvs⟩ := h
  have hro : r = o := by
    rcases List.mem_cons.mp (hp.mem_iff.mp List.mem_cons_self) with h | h
    · exact h
    · exact absurd hq (hvs r h)
  subst hro
  refine ⟨hid, hkind, fun v hv => ?_⟩
  exact hvs v (hp.cons_inv.mem_iff.mp hv)

theorem taken_unconsumed (h : Taken t.cq wc rest) :
    t.unconsumed.Perm (wc.req :: (t.inflight ++ rest.map (·.req))) := by
  unfold unconsumed
  apply (List.Perm.append_left t.inflight (h.perm.map (·.req))).trans
  exact List.perm_middle

theorem taken_mem (h : Taken t.cq wc rest) : wc.req ∈ t.unconsumed :=
  (taken_unconsumed h).mem_iff.mpr List.mem_cons_self

theorem enter_unconsumed (t : Thread k Q) (r : Request k Q) :
    (t.enter r).unconsumed.Perm (r :: t.unconsumed) := by
  unfold unconsumed enter
  rw [List.append_assoc]
  exact List.perm_middle

theorem completed_unconsumed {pre post : List (Request k Q)} {status : Status}
    (h : t.inflight = pre ++ r :: post) :
    t.unconsumed.Perm (pre ++ post ++ (t.cq ++ [(⟨r, status⟩ : Completion k Q)]).map (·.req)) := by
  unfold unconsumed
  rw [h, List.map_append, List.append_assoc, List.append_assoc]
  apply List.Perm.append_left
  rw [List.cons_append, ← List.append_assoc]
  exact (List.perm_append_singleton r _).symm

theorem start_accounted (isLog : Q → Bool) : (start k Q).Accounted isLog where
  data := balanced_nil
  log := balanced_nil
  regular := fun _ h => absurd h List.not_mem_nil
  covered := fun _ h => absurd h List.not_mem_nil
  retried := fun _ h => absurd h List.not_mem_nil
  called := fun _ h => absurd h List.not_mem_nil
  alone := fun _ _ h => nomatch h

namespace Accounted

theorem congr (h : t.Accounted isLog) (hp : t'.sched.pending = t.sched.pending)
    (hl : t'.sched.pendingLog = t.sched.pendingLog) (hs : t'.pc.syncing = t.pc.syncing)
    (hu : t.unconsumed.Perm t'.unconsumed) (hlost : t'.lost = t.lost) (hposted : t'.posted = t.posted)
    (hsettled : t'.settled = t.settled) : t'.Accounted isLog := by
  have hus : t.unsettled.Perm t'.unsettled := by
    unfold unsettled
    rw [hlost]
    exact hu.append_right _
  refine ⟨?_, ?_, ?_, ?_, ?_, ?_, ?_⟩
  · rw [hp]
    exact h.data.perm hus
  · rw [hl]
    exact h.log.perm hus
  · intro r hr
    exact h.regular r (hus.mem_iff.mpr hr)
  · rw [hposted, hsettled]
    intro r hr
    rw [← hus.mem_iff]
    exact h.covered r hr
  · rw [hlost]
    exact h.retried
  · intro r hr hk
    rw [hs]
    exact h.called r (hu.mem_iff.mpr hr) hk
  · intro q id hq
    rw [hs] at hq
    exact (h.alone q id hq).perm hu

theorem no_sync (h : t.Accounted isLog) (hpc : t.pc.syncing = none) : ∀ x ∈ t.unconsumed, x.kind ≠ .sync := by
  intro x hx hk
  have hc := h.called x hx hk
  rw [hpc] at hc
  cases hc

theorem entered (h : t.Accounted isLog) (hpc : t.pc.syncing = none) (hr : Regular isLog r)
    (hu : t'.unconsumed.Perm (r :: t.unconsumed)) (hlost : t'.lost = t.lost)
    (hposted : t'.posted = t.posted ++ [r]) (hsettled : t'.settled = t.settled)
    (hdata : t'.sched.pending.Balances .data (r :: t.unsettled))
    (hlog : t'.sched.pendingLog.Balances .log (r :: t.unsettled))
    (hcalled : r.kind = .sync → t'.pc.syncing = some (r.qp, r.id))
    (halone : ∀ q id, t'.pc.syncing = some (q, id) → Alone t'.unconsumed q id) : t'.Accounted isLog := by
  have hus : t'.unsettled.Perm (r :: t.unsettled) := by
    unfold unsettled
    rw [hlost]
    exact hu.append_right _
  refine ⟨hdata.perm hus.symm, hlog.perm hus.symm, ?_, ?_, ?_, ?_, halone⟩
  · intro x hx
    rcases List.mem_cons.mp (hus.mem_iff.mp hx) with rfl | hx
    · exact hr
    · exact h.regular x hx
  · intro x hx
    rw [hus.mem_iff, hsettled]
    rw [hposted, List.mem_append, List.mem_singleton] at hx
    rcases hx with hx | rfl
    · apply (h.covered x hx).imp_left
      exact List.mem_cons_of_mem _
    · exact .inl List.mem_cons_self
  · rw [hlost]
    exact h.retried
  · intro x hx hk
    rcases List.mem_cons.mp (hu.mem_iff.mp hx) with rfl | hx
    · exact hcalled hk
    · exact absurd hk (h.no_sync hpc x hx)

theorem posted (h : t.Accounted isLog) (hpc : t.pc = .user) {q : Q} (hq : isLog q = false)
    (hcur : t.cur ≠ 0) :
    Accounted isLog { t.enter (t.nextRequest .data q) with sched := t.sched.addPendingQP t.cur q } := by
  have hnone : t.pc.syncing = none := by rw [hpc]; rfl
  refine h.entered hnone ⟨by simp [nextRequest, hq], rfl, hcur⟩ (t.enter_unconsumed _) rfl rfl rfl ?_ ?_ ?_ ?_
  · exact h.data.add (r := t.nextRequest .data q)
  · exact h.log.skip nofun
  · exact nofun
  · intro q id hs
    exact absurd (hnone.symm.trans hs) nofun

theorem logged (h : t.Accounted isLog) (hpc : t.pc = .user) {q : Q} (hq : isLog q = true)
    (hcur : t.cur ≠ 0) :
    Accounted isLog { t.enter (t.nextRequest .log q) with sched := t.sched.addPendingLogQP t.cur q } := by
  have hnone : t.pc.syncing = none := by rw [hpc]; rfl
  refine h.entered hnone ⟨by simp [nextRequest, hq], rfl, hcur⟩ (t.enter_unconsumed _) rfl rfl rfl ?_ ?_ ?_ ?_
  · exact h.data.skip nofun
  · exact h.log.add (r := t.nextRequest .log q)
  · exact nofun
  · intro q id hs
    exact absurd (hnone.symm.trans hs) nofun

theorem call (h : t.Accounted isLog) (hpc : t.pc = .user) {q : Q} (hq : isLog q = false)
    (hcur : t.cur ≠ 0) (hidle : ∀ x ∈ t.unconsumed, x.qp ≠ q) :
    Accounted isLog { t.enter (t.nextRequest .sync q) with pc := .sync q t.posted.length } := by
  have hnone : t.pc.syncing = none := by rw [hpc]; rfl
  have hu := t.enter_unconsumed (t.nextRequest .sync q)
  refine h.entered hnone ⟨by simp [nextRequest, hq], rfl, hcur⟩ hu rfl rfl rfl ?_ ?_ ?_ ?_
  · exact h.data.skip nofun
  · exact h.log.skip nofun
  · exact fun _ => rfl
  · intro q' id hs
    cases hs
    exact ⟨t.nextRequest .sync q, t.unconsumed, hu, rfl, rfl, rfl, hidle⟩

theorem taken_regular (h : t.Accounted isLog) (ht : Taken t.cq wc rest) : Regular isLog wc.req :=
  h.regular wc.req (List.mem_append_left _ (taken_mem ht))

theorem takes_data (h : t.Accounted isLog) (hpc : t.pc.syncing = none) {it : ℕ}
    (ht : Takes t.sched.pending t.cq it wc rest) : wc.req.kind = .data := by
  obtain ⟨x, hx, hk, hxq⟩ := h.data.exists_of_entry (List.mem_of_getElem? ht.entry)
  have hx := (h.regular x hx).own
  have hwc := (h.taken_regular ht.taken).own
  rw [hxq, hk] at hx
  cases hkind : wc.req.kind with
  | data => rfl
  | log => exact absurd (hx.mp (hwc.mpr hkind)) (by decide)
  | sync => exact absurd hkind (h.no_sync hpc _ (taken_mem ht.taken))

theorem takes_log (h : t.Accounted isLog) {it : ℕ}
    (ht : Takes t.sched.pendingLog t.cq it wc rest) : wc.req.kind = .log := by
  obtain ⟨x, hx, hk, hxq⟩ := h.log.exists_of_entry (List.mem_of_getElem? ht.entry)
  have hx := (h.regular x hx).own
  rw [hxq] at hx
  exact (h.taken_regular ht.taken).own.mp (hx.mpr hk)

theorem lose (h : t.Accounted isLog) (hu : t.unconsumed.Perm (wc.req :: t'.unconsumed))
    (hlost : t'.lost = wc :: t.lost) (hposted : t'.posted = t.posted) (hsettled : t'.settled = t.settled)
    (hsched : t'.sched = t.sched) (hretry : wc.req.kind ≠ .sync → wc.status = .retryExcErr)
    (hcalled : ∀ x ∈ t'.unconsumed, x.kind ≠ .sync) (hpc : t'.pc.syncing = none) :
    t'.Accounted isLog := by
  have hus : t.unsettled.Perm t'.unsettled := by
    unfold unsettled
    rw [hlost]
    apply (hu.append_right _).trans
    exact List.perm_middle.symm
  refine ⟨?_, ?_, ?_, ?_, ?_, ?_, ?_⟩
  · rw [hsched]
    exact h.data.perm hus
  · rw [hsched]
    exact h.log.perm hus
  · intro x hx
    exact h.regular x (hus.mem_iff.mpr hx)
  · rw [hposted, hsettled]
    intro x hx
    rw [← hus.mem_iff]
    exact h.covered x hx
  · rw [hlost]
    intro w hmem hk
    rcases List.mem_cons.mp hmem with rfl | hmem
    · exact hretry hk
    · exact h.retried w hmem hk
  · intro x hx hk
    exact absurd hk (hcalled x hx)
  · intro q id hs
    exact absurd (hpc.symm.trans hs) nofun

theorem dropped (h : t.Accounted isLog) {pc : Pc Q} (hpc : t.pc.syncing = none) (hsync : pc.syncing = none)
    (ht : Taken t.cq wc rest) (hw : wc.status = .retryExcErr ∨ wc.req.wrId = 0) :
    Accounted isLog { t with cq := rest, pc, lost := wc :: t.lost } := by
  have hu := taken_unconsumed ht
  have hreg := h.taken_regular ht
  refine h.lose hu rfl rfl rfl rfl ?_ ?_ hsync
  · intro _
    apply hw.resolve_right
    rw [hreg.tag]
    exact hreg.worker
  · intro x hx
    exact h.no_sync hpc x (hu.mem_iff.mpr (List.mem_cons_of_mem _ hx))

theorem settle (h : t.Accounted isLog) (hu : t.unconsumed.Perm (r :: t'.unconsumed))
    (hlost : t'.lost = t.lost) (hposted : t'.posted = t.posted) (hsettled : t'.settled = r :: t.settled)
    (hdata : t.sched.pending.Balances .data (r :: t'.unsettled) →
      t'.sched.pending.Balances .data t'.unsettled)
    (hlog : t.sched.pendingLog.Balances .log (r :: t'.unsettled) →
      t'.sched.pendingLog.Balances .log t'.unsettled)
    (hcalled : ∀ x ∈ t'.unconsumed, x.kind ≠ .sync) (hpc : t'.pc.syncing = none) :
    t'.Accounted isLog := by
  have hus : t.unsettled.Perm (r :: t'.unsettled) := by
    unfold unsettled
    rw [hlost]
    exact hu.append_right _
  refine ⟨hdata (h.data.perm hus), hlog (h.log.perm hus), ?_, ?_, ?_, ?_, ?_⟩
  · intro x hx
    exact h.regular x (hus.mem_iff.mpr (List.mem_cons_of_mem _ hx))
  · rw [hposted, hsettled]
    intro x hx
    rcases h.covered x hx with hx | hx
    · rcases List.mem_cons.mp (hus.mem_iff.mp hx) with rfl | hx
      · exact .inr List.mem_cons_self
      · exact .inl hx
    · exact .inr (List.mem_cons_of_mem _ hx)
  · rw [hlost]
    exact h.retried
  · intro x hx hk
    exact absurd hk (hcalled x hx)
  · intro q id hs
    exact absurd (hpc.symm.trans hs) nofun

theorem counted (h : t.Accounted isLog) {pc : Pc Q} {p : Pending k Q} {it : ℕ}
    (hpc : t.pc.polling = true) (hpoll : pc.polling = true)
    (hto : PollsTo t.sched.pending t.cq it (.counted wc rest p)) :
    Accounted isLog { t with
      cq := rest, pc, sched := t.sched.settle wc.req.wrId p, settled := wc.req :: t.settled } := by
  obtain ⟨ht, -, -, -, rfl⟩ := hto
  have hk := h.takes_data (syncing_of_polling hpc) ht
  have hu := taken_unconsumed ht.taken
  have hreg := h.taken_regular ht.taken
  refine h.settle hu rfl rfl rfl ?_ ?_ ?_ ?_
  · intro hb
    rw [CoroutineScheduler.settle_pending, hreg.tag]
    rw [← hk] at hb ⊢
    exact hb.settle ht.entry
  · intro hb
    rw [CoroutineScheduler.settle_pendingLog]
    exact (Pending.balances_cons_of_ne (by rw [hk]; decide)).mp hb
  · intro x hx
    exact h.no_sync (syncing_of_polling hpc) x (hu.mem_iff.mpr (List.mem_cons_of_mem _ hx))
  · exact syncing_of_polling hpoll

theorem countedLog (h : t.Accounted isLog) {p : Pending k Q} {it : ℕ} (hpc : t.pc = .pollLog it)
    (hto : PollsTo t.sched.pendingLog t.cq it (.counted wc rest p)) :
    Accounted isLog { t with
      cq := rest, sched := { t.sched with pendingLog := p }, settled := wc.req :: t.settled } := by
  obtain ⟨ht, -, -, -, rfl⟩ := hto
  have hnone : t.pc.syncing = none := by rw [hpc]; rfl
  have hk := h.takes_log ht
  have hu := taken_unconsumed ht.taken
  have hreg := h.taken_regular ht.taken
  refine h.settle hu rfl rfl rfl ?_ ?_ ?_ ?_
  · intro hb
    exact (Pending.balances_cons_of_ne (by rw [hk]; decide)).mp hb
  · intro hb
    rw [hreg.tag]
    rw [← hk] at hb ⊢
    exact hb.settle ht.entry
  · intro x hx
    exact h.no_sync hnone x (hu.mem_iff.mpr (List.mem_cons_of_mem _ hx))
  · exact hnone

theorem synced (h : t.Accounted isLog) {q : Q} {id : ℕ} {settled : List (Request k Q)}
    {lost : List (Completion k Q)} (hpc : t.pc = .sync q id) (hq : wc.req.qp = q)
    (ht : Taken t.cq wc rest)
    (hown : wc.req.id = id ∧ wc.status = .success → settled = wc.req :: t.settled ∧ lost = t.lost)
    (hother : ¬ (wc.req.id = id ∧ wc.status = .success) → settled = t.settled ∧ lost = wc :: t.lost) :
    Accounted isLog { t with cq := rest, pc := .user, settled, lost } := by
  have hs : t.pc.syncing = some (q, id) := by rw [hpc]; rfl
  have hu := taken_unconsumed ht
  obtain ⟨hid, hk, hleft⟩ := ((h.alone q id hs).perm hu).taken hq
  have hcalled : ∀ x ∈ t.inflight ++ rest.map (·.req), x.kind ≠ .sync := by
    intro x hx hxk
    have hx' := h.called x (hu.mem_iff.mpr (List.mem_cons_of_mem _ hx)) hxk
    rw [hs] at hx'
    cases hx'
    exact hleft x hx rfl
  by_cases hsucc : wc.status = .success
  · obtain ⟨rfl, rfl⟩ := hown ⟨hid, hsucc⟩
    refine h.settle hu rfl rfl rfl ?_ ?_ hcalled rfl
    · exact (Pending.balances_cons_of_ne (by rw [hk]; decide)).mp
    · exact (Pending.balances_cons_of_ne (by rw [hk]; decide)).mp
  · obtain ⟨rfl, rfl⟩ := hother fun hw => hsucc hw.2
    refine h.lose hu rfl rfl rfl rfl ?_ hcalled rfl
    exact fun hne => absurd hk hne

theorem effect (h : t.Accounted isLog) (hs : t.Scheduled) (hok : Disciplined isLog t a)
    (he : Effect t a t' e) : t'.Accounted isLog := by
  cases he with
  | completed hin => exact h.congr rfl rfl rfl (completed_unconsumed hin) rfl rfl rfl
  | moved _ hsync _ => exact h.congr rfl rfl hsync (List.Perm.refl _) rfl rfl rfl
  | posted hpc => exact h.posted hpc hok.1 (hs.cur_ne_zero (by rw [hpc]; rfl))
  | logged hpc => exact h.logged hpc hok.1 (hs.cur_ne_zero (by rw [hpc]; rfl))
  | called hpc => exact h.call hpc hok.1 (hs.cur_ne_zero (by rw [hpc]; rfl)) hok.2
  | yielded hpc _ _ hr =>
    refine h.congr rfl rfl ?_ (List.Perm.refl _) rfl rfl rfl
    rw [hpc]
    exact hr.syncing
  | ran hpc hr =>
    refine h.congr rfl rfl ?_ (List.Perm.refl _) rfl rfl rfl
    rw [syncing_of_polling hpc]
    exact hr.syncing
  | dropped hpc hpoll hto hw =>
    exact h.dropped (by rw [hpc]; rfl) (syncing_of_polling hpoll) hto.taken hw
  | droppedLog hpc hto hw => exact h.dropped (by rw [hpc]; rfl) rfl hto.taken hw
  | counted hpc hpoll hto => exact h.counted hpc hpoll hto
  | countedLog hpc hto => exact h.countedLog hpc hto
  | synced hpc hq ht hown hother => exact h.synced hpc hq ht hown hother

theorem settled_of_count {p : Pending k Q} {kind : Kind} (h : t.Accounted isLog)
    (hp : p.Balances kind t.unsettled) (h0 : p.counts c = 0) :
    ∀ r ∈ t.posted, r.coro = c → r.kind = kind → r ∈ t.settled := by
  rintro r hr rfl rfl
  apply (h.covered r hr).resolve_left
  intro hu
  have hpos := hp.count_pos hu
  rw [h0] at hpos
  exact lt_irrefl 0 hpos

theorem taken_count_pos {p : Pending k Q} (h : t.Accounted isLog) (ht : Taken t.cq wc rest)
    (hp : p.Balances wc.req.kind t.unsettled) : 0 < p.counts wc.req.wrId := by
  rw [(h.taken_regular ht).tag]
  exact hp.count_pos (List.mem_append_left _ (taken_mem ht))

theorem not_fails (h : t.Accounted isLog) : ¬ t.Fails .pendingCount ∧ ¬ t.Fails .pendingLogCount := by
  constructor
  · rintro ⟨hpc, it, wc, rest, ht, hc⟩
    apply hc (h.taken_count_pos ht.taken _)
    rw [h.takes_data hpc ht]
    exact h.data
  · rintro ⟨-, it, wc, rest, ht, hc⟩
    apply hc (h.taken_count_pos ht.taken _)
    rw [h.takes_log ht]
    exact h.log

end Accounted

theorem acked {b : Bool} (he : Effect t a t' (some (.logAck c b))) :
    b = true → t'.sched.pendingLog.counts c = 0 := by
  cases he with
  | moved _ _ hrep =>
    obtain ⟨rfl, hb⟩ := hrep
    exact hb
  | yielded _ _ _ hr =>
    obtain hn | hn := hr.event <;> cases hn
  | ran _ hr =>
    obtain hn | hn := hr.event <;> cases hn

variable [DecidableEq Q]

theorem Run.accounted (hrun : Run (Disciplined isLog) (start k Q) t) : t.Accounted isLog := by
  have hboth : t.Scheduled ∧ t.Accounted isLog := by
    apply hrun.inv ⟨start_scheduled, start_accounted isLog⟩
    intro u u' a e hu hok he
    exact ⟨hu.1.effect he, hu.2.effect hu.1 hok he⟩
  exact hboth.2

theorem run_noEarlyResume (hrun : Run (Disciplined isLog) (start k Q) t) (hok : Disciplined isLog t a) :
    (∀ t' c, t.step a = .ok (t', some (.resumed c)) →
      ∀ r ∈ t'.posted, r.coro = c → r.kind = .data → r ∈ t'.settled) ∧
    (∀ t' c, t.step a = .ok (t', some (.logAck c true)) →
      ∀ r ∈ t'.posted, r.coro = c → r.kind = .log → r ∈ t'.settled) ∧
    t.step a ≠ .error .pendingCount ∧ t.step a ≠ .error .pendingLogCount := by
  have h := hrun.accounted
  have hs := hrun.scheduled
  refine ⟨?_, ?_, ?_, ?_⟩
  · intro t' c hstep
    have he := step_effect hstep
    have h' := h.effect hs hok he
    exact h'.settled_of_count h'.data (hs.resumed he)
  · intro t' c hstep
    have he := step_effect hstep
    have h' := h.effect hs hok he
    exact h'.settled_of_count h'.log (acked he rfl)
  · exact fun herr => h.not_fails.1 (step_error herr)
  · exact fun herr => h.not_fails.2 (step_error herr)

def pollResumes (c : Fin (k + 1)) (P : Thread k Q → Bool) (t : Thread k Q) : Bool :=
  match t.step .poll with
  | .ok (t', some (.resumed c')) => c' == c && P t'
  | _ => false

theorem pollResumes_ok {c : Fin (k + 1)} {P : Thread k Q → Bool} {t : Thread k Q}
    (h : pollResumes c P t = true) : ∃ t', t.step .poll = .ok (t', some (.resumed c)) ∧ P t' = true := by
  unfold pollResumes at h
  split at h
  · rename_i t' c' hstep
    obtain ⟨hc, hP⟩ := Bool.and_eq_true_iff.mp h
    exact ⟨t', beq_iff_eq.mp hc ▸ hstep, hP⟩
  · cases h

theorem run_noEarlyResume_shared_qp : ∃ t t' : Thread 2 Bool,
    Run (Disciplined id) (start 2 Bool) t ∧ t.step .poll = .ok (t', some (.resumed 2)) ∧
    t'.posted.length = 2 ∧ ∀ r ∈ t'.posted, r.coro = 2 → r.kind = .data → r ∈ t'.settled := by
  obtain ⟨t, hrun, hP⟩ := replay_any (Disciplined id)
    [.poll, .post .read false true, .yield, .post (.batch .lockRead fun _ => 0) false true, .yield,
      .complete 1 .success, .poll, .poll]
    (start 2 Bool)
    (pollResumes 2 fun t' => t'.posted.length == 2)
    (by decide)
  have hresume := (run_noEarlyResume hrun (a := .poll) ⟨trivial, trivial⟩).1
  obtain ⟨t', hstep, hlen⟩ := pollResumes_ok hP
  exact ⟨t, t', hrun, hstep, beq_iff_eq.mp hlen, hresume t' 2 hstep⟩

def Counted (t : Thread k Q) : Prop :=
  ∀ c, t.sched.pending.counts c =
    ((t.unconsumed.filter fun r => r.kind = .data).map Request.coro).count c

/-- The pending list and its counts stand for the data requests whose completion is still to be
consumed, and every coroutine that is not in the ring has one. -/
structure Accurate (t : Thread k Q) : Prop where
  waiting : ∀ c, (∀ j, t.sched.nextCoro^[j] t.sched.coroHead ≠ c) →
    ∃ r ∈ t.unconsumed, r.kind = .data ∧ r.coro = c
  counts : t.Counted
  entries : ∀ q, t.sched.pending.qps.count q =
    ((t.unconsumed.filter fun r => r.kind = .data).map Request.qp).count q

/-- The completion that the next round of `PollRegularCompletion` takes, if any, has not failed with
retries exceeded. -/
def NoRetry (t : Thread k Q) (a : Action k Q) : Prop :=
  match a, t.pc with
  | .poll, .poll it => ∀ q ∈ t.sched.pending.qps[it]?, ∀ wc ∈ t.cq.find? (fun w => w.req.qp = q),
      wc.status ≠ .retryExcErr
  | _, _ => True

instance (t : Thread k Q) (a : Action k Q) : Decidable (t.NoRetry a) := by
  unfold NoRetry
  split <;> infer_instance

theorem taken_find (h : Taken t.cq wc rest) : t.cq.find? (fun w => w.req.qp = wc.req.qp) = some wc := by
  obtain ⟨pre, post, hcq, -, hpre⟩ := h
  rw [hcq, List.find?_append, List.find?_eq_none.mpr (by simpa using hpre)]
  simp

theorem Run.accurate_iff_lost (hrun : Run (Disciplined isLog) (start k Q) t) :
    t.Accurate ↔ ∀ wc ∈ t.lost, wc.req.kind ≠ .data := by
  have hbal : Balanced Request.coro Request.qp t.sched.pending.qps t.sched.pending.counts
      ((t.unconsumed.filter fun r => r.kind = .data) ++
        (t.lost.map (·.req)).filter fun r => r.kind = .data) := by
    rw [← List.filter_append]
    exact hrun.accounted.data
  have hlost : (t.lost.map (·.req)).filter (fun r => r.kind = .data) = [] ↔
      ∀ wc ∈ t.lost, wc.req.kind ≠ .data := by
    simp only [List.filter_eq_nil_iff, List.forall_mem_map, decide_eq_true_eq, ne_eq]
  rw [← hlost, ← hbal.agrees_iff]
  constructor
  · exact fun hacc => ⟨hacc.counts, hacc.entries⟩
  · rintro ⟨hcounts, hentries⟩
    refine ⟨?_, hcounts, hentries⟩
    intro c hout
    obtain ⟨l, hl⟩ := hrun.scheduled.ring
    have hwaits : t.sched.Waits c := by
      apply hl.not_waits_iff.mp
      rw [hl.ring.mem_iff_iterate]
      rintro ⟨j, hj⟩
      exact hout j hj
    have hpos := hwaits.2
    rw [hcounts c] at hpos
    obtain ⟨r, hr, hc⟩ := List.mem_map.mp (List.count_pos_iff.mp (by exact_mod_cast hpos))
    obtain ⟨hr, hk⟩ := List.mem_filter.mp hr
    exact ⟨r, hr, of_decide_eq_true hk, hc⟩

theorem Accounted.no_loss (h : t.Accounted isLog) (hno : ∀ w ∈ t.lost, w.req.kind ≠ .data)
    (hok : t.NoRetry a) (he : Effect t a t' e) : ∀ w ∈ t'.lost, w.req.kind ≠ .data := by
  cases he with
  | dropped hpc hpoll hto hw =>
    rename_i pc wc rest it
    have hreg := h.taken_regular hto.taken
    have hretry : wc.status = .retryExcErr := by
      apply hw.resolve_right
      rw [hreg.tag]
      exact hreg.worker
    unfold NoRetry at hok
    rw [hpc] at hok
    exact absurd hretry (hok _ hto.entry wc (taken_find hto.taken))
  | droppedLog hpc hto hw =>
    intro w hmem
    rcases List.mem_cons.mp hmem with rfl | hmem
    · rw [h.takes_log hto]
      decide
    · exact hno w hmem
  | synced hpc hq ht hown hother =>
    rename_i q id wc rest settled lost
    intro w hmem
    by_cases hown' : wc.req.id = id ∧ wc.status = .success
    · rw [(hown hown').2] at hmem
      exact hno w hmem
    · rw [(hother hown').2] at hmem
      rcases List.mem_cons.mp hmem with rfl | hmem
      · have hs : t.pc.syncing = some (q, id) := by rw [hpc]; rfl
        rw [(((h.alone q id hs).perm (taken_unconsumed ht)).taken hq).2.1]
        decide
      · exact hno w hmem
  | completed _ => exact hno
  | moved _ _ _ => exact hno
  | posted _ => exact hno
  | logged _ => exact hno
  | called _ => exact hno
  | yielded _ _ _ _ => exact hno
  | ran _ _ => exact hno
  | counted _ _ _ => exact hno
  | countedLog _ _ => exact hno

theorem step_retry (hno : ¬ t.NoRetry a) (h : t.step a = .ok (t', e)) :
    t.pc.syncing = none ∧ ∃ it wc rest, Takes t.sched.pending t.cq it wc rest ∧ t'.lost = wc :: t.lost := by
  unfold NoRetry at hno
  split at hno
  · rename_i it hpc
    push Not at hno
    obtain ⟨q, hq, wc, hfind, hretry⟩ := hno
    have hpoll : pollSendCompletion t.cq q = some (wc, t.cq.eraseP fun w => w.req.qp = q) := by
      unfold pollSendCompletion
      rw [Option.mem_def.mp hfind]
      rfl
    obtain ⟨hwq, ht⟩ := pollSendCompletion_some hpoll
    have hentry : t.sched.pending.pollEntry .pendingCount t.cq it =
        .ok (.retry wc (t.cq.eraseP fun w => w.req.qp = q)) := by
      unfold Pending.pollEntry
      rw [Option.mem_def.mp hq]
      simp [hpoll, hretry]
    unfold step at h
    rw [hpc] at h
    dsimp only at h
    unfold pollRegularCompletion at h
    rw [hentry] at h
    cases h
    refine ⟨by rw [hpc]; rfl, it, wc, _, ⟨?_, ht⟩, rfl⟩
    rw [hwq]
    exact hq
  · exact absurd trivial hno

theorem Run.lost_data (hrun : Run (fun t a => Disciplined isLog t a ∧ t.NoRetry a) (start k Q) t) :
    ∀ w ∈ t.lost, w.req.kind ≠ .data := by
  have hall : t.Scheduled ∧ t.Accounted isLog ∧ ∀ w ∈ t.lost, w.req.kind ≠ .data := by
    apply hrun.inv ⟨start_scheduled, start_accounted isLog, fun _ h => absurd h List.not_mem_nil⟩
    intro u u' a e hu hok he
    exact ⟨hu.1.effect he, hu.2.1.effect hu.1 hok.1 he, hu.2.1.no_loss hu.2.2 hok.2 he⟩
  exact hall.2.2

theorem run_accurate (hrun : Run (fun t a => Disciplined isLog t a ∧ t.NoRetry a) (start k Q) t) :
    t.Accurate ∧ ∀ a t' e, Disciplined isLog t a → t.step a = .ok (t', e) →
      (t'.Accurate ↔ t.NoRetry a) := by
  have hdisc : Run (Disciplined isLog) (start k Q) t := hrun.mono fun _ _ h => h.1
  have hlost : ∀ w ∈ t.lost, w.req.kind ≠ .data := hrun.lost_data
  refine ⟨hdisc.accurate_iff_lost.mpr hlost, fun a t' e hok hstep => ?_⟩
  have hnext : Run (Disciplined isLog) (start k Q) t' := hdisc.tail ⟨a, e, hok, hstep⟩
  rw [hnext.accurate_iff_lost]
  constructor
  · intro hno
    by_contra hretry
    obtain ⟨hpc, it, wc, rest, ht, hl⟩ := step_retry hretry hstep
    rw [hl] at hno
    exact hno wc List.mem_cons_self (hdisc.accounted.takes_data hpc ht)
  · intro hretry
    exact hdisc.accounted.no_loss hlost hretry (step_effect hstep)

theorem run_accurate_one_waiting : ∃ t : Thread 2 Bool,
    Run (fun t a => Disciplined id t a ∧ t.NoRetry a) (start 2 Bool) t ∧
    t.settled.length = 1 ∧ t.unconsumed.length = 1 ∧ t.Accurate := by
  obtain ⟨t, hrun, hP⟩ := replay_any (fun t a => Disciplined id t a ∧ t.NoRetry a)
    [.poll, .post .read false true, .yield, .post .cas false true, .yield, .complete 1 .success, .poll]
    (start 2 Bool)
    (fun t => t.settled.length = 1 ∧ t.unconsumed.length = 1)
    (by decide)
  obtain ⟨hsettled, hun⟩ := of_decide_eq_true hP
  exact ⟨t, hrun, hsettled, hun, (run_accurate hrun).1⟩

theorem retry_strands_coroutine : ∃ t : Thread 1 Unit,
    Run (Disciplined fun _ => false) (start 1 Unit) t ∧
    (∀ j, t.sched.nextCoro^[j] t.sched.coroHead ≠ 1) ∧ t.sched.pending.counts 1 = 1 ∧
    t.unconsumed = [] ∧ ¬ t.Accurate := by
  obtain ⟨t, hrun, hP⟩ := replay_any (Disciplined fun _ => false)
    [.poll, .post .read () true, .yield, .complete 0 .retryExcErr, .poll] (start 1 Unit)
    (fun t => t.sched.nextCoro t.sched.coroHead = t.sched.coroHead ∧ t.sched.coroHead = 0 ∧
      t.sched.pending.counts 1 = 1 ∧ t.unconsumed = [])
    (by decide)
  obtain ⟨hnext, hhead, hcount, hun⟩ := of_decide_eq_true hP
  have hout : ∀ j, t.sched.nextCoro^[j] t.sched.coroHead ≠ 1 := by
    intro j
    rw [Function.iterate_fixed hnext, hhead]
    decide
  refine ⟨t, hrun, hout, hcount, hun, ?_⟩
  intro hacc
  obtain ⟨r, hr, -⟩ := hacc.waiting 1 hout
  rw [hun] at hr
  exact absurd hr List.not_mem_nil

end Thread

end MetadataService.Scheduler
