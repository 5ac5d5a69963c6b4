import MetadataService.CompletionAccounting

namespace MetadataService.Scheduler.Thread

variable {k : ℕ} {Q : Type} {t t₀ t₁ t₂ t₃ u u' : Thread k Q} {q : Q} {a : Action k Q}
  {e : Option (Event k Q)} {isLog : Q → Bool} {wc : Completion k Q} {rest : List (Completion k Q)}

def InOrder (t : Thread k Q) : Action k Q → Prop
  | .complete i _ => ∀ r ∈ t.inflight[i]?, ∀ x ∈ t.inflight.take i, x.qp ≠ r.qp
  | _ => True

/-- The call with request `own` has taken the completion `wc`: its request has completed, the
completion is of no other coroutine, and the counts are those of the completions to be consumed. -/
structure SyncExact (t : Thread k Q) (own : Request k Q) (wc : Completion k Q) : Prop where
  completed : own ∉ t.inflight
  only : wc.req.coro = own.coro
  counts : t.Counted

variable [DecidableEq Q]

def queue (t : Thread k Q) (q : Q) : List (Request k Q) :=
  (t.cq.map (·.req) ++ t.inflight).filter fun r => r.qp = q

theorem mem_queue {r : Request k Q} : r ∈ t.queue q ↔ r ∈ t.unconsumed ∧ r.qp = q := by
  simp only [queue, unconsumed, List.mem_filter, List.mem_append, decide_eq_true_eq, or_comm]

theorem queue_eq_nil : t.queue q = [] ↔ ∀ r ∈ t.unconsumed, r.qp ≠ q := by
  rw [List.eq_nil_iff_forall_not_mem]
  simp only [mem_queue, not_and, ne_eq]

theorem completed_queue {pre post : List (Request k Q)} {r : Request k Q} {status : Status}
    (h : t.inflight = pre ++ r :: post) (hpre : ∀ x ∈ pre, x.qp ≠ r.qp) (q : Q) :
    ({ t with inflight := pre ++ post, cq := t.cq ++ [⟨r, status⟩] } : Thread k Q).queue q =
      t.queue q := by
  unfold queue
  rw [h]
  simp only [List.map_append, List.filter_append, List.map_cons, List.map_nil, List.append_assoc]
  congr 1
  by_cases hq : r.qp = q
  · have hnone : pre.filter (fun x => x.qp = q) = [] := by
      rw [List.filter_eq_nil_iff]
      intro x hx
      simpa [← hq] using hpre x hx
    simp [hnone, hq]
  · simp [hq]

theorem enter_queue (t : Thread k Q) (r : Request k Q) : (t.enter r).queue r.qp = t.queue r.qp ++ [r] := by
  unfold queue enter
  rw [← List.append_assoc, List.filter_append]
  simp

theorem taken_queue (h : Taken t.cq wc rest) : ∃ rs, t.queue wc.req.qp = wc.req :: rs := by
  obtain ⟨pre, post, hcq, -, hpre⟩ := h
  have hnone : (pre.map (·.req)).filter (fun r => r.qp = wc.req.qp) = [] := by
    rw [List.filter_eq_nil_iff]
    simpa using hpre
  refine ⟨(post.map (·.req) ++ t.inflight).filter fun r => r.qp = wc.req.qp, ?_⟩
  unfold queue
  rw [hcq, List.map_append, List.append_assoc, List.filter_append, hnone]
  simp

structure InCall (t₀ : Thread k Q) (q : Q) (u : Thread k Q) : Prop where
  syncing : u.pc.syncing = some (q, t₀.posted.length)
  sched : u.sched = t₀.sched
  queue : u.queue q = t₀.queue q ++ [t₀.nextRequest .sync q]
  unconsumed : u.unconsumed.Perm (t₀.nextRequest .sync q :: t₀.unconsumed)

theorem sync_inCall (t₀ : Thread k Q) (call : SyncCall k) (q : Q) : InCall t₀ q (t₀.sync call q) := by
  rw [sync_eq]
  exact ⟨rfl, rfl, t₀.enter_queue (t₀.nextRequest .sync q), t₀.enter_unconsumed _⟩

namespace InCall

theorem syncing_ne_none (h : InCall t₀ q u) : u.pc.syncing ≠ none := by
  rw [h.syncing]
  exact nofun

theorem pc_ne_user (h : InCall t₀ q u) : u.pc ≠ .user := by
  intro hpc
  apply h.syncing_ne_none
  rw [hpc]
  rfl

theorem not_polling (h : InCall t₀ q u) : u.pc.polling ≠ true :=
  fun hp => h.syncing_ne_none (syncing_of_polling hp)

theorem effect (h : InCall t₀ q u) (hok : u.InOrder a) (he : Effect u a u' e) :
    InCall t₀ q u' ∨ u'.pc.syncing = none := by
  cases he with
  | completed hin =>
    left
    refine ⟨h.syncing, h.sched, ?_, (completed_unconsumed hin).symm.trans h.unconsumed⟩
    rw [completed_queue hin _ q]
    · exact h.queue
    · rename_i pre post r status
      have hget : u.inflight[pre.length]? = some r := by rw [hin]; simp
      have htake : u.inflight.take pre.length = pre := by rw [hin]; simp
      rw [← htake]
      exact hok r hget
  | moved _ hsync _ => exact .inl ⟨hsync.trans h.syncing, h.sched, h.queue, h.unconsumed⟩
  | posted hpc => exact absurd hpc h.pc_ne_user
  | logged hpc => exact absurd hpc h.pc_ne_user
  | called hpc => exact absurd hpc h.pc_ne_user
  | yielded hpc _ _ _ => exact absurd hpc h.pc_ne_user
  | ran hpc _ => exact absurd hpc h.not_polling
  | dropped hpc _ _ _ => exact absurd (by rw [hpc]; rfl) h.syncing_ne_none
  | droppedLog hpc _ _ => exact .inr rfl
  | counted hpc _ _ => exact absurd hpc h.not_polling
  | countedLog hpc _ => exact .inr (by rw [hpc]; rfl)
  | synced _ _ _ _ _ => exact .inr rfl

theorem run {pc : Pc Q} (h : InCall t₀ q u) (hpc : pc.syncing ≠ none)
    (hrun : Run (fun v a => v.InOrder a ∧ v.pc = pc) u u') : InCall t₀ q u' ∨ u'.pc.syncing = none := by
  apply hrun.inv (.inl h)
  intro v v' a e hv hok he
  rcases hv with hv | hv
  · exact hv.effect hok.1 he
  · rw [hok.2] at hv
    exact absurd hv hpc

end InCall

theorem step_sync {call : SyncCall k} (h : t₀.step (.sync call q true) = .ok (t₁, e)) :
    t₀.pc = .user ∧ t₁ = t₀.sync call q := by
  unfold step at h
  cases hpc : t₀.pc with
  | user =>
    rw [hpc] at h
    cases h
    exact ⟨rfl, rfl⟩
  | poll it => rw [hpc] at h; cases h
  | pollLog it => rw [hpc] at h; cases h
  | sync q' id => rw [hpc] at h; cases h

structure Returned (t₀ : Thread k Q) (q : Q) (wc : Completion k Q) (t : Thread k Q) : Prop where
  sched : t.sched = t₀.sched
  next : ∃ rs, t₀.queue q ++ [t₀.nextRequest .sync q] = wc.req :: rs
  unconsumed : (t₀.nextRequest .sync q :: t₀.unconsumed).Perm (wc.req :: t.unconsumed)

theorem InCall.returned {c : Fin (k + 1)} {id : ℕ} (h : InCall t₀ q u)
    (he : Effect u a u' (some (.synced c id wc))) : Returned t₀ q wc u' := by
  cases he with
  | moved _ _ hrep => exact hrep.elim
  | yielded _ _ _ hr => obtain hn | hn := hr.event <;> cases hn
  | ran _ hr => obtain hn | hn := hr.event <;> cases hn
  | synced hpc hq ht _ _ =>
    have hs := h.syncing
    rw [hpc] at hs
    cases hs
    refine ⟨h.sched, ?_, h.unconsumed.symm.trans (taken_unconsumed ht)⟩
    rw [← h.queue, ← hq]
    exact taken_queue ht

theorem call_returned {call : SyncCall k} {c : Fin (k + 1)} {id : ℕ}
    (hcall : t₀.step (.sync call q true) = .ok (t₁, none))
    (hrun : Run (fun u a => u.InOrder a ∧ u.pc = t₁.pc) t₁ t₂)
    (hret : t₂.step .syncPoll = .ok (t₃, some (.synced c id wc))) : Returned t₀ q wc t₃ := by
  obtain ⟨-, rfl⟩ := step_sync hcall
  have hin := t₀.sync_inCall call q
  rcases hin.run hin.syncing_ne_none hrun with h | h
  · exact h.returned (step_effect hret)
  · unfold step at hret
    cases hpc : t₂.pc with
    | sync q' id' => rw [hpc] at h; cases h
    | user => rw [hpc] at hret; cases hret
    | poll it => rw [hpc] at hret; cases hret
    | pollLog it => rw [hpc] at hret; cases hret

namespace Returned

theorem own (h : Returned t₀ q wc t) (hidle : t₀.queue q = []) : wc.req = t₀.nextRequest .sync q := by
  obtain ⟨rs, hrs⟩ := h.next
  rw [hidle] at hrs
  exact (List.cons.inj hrs).1.symm

theorem other (h : Returned t₀ q wc t) (hbusy : t₀.queue q ≠ []) : wc.req ∈ t₀.queue q := by
  obtain ⟨rs, hrs⟩ := h.next
  cases hqueue : t₀.queue q with
  | nil => exact absurd hqueue hbusy
  | cons r rs' =>
    rw [hqueue, List.cons_append] at hrs
    rw [(List.cons.inj hrs).1]
    exact List.mem_cons_self

theorem exact_of_idle (h : Returned t₀ q wc t) (hidle : t₀.queue q = [])
    (hcounts : t₀.Counted) :
    t.SyncExact (t₀.nextRequest .sync q) wc := by
  have hown := h.own hidle
  have hu := h.unconsumed
  rw [hown] at hu
  have hu := hu.cons_inv
  refine ⟨?_, by rw [hown], ?_⟩
  · intro hin
    have hmem := hu.mem_iff.mpr (List.mem_append_left (t.cq.map (·.req)) hin)
    exact queue_eq_nil.mp hidle _ hmem rfl
  · intro c
    rw [h.sched, hcounts c, ((hu.filter _).map Request.coro).count_eq]

theorem not_counts_of_data (h : Returned t₀ q wc t) (hk : wc.req.kind = .data)
    (hcounts : t₀.Counted) :
    t.sched.pending.counts wc.req.coro ≠
      ((t.unconsumed.filter fun r => r.kind = .data).map Request.coro).count wc.req.coro := by
  have hperm := ((h.unconsumed.filter fun r => r.kind = .data).map Request.coro).count_eq wc.req.coro
  rw [List.filter_cons_of_neg (by simp [nextRequest]), List.filter_cons_of_pos (by simpa using hk),
    List.map_cons, List.count_cons_self] at hperm
  rw [h.sched, hcounts, hperm]
  omega

end Returned

theorem run_syncExact_iff {call : SyncCall k} {c : Fin (k + 1)} {id : ℕ}
    (hrun : Run (Disciplined isLog) (start k Q) t₀) (hcounts : t₀.Counted) (hq : isLog q = false)
    (hcall : t₀.step (.sync call q true) = .ok (t₁, none))
    (hwait : Run (fun u a => u.InOrder a ∧ u.pc = t₁.pc) t₁ t₂)
    (hret : t₂.step .syncPoll = .ok (t₃, some (.synced c id wc))) :
    t₃.SyncExact (t₀.nextRequest .sync q) wc ↔ ∀ r ∈ t₀.unconsumed, r.qp ≠ q := by
  have h := call_returned hcall hwait hret
  rw [← queue_eq_nil]
  constructor
  · intro hexact
    by_contra hbusy
    obtain ⟨hmem, hwq⟩ := mem_queue.mp (h.other hbusy)
    have hacc := hrun.accounted
    have hreg := (hacc.regular _ (List.mem_append_left _ hmem)).own
    have hnone : t₀.pc.syncing = none := by rw [(step_sync hcall).1]; rfl
    have hk : wc.req.kind = .data := by
      cases hkind : wc.req.kind with
      | data => rfl
      | log =>
        rw [hwq, hq] at hreg
        exact absurd (hreg.mpr hkind) Bool.false_ne_true
      | sync => exact absurd hkind (hacc.no_sync hnone _ hmem)
    exact h.not_counts_of_data hk hcounts (hexact.counts _)
  · intro hidle
    exact h.exact_of_idle hidle hcounts

instance (t : Thread k Q) (a : Action k Q) : Decidable (t.InOrder a) :=
  match a with
  | .complete i _ => inferInstanceAs (Decidable (∀ r ∈ t.inflight[i]?, ∀ x ∈ t.inflight.take i, x.qp ≠ r.qp))
  | .post .. | .readInv .. | .log .. | .sync .. | .yield | .checkLogAck | .poll | .pollLog | .syncPoll =>
    .isTrue trivial

def replayCall (t₀ : Thread k Q) (call : SyncCall k) (q : Q) (i : ℕ) : Option (Thread k Q × Completion k Q) :=
  match t₀.step (.sync call q true) with
  | .ok (t₁, none) =>
    if t₁.InOrder (.complete i .success) then
      match t₁.step (.complete i .success) with
      | .ok (t₂, _) =>
        match t₂.step .syncPoll with
        | .ok (t₃, some (.synced _ _ wc)) => some (t₃, wc)
        | _ => none
      | .error _ => none
    else none
  | _ => none

theorem replayCall_any {call : SyncCall k} {i : ℕ} {P : Thread k Q × Completion k Q → Bool}
    (h : (t₀.replayCall call q i).any P = true) : ∃ t₁ t₂ t₃ c id wc,
      t₀.step (.sync call q true) = .ok (t₁, none) ∧
      Run (fun u a => u.InOrder a ∧ u.pc = t₁.pc) t₁ t₂ ∧
      t₂.step .syncPoll = .ok (t₃, some (.synced c id wc)) ∧ P (t₃, wc) = true := by
  unfold replayCall at h
  split at h
  · rename_i t₁ hcall
    split_ifs at h with hin
    · split at h
      · rename_i t₂ e hcomplete
        split at h
        · rename_i t₃ c id wc hret
          exact ⟨t₁, t₂, t₃, c, id, wc, hcall, .single ⟨_, e, ⟨hin, rfl⟩, hcomplete⟩, hret, h⟩
        · cases h
      · cases h
    · cases h
  · cases h

theorem run_syncExact_iff_idle_qp : ∃ (t₀ t₃ : Thread 1 Bool) (wc : Completion 1 Bool),
    Run (Disciplined fun _ => false) (start 1 Bool) t₀ ∧ t₀.unconsumed.length = 1 ∧
    wc.status = .success ∧ t₃.SyncExact (t₀.nextRequest .sync false) wc := by
  obtain ⟨t₀, hrun, hP⟩ := replay_any (Disciplined fun _ => false)
    [.poll, .post .read true true] (start 1 Bool)
    (fun t₀ => t₀.lost = [] ∧ t₀.unconsumed.length = 1 ∧ (∀ r ∈ t₀.unconsumed, r.qp ≠ false) ∧
      (t₀.replayCall .read false 1).any (fun e => e.2.status = .success) = true)
    (by decide)
  obtain ⟨hlost, hlen, hidle, hcall⟩ := of_decide_eq_true hP
  obtain ⟨t₁, t₂, t₃, c, id, wc, hcall, hwait, hret, hsucc⟩ := replayCall_any hcall
  refine ⟨t₀, t₃, wc, hrun, hlen, of_decide_eq_true hsucc, ?_⟩
  apply (run_syncExact_iff hrun _ rfl hcall hwait hret).mpr hidle
  apply (hrun.accurate_iff_lost.mpr _).counts
  rw [hlost]
  exact fun _ hw => absurd hw List.not_mem_nil

theorem sync_takes_other_completion : ∃ (t₀ t₁ t₂ t₃ : Thread 2 Unit) (c : Fin 3) (id : ℕ)
    (wc : Completion 2 Unit),
    Run (fun t a => Disciplined (fun _ => false) t a ∧ t.InOrder a) (start 2 Unit) t₀ ∧
    t₀.step (.sync .read () true) = .ok (t₁, none) ∧
    Run (fun u a => u.InOrder a ∧ u.pc = t₁.pc) t₁ t₂ ∧
    t₂.step .syncPoll = .ok (t₃, some (.synced c id wc)) ∧ wc.status = .success ∧
    t₀.cur = 2 ∧ wc.req.coro = 1 ∧ t₃.sched.pending.counts 1 = 1 ∧
    (∀ r ∈ t₃.unconsumed, r.kind ≠ .data) ∧ ¬ t₃.SyncExact (t₀.nextRequest .sync ()) wc := by
  obtain ⟨t₀, hrun, hP⟩ := replay_any (fun t a => Disciplined (fun _ => false) t a ∧ t.InOrder a)
    [.poll, .post .read () true, .yield] (start 2 Unit)
    (fun t₀ => t₀.cur = 2 ∧ (t₀.replayCall .read () 0).any (fun e => e.2.status = .success ∧
      e.2.req.coro = 1 ∧ e.1.sched.pending.counts 1 = 1 ∧ (∀ r ∈ e.1.unconsumed, r.kind ≠ .data) ∧
      t₀.nextRequest .sync () ∈ e.1.inflight) = true)
    (by decide)
  obtain ⟨hcur, hcall⟩ := of_decide_eq_true hP
  obtain ⟨t₁, t₂, t₃, c, id, wc, hcall, hwait, hret, hP⟩ := replayCall_any hcall
  obtain ⟨hsucc, hcoro, hcount, hdata, hin⟩ := of_decide_eq_true hP
  exact ⟨t₀, t₁, t₂, t₃, c, id, wc, hrun, hcall, hwait, hret, hsucc, hcur, hcoro, hcount, hdata,
    fun hexact => hexact.completed hin⟩

end MetadataService.Scheduler.Thread
