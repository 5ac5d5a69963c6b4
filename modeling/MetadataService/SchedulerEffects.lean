import MetadataService.Scheduler

namespace MetadataService.Scheduler

variable {k : ℕ} {Q : Type}

theorem Taken.perm {cq rest : List (Completion k Q)} {wc : Completion k Q} (h : Taken cq wc rest) :
    cq.Perm (wc :: rest) := by
  obtain ⟨pre, post, rfl, rfl, -⟩ := h
  exact List.perm_middle

theorem Batch.stamp_signaled (unset : ℕ → Fin (k + 1)) (c : Fin (k + 1)) (b : Batch) :
    (b.stamp unset c).filter (·.signaled) = [⟨true, c⟩] := by
  cases b <;> rfl

theorem Call.workRequests_signaled (c : Fin (k + 1)) (call : Call k) :
    (call.workRequests c).filter (·.signaled) = [⟨true, c⟩] := by
  cases call with
  | batch b unset => exact b.stamp_signaled unset c
  | _ => rfl

theorem SyncCall.workRequests_signaled (c : Fin (k + 1)) (call : SyncCall k) :
    (call.workRequests c).filter (·.signaled) = [⟨true, c⟩] := by
  cases call with
  | batch b unset => exact b.stamp_signaled unset c
  | read => rfl

def Pc.polling : Pc Q → Bool
  | .poll _ => true
  | _ => false

def Pc.syncing : Pc Q → Option (Q × ℕ)
  | .sync q id => some (q, id)
  | _ => none

namespace Thread

def nextRequest (t : Thread k Q) (kind : Kind) (q : Q) : Request k Q :=
  ⟨t.posted.length, t.cur, t.cur, q, kind⟩

def enter (t : Thread k Q) (r : Request k Q) : Thread k Q :=
  { t with inflight := t.inflight ++ [r], posted := t.posted ++ [r] }

theorem submit_signaled (t : Thread k Q) (kind : Kind) (q : Q) {wrs : List (WorkRequest k)}
    (h : wrs.filter (·.signaled) = [⟨true, t.cur⟩]) :
    t.submit kind q wrs = t.enter (t.nextRequest kind q) := by
  unfold submit
  rw [h]
  rfl

theorem submit_unsignaled (t : Thread k Q) (kind : Kind) (q : Q) (c : Fin (k + 1)) :
    t.submit kind q [⟨false, c⟩] = t := by
  simp [submit]

def Reports (t : Thread k Q) : Option (Event k Q) → Prop
  | none => True
  | some (.resumed c) => c = t.cur ∧ t.sched.pending.counts c = 0
  | some (.logAck c b) => c = t.cur ∧ (b = true → t.sched.pendingLog.counts c = 0)
  | some (.synced _ _ _) => False

structure Resumes (next : Fin (k + 1)) (pc : Pc Q) (e : Option (Event k Q)) : Prop where
  polling : pc.polling = true ↔ next = 0
  syncing : pc.syncing = none
  event : e = none ∨ e = some (.resumed next)

theorem runCoroutine_resumes {t t' : Thread k Q} {next : Fin (k + 1)} {e : Option (Event k Q)}
    (h : t.runCoroutine next = (t', e)) :
    ∃ pc, Resumes next pc e ∧ t' = { t with sched := t.sched.runCoroutine next, cur := next, pc } := by
  unfold runCoroutine at h
  split_ifs at h with h0
  · cases h
    exact ⟨.poll 0, ⟨iff_of_true rfl h0, rfl, .inl rfl⟩, rfl⟩
  · cases h
    exact ⟨.user, ⟨iff_of_false Bool.false_ne_true h0, rfl, .inr rfl⟩, rfl⟩

inductive Effect (t : Thread k Q) : Action k Q → Thread k Q → Option (Event k Q) → Prop
  | completed {pre post : List (Request k Q)} {r : Request k Q} {status : Status}
      (h : t.inflight = pre ++ r :: post) :
      Effect t (.complete pre.length status)
        { t with inflight := pre ++ post, cq := t.cq ++ [⟨r, status⟩] } none
  | moved {a : Action k Q} {pc : Pc Q} {e : Option (Event k Q)} (hpoll : pc.polling = t.pc.polling)
      (hsync : pc.syncing = t.pc.syncing) (he : t.Reports e) : Effect t a { t with pc } e
  | posted {call : Call k} {q : Q} (hpc : t.pc = .user) :
      Effect t (.post call q true)
        { t.enter (t.nextRequest .data q) with sched := t.sched.addPendingQP t.cur q } none
  | logged {q : Q} (hpc : t.pc = .user) :
      Effect t (.log q true)
        { t.enter (t.nextRequest .log q) with sched := t.sched.addPendingLogQP t.cur q } none
  | called {call : SyncCall k} {q : Q} (hpc : t.pc = .user) :
      Effect t (.sync call q true)
        { t.enter (t.nextRequest .sync q) with pc := .sync q t.posted.length } none
  | yielded {pc : Pc Q} {e : Option (Event k Q)} (hpc : t.pc = .user)
      (hcount : t.sched.pending.counts t.cur ≠ 0) (hwait : t.sched.isWaitPoll t.cur = false)
      (h : Resumes (t.sched.nextCoro t.cur) pc e) :
      Effect t .yield { t with
        sched := (t.sched.unlink t.cur).runCoroutine (t.sched.nextCoro t.cur)
        cur := t.sched.nextCoro t.cur, pc } e
  | ran {pc : Pc Q} {e : Option (Event k Q)} (hpc : t.pc.polling = true)
      (h : Resumes (t.sched.nextCoro t.sched.coroHead) pc e) :
      Effect t .poll { t with
        sched := t.sched.runCoroutine (t.sched.nextCoro t.sched.coroHead)
        cur := t.sched.nextCoro t.sched.coroHead, pc } e
  | dropped {pc : Pc Q} {wc : Completion k Q} {rest : List (Completion k Q)} {it : ℕ}
      (hpc : t.pc = .poll it) (hpoll : pc.polling = true) (h : Takes t.sched.pending t.cq it wc rest)
      (hw : wc.status = .retryExcErr ∨ wc.req.wrId = 0) :
      Effect t .poll { t with cq := rest, pc, lost := wc :: t.lost } none
  | droppedLog {wc : Completion k Q} {rest : List (Completion k Q)} {it next : ℕ}
      (hpc : t.pc = .pollLog it) (h : Takes t.sched.pendingLog t.cq it wc rest)
      (hw : wc.status = .retryExcErr ∨ wc.req.wrId = 0) :
      Effect t .pollLog { t with cq := rest, pc := .pollLog next, lost := wc :: t.lost } none
  | counted {pc : Pc Q} {wc : Completion k Q} {rest : List (Completion k Q)} {p : Pending k Q} {it : ℕ}
      (hpc : t.pc.polling = true) (hpoll : pc.polling = true)
      (h : PollsTo t.sched.pending t.cq it (.counted wc rest p)) :
      Effect t .poll { t with
        cq := rest, pc, sched := t.sched.settle wc.req.wrId p, settled := wc.req :: t.settled } none
  | countedLog {wc : Completion k Q} {rest : List (Completion k Q)} {p : Pending k Q} {it : ℕ}
      (hpc : t.pc = .pollLog it) (h : PollsTo t.sched.pendingLog t.cq it (.counted wc rest p)) :
      Effect t .pollLog { t with
        cq := rest, sched := { t.sched with pendingLog := p }, settled := wc.req :: t.settled } none
  | synced {q : Q} {id : ℕ} {wc : Completion k Q} {rest : List (Completion k Q)}
      {settled : List (Request k Q)} {lost : List (Completion k Q)} (hpc : t.pc = .sync q id)
      (hq : wc.req.qp = q) (h : Taken t.cq wc rest)
      (hown : wc.req.id = id ∧ wc.status = .success → settled = wc.req :: t.settled ∧ lost = t.lost)
      (hother : ¬ (wc.req.id = id ∧ wc.status = .success) → settled = t.settled ∧ lost = wc :: t.lost) :
      Effect t .syncPoll { t with cq := rest, pc := .user, settled, lost } (some (.synced t.cur id wc))

theorem post_eq (t : Thread k Q) (call : Call k) (q : Q) :
    t.post call q =
      { t.enter (t.nextRequest .data q) with sched := t.sched.addPendingQP t.cur q } := by
  unfold post
  rw [t.submit_signaled .data q (call.workRequests_signaled t.cur)]
  rfl

theorem rdmaLog_eq (t : Thread k Q) (q : Q) :
    t.rdmaLog q =
      { t.enter (t.nextRequest .log q) with sched := t.sched.addPendingLogQP t.cur q } := rfl

theorem sync_eq (t : Thread k Q) (call : SyncCall k) (q : Q) :
    t.sync call q = { t.enter (t.nextRequest .sync q) with pc := .sync q t.posted.length } := by
  unfold sync
  rw [t.submit_signaled .sync q (call.workRequests_signaled t.cur)]

theorem Effect.still {t : Thread k Q} {a : Action k Q} {e : Option (Event k Q)} (he : t.Reports e) :
    Effect t a t e :=
  .moved rfl rfl he

theorem complete_effect {t t' : Thread k Q} {i : ℕ} {status : Status}
    (h : t.complete i status = .ok t') : Effect t (.complete i status) t' none := by
  unfold complete at h
  split at h
  · cases h
  · rename_i r hr
    cases h
    obtain ⟨hi, rfl⟩ := List.getElem?_eq_some_iff.mp hr
    have hlen : (t.inflight.take i).length = i := List.length_take_of_le hi.le
    have hsplit : t.inflight = t.inflight.take i ++ t.inflight[i] :: t.inflight.drop (i + 1) := by
      rw [← List.drop_eq_getElem_cons hi, List.take_append_drop]
    have he : Effect t (.complete (t.inflight.take i).length status) _ none := .completed hsplit
    rw [hlen, ← List.eraseIdx_eq_take_drop_succ] at he
    exact he

theorem yield_effect {t t' : Thread k Q} {e : Option (Event k Q)} (hpc : t.pc = .user)
    (h : t.yield = .ok (t', e)) : Effect t .yield t' e := by
  unfold yield at h
  split_ifs at h with hc hw
  · cases h
    exact .still ⟨rfl, hc⟩
  · obtain ⟨pc, hr, rfl⟩ := runCoroutine_resumes (Except.ok.inj h)
    exact .yielded hpc hc (by simpa using hw) hr

end Thread

variable [DecidableEq Q]

theorem pollSendCompletion_some {cq rest : List (Completion k Q)} {q : Q} {wc : Completion k Q}
    (h : pollSendCompletion cq q = some (wc, rest)) : wc.req.qp = q ∧ Taken cq wc rest := by
  obtain ⟨w, hfind, he⟩ := Option.map_eq_some_iff.mp h
  obtain ⟨rfl, rfl⟩ := Prod.mk.inj he
  obtain ⟨hq, pre, post, rfl, hpre⟩ := List.find?_eq_some_iff_append.mp hfind
  have hq := of_decide_eq_true hq
  have hpre : ∀ x ∈ pre, x.req.qp ≠ q := by
    intro x hx
    simpa using hpre x hx
  refine ⟨hq, pre, post, rfl, ?_, fun x hx => hq ▸ hpre x hx⟩
  rw [List.eraseP_append_right _ (by simpa using hpre), List.eraseP_cons_of_pos (by simpa using hq)]

namespace Pending

theorem pollEntry_ok {p : Pending k Q} {s : Stop} {cq : List (Completion k Q)} {it : ℕ} {r : Polled k Q}
    (h : p.pollEntry s cq it = .ok r) : PollsTo p cq it r := by
  unfold pollEntry at h
  split at h
  · cases h; trivial
  · rename_i qp hqp
    split at h
    · cases h; trivial
    · rename_i wc rest hpoll
      obtain ⟨rfl, ht⟩ := pollSendCompletion_some hpoll
      dsimp only at h
      split_ifs at h with hs hr h0 hc
      · cases h
        exact ⟨⟨hqp, ht⟩, not_not.mp hr⟩
      · cases h
        exact ⟨⟨hqp, ht⟩, h0⟩
      · cases h
        exact ⟨⟨hqp, ht⟩, not_not.mp hs, h0, hc, rfl⟩

theorem pollEntry_error {p : Pending k Q} {s e : Stop} {cq : List (Completion k Q)} {it : ℕ}
    (h : p.pollEntry s cq it = .error e) : e = .abort ∨
      e = s ∧ ∃ wc rest, Takes p cq it wc rest ∧ wc.req.wrId ≠ 0 ∧ ¬ 0 < p.counts wc.req.wrId := by
  unfold pollEntry at h
  split at h
  · cases h
  · rename_i qp hqp
    split at h
    · cases h
    · rename_i wc rest hpoll
      obtain ⟨rfl, ht⟩ := pollSendCompletion_some hpoll
      dsimp only at h
      split_ifs at h with hs hr h0 hc
      · cases h
        exact .inl rfl
      · cases h
        exact .inr ⟨rfl, wc, rest, ⟨hqp, ht⟩, h0, hc⟩

end Pending

namespace Thread

theorem pollRegularCompletion_effect {t t' : Thread k Q} {it : ℕ} {e : Option (Event k Q)}
    (hpc : t.pc = .poll it) (h : t.pollRegularCompletion it = .ok (t', e)) : Effect t .poll t' e := by
  unfold pollRegularCompletion at h
  cases hp : t.sched.pending.pollEntry .pendingCount t.cq it with
  | error s => rw [hp] at h; cases h
  | ok r =>
    have hto := Pending.pollEntry_ok hp
    rw [hp] at h
    have hpoll : t.pc.polling = true := by rw [hpc]; rfl
    have hnone : t.pc.syncing = none := by rw [hpc]; rfl
    cases r with
    | finished =>
      by_cases h0 : t.sched.nextCoro t.sched.coroHead = 0
      · have h := Except.ok.inj h
        rw [if_pos h0] at h
        cases h
        exact .moved hpoll.symm hnone.symm trivial
      · have h := Except.ok.inj h
        rw [if_neg h0] at h
        obtain ⟨pc, hr, rfl⟩ := runCoroutine_resumes h
        exact .ran hpoll hr
    | noCompletion => cases h; exact .moved hpoll.symm hnone.symm trivial
    | retry wc rest => cases h; exact .dropped hpc rfl hto.1 (.inl hto.2)
    | unowned wc rest => cases h; exact .dropped hpc rfl hto.1 (.inr hto.2)
    | counted wc rest p => cases h; exact .counted hpoll rfl hto

theorem pollLogCompletion_effect {t t' : Thread k Q} {it : ℕ} {e : Option (Event k Q)}
    (hpc : t.pc = .pollLog it) (h : t.pollLogCompletion it = .ok (t', e)) : Effect t .pollLog t' e := by
  unfold pollLogCompletion at h
  cases hp : t.sched.pendingLog.pollEntry .pendingLogCount t.cq it with
  | error s => rw [hp] at h; cases h
  | ok r =>
    have hto := Pending.pollEntry_ok hp
    rw [hp] at h
    have hpoll : t.pc.polling = false := by rw [hpc]; rfl
    have hnone : t.pc.syncing = none := by rw [hpc]; rfl
    cases r with
    | finished => cases h; exact .moved hpoll.symm hnone.symm ⟨rfl, of_decide_eq_true⟩
    | noCompletion => cases h; exact .moved hpoll.symm hnone.symm trivial
    | retry wc rest => cases h; exact .droppedLog hpc hto.1 (.inl hto.2)
    | unowned wc rest => cases h; exact .droppedLog hpc hto.1 (.inr hto.2)
    | counted wc rest p =>
      cases h
      rw [← hpc]
      exact .countedLog hpc hto

theorem pollTillCompletion_effect (t : Thread k Q) {q : Q} {id : ℕ} (hpc : t.pc = .sync q id) :
    Effect t .syncPoll (t.pollTillCompletion q id).1 (t.pollTillCompletion q id).2 := by
  unfold pollTillCompletion
  cases hp : pollSendCompletion t.cq q with
  | none => exact .still trivial
  | some r =>
    obtain ⟨hq, ht⟩ := pollSendCompletion_some hp
    dsimp only
    split_ifs with hown
    · exact .synced hpc hq ht (fun _ => ⟨rfl, rfl⟩) (fun h => absurd hown h)
    · exact .synced hpc hq ht (fun h => absurd h hown) (fun _ => ⟨rfl, rfl⟩)

theorem step_effect {t t' : Thread k Q} {a : Action k Q} {e : Option (Event k Q)}
    (h : t.step a = .ok (t', e)) : Effect t a t' e := by
  unfold step at h
  split at h
  · rename_i i status
    cases hc : t.complete i status with
    | error s => rw [hc] at h; cases h
    | ok t₁ =>
      rw [hc] at h
      cases h
      exact complete_effect hc
  · rename_i call q succ hpc
    cases succ <;> cases h
    · exact .still trivial
    · rw [if_pos rfl, post_eq]
      exact .posted hpc
  · rename_i q succ hpc
    cases succ <;> cases h
    · exact .still trivial
    · rw [if_pos rfl, submit_unsignaled]
      exact .still trivial
  · rename_i q succ hpc
    cases succ <;> cases h
    rw [rdmaLog_eq]
    exact .logged hpc
  · rename_i call q succ hpc
    cases succ <;> cases h
    · exact .still trivial
    · rw [if_pos rfl, sync_eq]
      exact .called hpc
  · rename_i hpc
    exact yield_effect hpc h
  · rename_i hpc
    have h := Except.ok.inj h
    unfold checkLogAck at h
    split_ifs at h with h0
    · cases h
      exact .still ⟨rfl, fun _ => h0⟩
    · cases h
      exact .moved (by rw [hpc]; rfl) (by rw [hpc]; rfl) trivial
  · rename_i it hpc
    exact pollRegularCompletion_effect hpc h
  · rename_i it hpc
    exact pollLogCompletion_effect hpc h
  · rename_i q id hpc
    have he := t.pollTillCompletion_effect hpc
    rw [Except.ok.inj h] at he
    exact he
  · cases h

def Fails (t : Thread k Q) : Stop → Prop
  | .disabled | .abort => True
  | .waitPoll => t.sched.isWaitPoll t.cur = true
  | .pendingCount => t.pc.syncing = none ∧ ∃ it wc rest, Takes t.sched.pending t.cq it wc rest ∧
      ¬ 0 < t.sched.pending.counts wc.req.wrId
  | .pendingLogCount => t.pc.syncing = none ∧ ∃ it wc rest, Takes t.sched.pendingLog t.cq it wc rest ∧
      ¬ 0 < t.sched.pendingLog.counts wc.req.wrId

theorem pollRegularCompletion_error {t : Thread k Q} {it : ℕ} {s : Stop} (hpc : t.pc = .poll it)
    (h : t.pollRegularCompletion it = .error s) : t.Fails s := by
  unfold pollRegularCompletion at h
  cases hp : t.sched.pending.pollEntry .pendingCount t.cq it with
  | error s' =>
    rw [hp] at h
    cases h
    obtain rfl | ⟨rfl, wc, rest, ht, -, hc⟩ := Pending.pollEntry_error hp
    · trivial
    · exact ⟨by rw [hpc]; rfl, it, wc, rest, ht, hc⟩
  | ok r => rw [hp] at h; cases r <;> cases h

theorem pollLogCompletion_error {t : Thread k Q} {it : ℕ} {s : Stop} (hpc : t.pc = .pollLog it)
    (h : t.pollLogCompletion it = .error s) : t.Fails s := by
  unfold pollLogCompletion at h
  cases hp : t.sched.pendingLog.pollEntry .pendingLogCount t.cq it with
  | error s' =>
    rw [hp] at h
    cases h
    obtain rfl | ⟨rfl, wc, rest, ht, -, hc⟩ := Pending.pollEntry_error hp
    · trivial
    · exact ⟨by rw [hpc]; rfl, it, wc, rest, ht, hc⟩
  | ok r => rw [hp] at h; cases r <;> cases h

theorem step_error {t : Thread k Q} {a : Action k Q} {s : Stop} (h : t.step a = .error s) : t.Fails s := by
  unfold step at h
  split at h
  · rename_i i status
    cases hc : t.complete i status with
    | error s' =>
      rw [hc] at h
      cases h
      unfold complete at hc
      split at hc <;> cases hc
      trivial
    | ok t₁ => rw [hc] at h; cases h
  · cases h
  · cases h
  · rename_i q succ hpc
    cases succ <;> cases h
    trivial
  · cases h
  · rename_i hpc
    unfold yield at h
    split_ifs at h with hc hw
    cases h
    exact hw
  · cases h
  · rename_i it hpc
    exact pollRegularCompletion_error hpc h
  · rename_i it hpc
    exact pollLogCompletion_error hpc h
  · cases h
  · cases h
    trivial

theorem Run.mono {ok ok' : Thread k Q → Action k Q → Prop} {t t' : Thread k Q} (hrun : Run ok t t')
    (h : ∀ t a, ok t a → ok' t a) : Run ok' t t' := by
  induction hrun with
  | refl => exact .refl
  | tail _ hlast ih =>
    obtain ⟨a, e, hok, hs⟩ := hlast
    exact ih.tail ⟨a, e, h _ a hok, hs⟩

theorem Run.inv {ok : Thread k Q → Action k Q → Prop} {I : Thread k Q → Prop} {t t' : Thread k Q}
    (hrun : Run ok t t') (ht : I t)
    (hstep : ∀ {u u' : Thread k Q} {a e}, I u → ok u a → Effect u a u' e → I u') : I t' := by
  induction hrun with
  | refl => exact ht
  | tail _ hlast ih =>
    obtain ⟨a, e, hok, hs⟩ := hlast
    exact hstep ih hok (step_effect hs)

end Thread

end MetadataService.Scheduler
