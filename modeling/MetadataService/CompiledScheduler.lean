import Mathlib.Algebra.Order.BigOperators.Group.Finset
import Mathlib.Algebra.BigOperators.Group.Finset.Basic
import Mathlib.Data.Fintype.Card
import MetadataService.CompletionAccounting

-- The scheduler as it is compiled: with `NDEBUG`, which the default build sets, and with counters of type `int`.

namespace MetadataService.Scheduler

variable {k : ℕ} {Q : Type}

def Pending.countDown [DecidableEq Q] (p : Pending k Q) (cq : List (Completion k Q)) (it : ℕ) :
    Option (Completion k Q × List (Completion k Q) × Pending k Q) := do
  let qp ← p.qps[it]?
  let (wc, cq) ← pollSendCompletion cq qp
  let coroId := wc.req.wrId
  return (wc, cq, ⟨p.qps.eraseIdx it, Function.update p.counts coroId (p.counts coroId - 1)⟩)

namespace Thread

section Release

variable [DecidableEq Q]

-- The statements behind an assertion that fails.
def pastAssertion (t : Thread k Q) : Stop → Option (Thread k Q × Option (Event k Q))
  | .pendingCount =>
    match t.pc with
    | .poll it => (t.sched.pending.countDown t.cq it).map fun (wc, cq, p) =>
      ({ t with cq, sched := t.sched.settle wc.req.wrId p, settled := wc.req :: t.settled }, none)
    | _ => none
  | .pendingLogCount =>
    match t.pc with
    | .pollLog it => (t.sched.pendingLog.countDown t.cq it).map fun (wc, cq, p) =>
      ({ t with cq, sched := { t.sched with pendingLog := p }, settled := wc.req :: t.settled }, none)
    | _ => none
  | .waitPoll => some ({ t with sched := t.sched.unlink t.cur }.runCoroutine (t.sched.nextCoro t.cur))
  | .disabled => none
  | .abort => none

def releaseStep (t : Thread k Q) (a : Action k Q) : Except Stop (Thread k Q × Option (Event k Q)) :=
  match t.step a with
  | .ok r => .ok r
  | .error s => (t.pastAssertion s).elim (.error s) .ok

def ReleaseRun (ok : Thread k Q → Action k Q → Prop) : Thread k Q → Thread k Q → Prop :=
  Relation.ReflTransGen fun t t' => ∃ a e, ok t a ∧ t.releaseStep a = .ok (t', e)

variable {isLog : Q → Bool} {t : Thread k Q}

theorem Accounted.releaseStep_eq (h : t.Accounted isLog) (hs : t.Scheduled) (a : Action k Q) :
    t.releaseStep a = t.step a := by
  unfold releaseStep
  cases ha : t.step a with
  | ok r => rfl
  | error s =>
    have hfails := step_error ha
    cases s with
    | disabled => rfl
    | abort => rfl
    | pendingCount => exact absurd hfails h.not_fails.1
    | pendingLogCount => exact absurd hfails h.not_fails.2
    | waitPoll =>
      have hwait : t.sched.isWaitPoll t.cur = true := hfails
      rw [hs.running] at hwait
      cases hwait

theorem ReleaseRun.run (h : ReleaseRun (Disciplined isLog) (start k Q) t) :
    Run (Disciplined isLog) (start k Q) t := by
  induction h with
  | refl => exact .refl
  | tail _ hlast ih =>
    obtain ⟨a, e, hok, hstep⟩ := hlast
    rw [ih.accounted.releaseStep_eq ih.scheduled] at hstep
    exact ih.tail ⟨a, e, hok, hstep⟩

theorem ReleaseRun.yieldableRing (h : ReleaseRun (Disciplined isLog) (start k Q) t) :
    t.sched.YieldableRing ∧ ∀ a, t.releaseStep a = t.step a := by
  have hs := h.run.scheduled
  obtain ⟨l, hl⟩ := hs.ring
  exact ⟨hl.yieldable hs.head, h.run.accounted.releaseStep_eq hs⟩

end Release

def rcMaxSendSize : ℕ := 1024

section SendQueues

variable [DecidableEq Q] {isLog : Q → Bool} {t t' : Thread k Q} {a : Action k Q} {e : Option (Event k Q)}

def queued (t : Thread k Q) (q : Q) : ℕ := (t.unconsumed.map Request.qp).count q

def HasRoom (t : Thread k Q) : Action k Q → Prop
  | .post _ q true => t.queued q < rcMaxSendSize
  | .log q true => t.queued q < rcMaxSendSize
  | .sync _ q true => t.queued q < rcMaxSendSize
  | _ => True

theorem queued_perm {us : List (Request k Q)} (h : t.unconsumed.Perm us) (q : Q) :
    t.queued q = (us.map Request.qp).count q :=
  (h.map _).count_eq q

theorem queued_enter {r : Request k Q} (hu : t'.unconsumed.Perm (r :: t.unconsumed))
    (h : ∀ q, t.queued q ≤ rcMaxSendSize) (hroom : t.queued r.qp < rcMaxSendSize) (q : Q) :
    t'.queued q ≤ rcMaxSendSize := by
  rw [queued_perm hu, List.map_cons, List.count_cons]
  by_cases hq : r.qp = q
  · subst hq
    rw [if_pos (beq_self_eq_true _)]
    exact hroom
  · rw [if_neg (by simpa using hq)]
    exact h q

theorem queued_taken {wc : Completion k Q} (hu : t.unconsumed.Perm (wc.req :: t'.unconsumed))
    (h : ∀ q, t.queued q ≤ rcMaxSendSize) (q : Q) : t'.queued q ≤ rcMaxSendSize := by
  refine le_trans ?_ (h q)
  rw [queued_perm hu, List.map_cons]
  exact List.count_le_count_cons

theorem Effect.queued (he : Effect t a t' e) (hroom : t.HasRoom a) (h : ∀ q, t.queued q ≤ rcMaxSendSize) :
    ∀ q, t'.queued q ≤ rcMaxSendSize := by
  cases he with
  | completed hin =>
    intro q
    refine le_trans (le_of_eq ?_) (h q)
    exact (queued_perm (completed_unconsumed hin) q).symm
  | posted hpc => exact queued_enter (t.enter_unconsumed _) h hroom
  | logged hpc => exact queued_enter (t.enter_unconsumed _) h hroom
  | called hpc => exact queued_enter (t.enter_unconsumed _) h hroom
  | dropped hpc hpoll hto hw => exact queued_taken (t := t) (taken_unconsumed hto.taken) h
  | droppedLog hpc hto hw => exact queued_taken (t := t) (taken_unconsumed hto.taken) h
  | counted hpc hpoll hto => exact queued_taken (t := t) (taken_unconsumed hto.1.taken) h
  | countedLog hpc hto => exact queued_taken (t := t) (taken_unconsumed hto.1.taken) h
  | synced hpc hq ht hown hother => exact queued_taken (t := t) (taken_unconsumed ht) h
  | moved hpoll hsync hrep => exact h
  | yielded hpc hcount hwait hr => exact h
  | ran hpc hr => exact h

theorem Run.queued_le (hrun : Run (fun t a => Disciplined isLog t a ∧ t.HasRoom a) (start k Q) t) (q : Q) :
    t.queued q ≤ rcMaxSendSize :=
  (hrun.inv (I := fun t => ∀ q, t.queued q ≤ rcMaxSendSize) (fun _ => Nat.zero_le _)
    fun h hok he => he.queued hok.2 h) q

variable [Fintype Q]

theorem unconsumed_length_le (h : ∀ q, t.queued q ≤ rcMaxSendSize) :
    t.unconsumed.length ≤ Fintype.card Q * rcMaxSendSize := by
  have hsum : ∑ q, t.queued q = t.unconsumed.length := by
    have hcount := Multiset.sum_count_eq_card (s := Finset.univ) (m := (t.unconsumed.map Request.qp : Multiset Q))
      fun q _ => Finset.mem_univ q
    simp only [Multiset.coe_count, Multiset.coe_card, List.length_map] at hcount
    exact hcount
  rw [← hsum]
  exact Finset.sum_le_card_nsmul _ _ _ fun q _ => h q

omit [DecidableEq Q] [Fintype Q] in
theorem Accounted.counts_le {p : Pending k Q} {kind : Kind} (h : p.Balances kind t.unsettled) (c : Fin (k + 1)) :
    0 ≤ p.counts c ∧ p.counts c ≤ t.unconsumed.length + t.lost.length := by
  have hlen : ((t.unsettled.filter fun r => r.kind = kind).map Request.coro).count c ≤ t.unsettled.length :=
    calc _ ≤ ((t.unsettled.filter fun r => r.kind = kind).map Request.coro).length := List.count_le_length
      _ = (t.unsettled.filter fun r => r.kind = kind).length := List.length_map _
      _ ≤ t.unsettled.length := List.length_filter_le _ _
  have hsum : t.unsettled.length = t.unconsumed.length + t.lost.length := by
    rw [unsettled, List.length_append, List.length_map]
  rw [h.counts]
  omega

-- `pending_counts` and `pending_log_counts` stay in the range of `int`: the manager of a thread has two
-- tables of 100 queue pairs, and a completion that failed with retries exceeded leaves its request counted.
theorem run_counts_int (hrun : Run (fun t a => Disciplined isLog t a ∧ t.HasRoom a) (start k Q) t)
    (hqps : Fintype.card Q ≤ 200) (hlost : t.lost.length ≤ 2 ^ 30) (c : Fin (k + 1)) :
    (0 ≤ t.sched.pending.counts c ∧ t.sched.pending.counts c < 2 ^ 31) ∧
      0 ≤ t.sched.pendingLog.counts c ∧ t.sched.pendingLog.counts c < 2 ^ 31 := by
  have haccounted : t.Accounted isLog := Run.accounted (hrun.mono fun _ _ h => h.1)
  have hlength : t.unconsumed.length ≤ 200 * rcMaxSendSize :=
    (unconsumed_length_le hrun.queued_le).trans (Nat.mul_le_mul_right _ hqps)
  have hdata := Accounted.counts_le haccounted.data c
  have hlog := Accounted.counts_le haccounted.log c
  rw [rcMaxSendSize] at hlength
  omega

end SendQueues

end Thread

end MetadataService.Scheduler
