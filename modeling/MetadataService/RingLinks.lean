import MetadataService.YieldRing

namespace MetadataService.Scheduler

open LinkedRing

variable {k : ℕ} {Q : Type} {s : CoroutineScheduler k Q} {l : List (Fin (k + 1))} {c : Fin (k + 1)}

namespace CoroutineScheduler

def InRing (s : CoroutineScheduler k Q) (x : Fin (k + 1)) : Prop := ∃ j, s.nextCoro^[j] s.coroHead = x

structure DoublyLinked (s : CoroutineScheduler k Q) : Prop where
  prev_next : ∀ x, s.InRing x → s.prevCoro (s.nextCoro x) = x
  next_prev : ∀ x, s.InRing x → s.nextCoro (s.prevCoro x) = x
  closed : s.prevCoro s.coroHead = s.coroTail

namespace RunnableRing

theorem doublyLinked_iff (h : s.RunnableRing l) : s.DoublyLinked ↔ s.prevCoro s.coroHead = s.coroTail := by
  constructor
  · intro hd
    exact hd.closed
  · intro hclosed
    have hinv := h.ring.inverse_iff.mpr hclosed
    refine ⟨?_, ?_, hclosed⟩
    · intro x hx
      exact (hinv x (h.ring.mem_iff_iterate.mpr hx)).1
    · intro x hx
      exact (hinv x (h.ring.mem_iff_iterate.mpr hx)).2

theorem settle_closed_iff (h : s.RunnableRing l) (hc : 0 < s.pending.counts c) {p : Pending k Q}
    (hp : p.counts c = s.pending.counts c - 1) (hclosed : s.prevCoro s.coroHead = s.coroTail) :
    (s.settle c p).prevCoro (s.settle c p).coroHead = (s.settle c p).coroTail ↔
      ¬ (s.isWaitPoll c = true ∧ s.pending.counts c = 1) := by
  unfold CoroutineScheduler.settle
  by_cases h1 : s.pending.counts c = 1
  · rw [if_pos (by omega)]
    unfold CoroutineScheduler.appendCoroutine
    by_cases hw : s.isWaitPoll c = true
    · rw [if_pos hw]
      have hout : c ∉ s.coroHead :: l := h.not_waits_iff.mpr ⟨hw, hc⟩
      exact iff_of_false (h.ring.append_open hout hclosed) (not_not.mpr ⟨hw, h1⟩)
    · rw [if_neg hw]
      exact iff_of_true hclosed fun ⟨hwait, _⟩ => hw hwait
  · rw [if_neg (by omega)]
    exact iff_of_true hclosed fun ⟨_, hone⟩ => h1 hone

end RunnableRing

end CoroutineScheduler

def Polled.completion : Polled k Q → Option (Completion k Q)
  | .finished | .noCompletion => none
  | .retry wc _ | .unowned wc _ | .counted wc _ _ => some wc

namespace Thread

variable {t t' : Thread k Q} {a : Action k Q} {e : Option (Event k Q)}

theorem start_doublyLinked : (start k Q).sched.DoublyLinked := by
  apply CoroutineScheduler.loopLinkCoroutine_ring.doublyLinked_iff.mpr
  simp [CoroutineScheduler.loopLinkCoroutine]

theorem Scheduled.effect_closed (h : t.Scheduled) (he : Effect t a t' e) (ha : a ≠ .poll)
    (hclosed : t.sched.prevCoro t.sched.coroHead = t.sched.coroTail) :
    t'.sched.prevCoro t'.sched.coroHead = t'.sched.coroTail := by
  cases he with
  | yielded hpc hcount hwait hr =>
    obtain ⟨pre, post, hl⟩ := h.split_cur (by rw [hpc]; rfl)
    exact hl.ring.remove_closed hclosed
  | ran | dropped | counted => exact absurd rfl ha
  | completed | moved | posted | logged | called | droppedLog | countedLog | synced => exact hclosed

variable [DecidableEq Q]

def polled (t : Thread k Q) : Option (Completion k Q) :=
  match t.pc with
  | .poll it => t.sched.pending.qps[it]?.bind fun qp => (pollSendCompletion t.cq qp).map Prod.fst
  | _ => none

/-- The step takes the last completion that a coroutine outside of the ring waits for. -/
def wakes (t : Thread k Q) (a : Action k Q) : Bool :=
  match a, t.polled with
  | .poll, some wc =>
    wc.status = .success && t.sched.isWaitPoll wc.req.wrId && t.sched.pending.counts wc.req.wrId = 1
  | _, _ => false

theorem not_wakes_of_ne_poll (ha : a ≠ .poll) : ¬ t.wakes a = true := by
  unfold wakes
  split
  · exact absurd rfl ha
  · exact Bool.false_ne_true

theorem not_wakes_of_polled_none (h : t.polled = none) : ¬ t.wakes a = true := by
  unfold wakes
  rw [h]
  split
  · rename_i hsome
    cases hsome
  · exact Bool.false_ne_true

theorem wakes_poll_iff {wc : Completion k Q} (h : t.polled = some wc) : t.wakes .poll = true ↔
    wc.status = .success ∧ t.sched.isWaitPoll wc.req.wrId = true ∧
      t.sched.pending.counts wc.req.wrId = 1 := by
  unfold wakes
  rw [h]
  simp [and_assoc]

theorem step_poll_ok (h : t.step .poll = .ok (t', e)) :
    ∃ it, t.pc = .poll it ∧ t.pollRegularCompletion it = .ok (t', e) := by
  unfold step at h
  cases hpc : t.pc with
  | poll it =>
    rw [hpc] at h
    exact ⟨it, rfl, h⟩
  | user | pollLog | sync =>
    rw [hpc] at h
    cases h

theorem polled_eq {it : ℕ} {r : Polled k Q} {stop : Stop} (hpc : t.pc = .poll it)
    (h : t.sched.pending.pollEntry stop t.cq it = .ok r) : t.polled = r.completion := by
  unfold polled
  rw [hpc]
  unfold Pending.pollEntry at h
  dsimp only
  split at h
  · rename_i hqp
    cases h
    rw [hqp]
    rfl
  · rename_i qp hqp
    rw [hqp, Option.bind_some]
    split at h
    · rename_i hfind
      cases h
      rw [hfind]
      rfl
    · rename_i wc rest hfind
      rw [hfind, Option.map_some]
      dsimp only at h
      split_ifs at h <;> cases h <;> rfl

namespace Scheduled

theorem poll_closed_iff (h : t.Scheduled) {it : ℕ} (hpc : t.pc = .poll it)
    (hs : t.pollRegularCompletion it = .ok (t', e))
    (hclosed : t.sched.prevCoro t.sched.coroHead = t.sched.coroTail) :
    t'.sched.prevCoro t'.sched.coroHead = t'.sched.coroTail ↔ ¬ t.wakes .poll = true := by
  unfold pollRegularCompletion at hs
  cases hp : t.sched.pending.pollEntry .pendingCount t.cq it with
  | error stop => rw [hp] at hs; cases hs
  | ok r =>
    have hfound := polled_eq hpc hp
    have hto := Pending.pollEntry_ok hp
    rw [hp] at hs
    cases r with
    | finished =>
      have hnot : ¬ t.wakes .poll = true := not_wakes_of_polled_none hfound
      have hs := Except.ok.inj hs
      split_ifs at hs with h0
      · cases hs
        exact iff_of_true hclosed hnot
      · obtain ⟨pc, -, rfl⟩ := runCoroutine_resumes hs
        exact iff_of_true hclosed hnot
    | noCompletion =>
      cases hs
      exact iff_of_true hclosed (not_wakes_of_polled_none hfound)
    | retry wc rest =>
      cases hs
      apply iff_of_true hclosed
      rw [wakes_poll_iff hfound]
      rintro ⟨hsuccess, -⟩
      rw [hto.2] at hsuccess
      cases hsuccess
    | unowned wc rest =>
      cases hs
      apply iff_of_true hclosed
      rw [wakes_poll_iff hfound]
      rintro ⟨-, -, hone⟩
      rw [hto.2, h.idle] at hone
      cases hone
    | counted wc rest p =>
      cases hs
      obtain ⟨-, hsuccess, -, hpos, rfl⟩ := hto
      obtain ⟨l, hl⟩ := h.ring
      rw [wakes_poll_iff hfound, and_iff_right hsuccess]
      exact hl.settle_closed_iff hpos (Function.update_self _ _ _) hclosed

theorem step_doublyLinked_iff (h : t.Scheduled) (hs : t.step a = .ok (t', e)) (hd : t.sched.DoublyLinked) :
    t'.sched.DoublyLinked ↔ ¬ t.wakes a = true := by
  obtain ⟨l, hl⟩ := (h.effect (step_effect hs)).ring
  rw [hl.doublyLinked_iff]
  by_cases ha : a = .poll
  · subst ha
    obtain ⟨it, hpc, hs⟩ := step_poll_ok hs
    exact h.poll_closed_iff hpc hs hd.closed
  · exact iff_of_true (h.effect_closed (step_effect hs) ha hd.closed) (not_wakes_of_ne_poll ha)

end Scheduled

theorem Run.links {ok : Thread k Q → Action k Q → Prop} (hrun : Run ok (start k Q) t) {x : Fin (k + 1)}
    (hx : t.sched.InRing x) : (x ≠ t.sched.coroTail → t.sched.prevCoro (t.sched.nextCoro x) = x) ∧
      (x ≠ t.sched.coroHead → t.sched.nextCoro (t.sched.prevCoro x) = x) := by
  obtain ⟨l, hl⟩ := hrun.scheduled.ring
  have hmem := hl.ring.mem_iff_iterate.mpr hx
  constructor
  · intro htail
    apply (hl.ring.path.prev_next hmem).resolve_left
    rw [hl.ring.last]
    exact htail
  · intro hhead
    exact hl.ring.path.next_prev ((List.mem_cons.mp hmem).resolve_left hhead)

theorem Run.doublyLinked (hrun : Run (fun t a => ¬ t.wakes a = true) (start k Q) t) :
    t.sched.DoublyLinked := by
  induction hrun with
  | refl => exact start_doublyLinked
  | tail hrun hlast ih =>
    obtain ⟨a, e, hok, hs⟩ := hlast
    exact (Run.scheduled hrun).step_doublyLinked_iff hs ih |>.mpr hok

theorem run_doublyLinked (hrun : Run (fun t a => ¬ t.wakes a = true) (start k Q) t) :
    t.sched.DoublyLinked ∧
      ∀ a t' e, t.step a = .ok (t', e) → (t'.sched.DoublyLinked ↔ ¬ t.wakes a = true) := by
  have hd := hrun.doublyLinked
  refine ⟨hd, ?_⟩
  intro a t' e hs
  exact hrun.scheduled.step_doublyLinked_iff hs hd

theorem run_doublyLinked_two_workers : ∃ t : Thread 2 Bool,
    Run (fun t a => ¬ t.wakes a = true) (start 2 Bool) t ∧ t.sched.coroTail = 0 ∧ t.wakes .poll = true ∧
    t.sched.DoublyLinked ∧
      ∀ a t' e, t.step a = .ok (t', e) → (t'.sched.DoublyLinked ↔ ¬ t.wakes a = true) := by
  obtain ⟨t, hrun, hP⟩ := replay_any (fun t a => ¬ t.wakes a = true)
    [.poll, .post .read false true, .yield, .post .cas true true, .yield, .complete 0 .success]
    (start 2 Bool) (fun t => t.sched.coroTail = 0 ∧ t.wakes .poll = true) (by decide)
  obtain ⟨htail, hwakes⟩ := of_decide_eq_true hP
  exact ⟨t, hrun, htail, hwakes, run_doublyLinked hrun⟩

theorem appendCoroutine_leaves_head : ∃ t : Thread 1 Unit, Run (fun _ _ => True) (start 1 Unit) t ∧
    t.sched.coroHead = 0 ∧ t.sched.coroTail = 1 ∧ t.sched.prevCoro 0 = 0 ∧ t.sched.nextCoro 0 = 1 ∧
    ¬ t.sched.DoublyLinked := by
  obtain ⟨t, hrun, hP⟩ := replay_any (fun _ _ => True)
    [.poll, .post .read () true, .yield, .complete 0 .success, .poll] (start 1 Unit)
    (fun t => t.sched.coroHead = 0 ∧ t.sched.coroTail = 1 ∧ t.sched.prevCoro 0 = 0 ∧ t.sched.nextCoro 0 = 1)
    (by decide)
  obtain ⟨hhead, htail, hprev, hnext⟩ := of_decide_eq_true hP
  refine ⟨t, hrun, hhead, htail, hprev, hnext, ?_⟩
  intro hd
  have hclosed := hd.closed
  rw [hhead, htail, hprev] at hclosed
  cases hclosed

end Thread

end MetadataService.Scheduler
