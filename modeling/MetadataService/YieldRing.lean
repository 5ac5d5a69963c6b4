import Mathlib.Algebra.Group.Fin.Basic
import Mathlib.Data.List.FinRange
import MetadataService.LinkedRing
import MetadataService.SchedulerEffects

namespace MetadataService.Scheduler

open LinkedRing

variable {k : ℕ} {Q : Type} {s : CoroutineScheduler k Q} {l : List (Fin (k + 1))} {c : Fin (k + 1)}

namespace CoroutineScheduler

def Waits (s : CoroutineScheduler k Q) (c : Fin (k + 1)) : Prop :=
  s.isWaitPoll c = true ∧ 0 < s.pending.counts c

structure RunnableRing (s : CoroutineScheduler k Q) (l : List (Fin (k + 1))) : Prop where
  ring : Ring s.nextCoro s.prevCoro s.coroHead s.coroTail l
  mem_iff : ∀ c, c ∈ s.coroHead :: l ↔ ¬ s.Waits c

theorem iterate_succ_val {j : ℕ} (hj : j ≤ k) : ((fun i : Fin (k + 1) => i + 1)^[j] 0).val = j := by
  induction j with
  | zero => rfl
  | succ j ih =>
    have hlt : (fun i : Fin (k + 1) => i + 1)^[j] 0 < Fin.last k := by
      rw [Fin.lt_def, ih (by omega), Fin.val_last]
      omega
    rw [Function.iterate_succ_apply', Fin.val_add_one_of_lt hlt, ih (by omega)]

theorem iterate_succ_eq_finRange :
    List.iterate (fun i : Fin (k + 1) => i + 1) 0 (k + 1) = List.finRange (k + 1) := by
  apply List.ext_getElem
  · simp
  · intro j hj _
    rw [List.length_iterate] at hj
    apply Fin.ext
    rw [List.getElem_iterate, iterate_succ_val (by omega), List.getElem_finRange]
    rfl

theorem loopLinkCoroutine_nextCoro : (loopLinkCoroutine k Q).nextCoro = fun i => i + 1 := by
  funext i
  by_cases hi : i = Fin.last k
  · simp [loopLinkCoroutine, hi]
  · simp [loopLinkCoroutine, hi]

theorem loopLinkCoroutine_prevCoro : (loopLinkCoroutine k Q).prevCoro = fun i => i - 1 := by
  funext i
  by_cases hi : i = 0
  · rw [hi, sub_eq_of_eq_add (Fin.last_add_one k).symm]
    simp [loopLinkCoroutine]
  · simp [loopLinkCoroutine, hi]

theorem loopLinkCoroutine_ring :
    (loopLinkCoroutine k Q).RunnableRing (List.iterate (fun i => i + 1) (0 + 1) k) := by
  have hall : 0 :: List.iterate (fun i : Fin (k + 1) => i + 1) (0 + 1) k = List.finRange (k + 1) :=
    iterate_succ_eq_finRange
  have hback : (fun i : Fin (k + 1) => i + 1)^[k + 1] 0 = 0 := by
    have hk : (fun i : Fin (k + 1) => i + 1)^[k] 0 = Fin.last k := Fin.ext (iterate_succ_val le_rfl)
    rw [Function.iterate_succ_apply', hk, Fin.last_add_one]
  have hlast : (0 :: List.iterate (fun i : Fin (k + 1) => i + 1) (0 + 1) k).getLast (List.cons_ne_nil 0 _) =
      Fin.last k := by
    rw [List.getLast_eq_getElem]
    apply Fin.ext
    simp only [hall, List.getElem_finRange, List.length_finRange]
    rfl
  refine ⟨⟨?_, ?_, hlast⟩, ?_⟩
  · change (0 :: _).Nodup
    rw [hall]
    exact List.nodup_finRange _
  · rw [loopLinkCoroutine_nextCoro, loopLinkCoroutine_prevCoro]
    have hpath : Path (fun i : Fin (k + 1) => i + 1) (fun i => i - 1) 0 _ _ :=
      path_iterate (fun i => add_sub_cancel_right i 1) 0 k
    rw [hback] at hpath
    exact hpath
  · intro c
    change c ∈ 0 :: _ ↔ _
    rw [hall]
    simp [Waits, loopLinkCoroutine]

namespace RunnableRing

theorem not_waits_iff (h : s.RunnableRing l) : c ∉ s.coroHead :: l ↔ s.Waits c := by
  rw [h.mem_iff, not_not]

theorem of_waits_iff {p : Pending k Q} {w : Fin (k + 1) → Bool} (h : s.RunnableRing l)
    (hw : ∀ c, (w c = true ∧ 0 < p.counts c) ↔ s.Waits c) :
    { s with isWaitPoll := w, pending := p }.RunnableRing l := by
  refine ⟨h.ring, fun c => ?_⟩
  rw [h.mem_iff, ← hw]
  rfl

theorem addPendingQP (h : s.RunnableRing l) (q : Q) (hc : s.isWaitPoll c = false) :
    (s.addPendingQP c q).RunnableRing l := by
  apply h.of_waits_iff
  intro d
  by_cases hd : d = c
  · simp [hd, hc, Waits]
  · simp [hd, Waits, Pending.add]

theorem runCoroutine (h : s.RunnableRing l) (hc : c ∈ s.coroHead :: l) :
    (s.runCoroutine c).RunnableRing l := by
  apply h.of_waits_iff
  intro d
  by_cases hd : d = c
  · simp [hd, (h.mem_iff c).mp hc]
  · simp [hd, Waits]

theorem unlink {a b : List (Fin (k + 1))} (h : s.RunnableRing (a ++ c :: b))
    (hcount : 0 < s.pending.counts c) : (s.unlink c).RunnableRing (a ++ b) := by
  refine ⟨h.ring.remove, fun d => ?_⟩
  have hn := h.ring.nodup
  rw [← List.cons_append, List.nodup_middle, List.nodup_cons] at hn
  change d ∈ s.coroHead :: (a ++ b) ↔ ¬ (Function.update s.isWaitPoll c true d = true ∧ _)
  by_cases hd : d = c
  · subst hd
    rw [Function.update_self, ← List.cons_append]
    exact iff_of_false hn.1 (not_not.mpr ⟨rfl, hcount⟩)
  · rw [Function.update_of_ne hd]
    apply Iff.trans _ (h.mem_iff d)
    simp [hd]

theorem nextCoro_mem {a b : List (Fin (k + 1))} (h : s.RunnableRing (a ++ c :: b)) :
    s.nextCoro c ∈ s.coroHead :: (a ++ b) := by
  obtain ⟨-, -, hfrom⟩ := path_append.mp h.ring.path
  rcases hfrom.next_mem List.mem_cons_self with hb | hhead
  · exact List.mem_cons_of_mem _ (List.mem_append_right a hb)
  · rw [hhead]
    exact List.mem_cons_self

theorem appendCoroutine (h : s.RunnableRing l) (hc : s.Waits c) (p : Pending k Q)
    (hp : p.counts = Function.update s.pending.counts c 0) :
    ({ s with pending := p }.appendCoroutine c).RunnableRing (l ++ [c]) := by
  have hring := h.ring.append (h.not_waits_iff.mpr hc)
  unfold CoroutineScheduler.appendCoroutine
  rw [if_pos hc.1]
  refine ⟨hring, fun d => ?_⟩
  change d ∈ s.coroHead :: (l ++ [c]) ↔ ¬ (s.isWaitPoll d = true ∧ 0 < p.counts d)
  rw [hp]
  by_cases hd : d = c
  · simp [hd]
  · rw [Function.update_of_ne hd]
    apply Iff.trans _ (h.mem_iff d)
    simp [hd]

theorem settle (h : s.RunnableRing l) (hc : 0 < s.pending.counts c) {p : Pending k Q}
    (hp : p.counts = Function.update s.pending.counts c (s.pending.counts c - 1)) :
    ∃ l', (s.settle c p).RunnableRing l' := by
  unfold CoroutineScheduler.settle
  have hpc : p.counts c = s.pending.counts c - 1 := by rw [hp, Function.update_self]
  by_cases hw : s.isWaitPoll c = true
  · split_ifs with h0
    · refine ⟨_, h.appendCoroutine ⟨hw, hc⟩ p ?_⟩
      rw [hp, ← hpc, h0]
    · refine ⟨l, h.of_waits_iff fun d => ?_⟩
      by_cases hd : d = c
      · subst hd
        have : 0 < p.counts d := by omega
        simp [Waits, hw, hc, this]
      · simp [Waits, hp, hd]
  · have hsame : { s with pending := p }.RunnableRing l := by
      apply h.of_waits_iff
      intro d
      by_cases hd : d = c
      · simp [Waits, hd, hw]
      · simp [Waits, hp, hd]
    refine ⟨l, ?_⟩
    split_ifs with h0
    · rw [CoroutineScheduler.appendCoroutine, if_neg hw]
      exact hsame
    · exact hsame

end RunnableRing

@[simp] theorem settle_isWaitPoll (p : Pending k Q) : (s.settle c p).isWaitPoll = s.isWaitPoll := by
  unfold CoroutineScheduler.settle CoroutineScheduler.appendCoroutine
  split_ifs <;> rfl

@[simp] theorem settle_coroHead (p : Pending k Q) : (s.settle c p).coroHead = s.coroHead := by
  unfold CoroutineScheduler.settle CoroutineScheduler.appendCoroutine
  split_ifs <;> rfl

@[simp] theorem settle_pending (p : Pending k Q) : (s.settle c p).pending = p := by
  unfold CoroutineScheduler.settle CoroutineScheduler.appendCoroutine
  split_ifs <;> rfl

@[simp] theorem settle_pendingLog (p : Pending k Q) : (s.settle c p).pendingLog = s.pendingLog := by
  unfold CoroutineScheduler.settle CoroutineScheduler.appendCoroutine
  split_ifs <;> rfl

/-- Following `next_coro` from the head visits each coroutine that does not wait once, no other one,
and ends at the tail, which is linked to the head, coroutine 0. -/
structure YieldableRing (s : CoroutineScheduler k Q) : Prop where
  visits : ∃ n, (List.iterate s.nextCoro s.coroHead n).Nodup ∧
    (List.iterate s.nextCoro s.coroHead n).getLast? = some s.coroTail ∧
    ∀ c, c ∈ List.iterate s.nextCoro s.coroHead n ↔
      ¬ (s.isWaitPoll c = true ∧ 0 < s.pending.counts c)
  closed : s.nextCoro s.coroTail = s.coroHead
  head : s.coroHead = 0

theorem RunnableRing.yieldable (h : s.RunnableRing l) (hhead : s.coroHead = 0) : s.YieldableRing := by
  refine ⟨⟨l.length + 1, ?_⟩, h.ring.next_tail, hhead⟩
  rw [h.ring.path.iterate]
  refine ⟨h.ring.nodup, ?_, h.mem_iff⟩
  rw [List.getLast?_eq_some_getLast (List.cons_ne_nil _ _), h.ring.last]

structure Ready (s : CoroutineScheduler k Q) (next : Fin (k + 1)) : Prop where
  ring : ∃ l, s.RunnableRing l ∧ next ∈ s.coroHead :: l
  head : s.coroHead = 0
  nonneg : ∀ c, 0 ≤ s.pending.counts c
  idle : s.pending.counts 0 = 0
  waiting : ∀ c, 0 < s.pending.counts c → s.isWaitPoll c = true

theorem Ready.count_eq_zero (h : s.Ready c) : s.pending.counts c = 0 := by
  obtain ⟨l, hl, hc⟩ := h.ring
  apply le_antisymm _ (h.nonneg c)
  rw [← not_lt]
  intro hpos
  exact (hl.mem_iff c).mp hc ⟨h.waiting c hpos, hpos⟩

end CoroutineScheduler

namespace Thread

structure Scheduled (t : Thread k Q) : Prop where
  ring : ∃ l, t.sched.RunnableRing l
  head : t.sched.coroHead = 0
  nonneg : ∀ c, 0 ≤ t.sched.pending.counts c
  idle : t.sched.pending.counts 0 = 0
  running : t.sched.isWaitPoll t.cur = false
  waiting : ∀ c, c ≠ t.cur → 0 < t.sched.pending.counts c → t.sched.isWaitPoll c = true
  polling : t.pc.polling = true ↔ t.cur = 0

variable {t t' : Thread k Q} {a : Action k Q} {e : Option (Event k Q)}

theorem start_scheduled : (start k Q).Scheduled := by
  refine ⟨⟨_, CoroutineScheduler.loopLinkCoroutine_ring⟩, rfl, fun _ => le_rfl, rfl, rfl, ?_,
    iff_of_true rfl rfl⟩
  intro c _ hc
  exact absurd hc (lt_irrefl 0)

namespace Scheduled

theorem cur_ne_zero (h : t.Scheduled) (hpc : t.pc.polling = false) : t.cur ≠ 0 := by
  intro h0
  rw [h.polling.mpr h0] at hpc
  cases hpc

theorem of_ready {sched : CoroutineScheduler k Q} {next : Fin (k + 1)} {pc : Pc Q} (h : sched.Ready next)
    (hr : Resumes next pc e) :
    Scheduled { t with sched := sched.runCoroutine next, cur := next, pc } := by
  obtain ⟨l, hl, hnext⟩ := h.ring
  refine ⟨⟨l, hl.runCoroutine hnext⟩, h.head, h.nonneg, h.idle, ?_, ?_, hr.polling⟩
  · simp [CoroutineScheduler.runCoroutine]
  · intro c hc hpos
    simp only [CoroutineScheduler.runCoroutine, Function.update_of_ne hc]
    exact h.waiting c hpos

theorem split_cur (h : t.Scheduled) (hpc : t.pc.polling = false) :
    ∃ pre post, t.sched.RunnableRing (pre ++ t.cur :: post) := by
  obtain ⟨l, hl⟩ := h.ring
  have hmem : t.cur ∈ t.sched.coroHead :: l := by
    rw [hl.mem_iff]
    rintro ⟨hw, -⟩
    rw [h.running] at hw
    cases hw
  rcases List.mem_cons.mp hmem with h0 | hcur
  · rw [h.head] at h0
    exact absurd h0 (h.cur_ne_zero hpc)
  · obtain ⟨pre, post, rfl⟩ := List.append_of_mem hcur
    exact ⟨pre, post, hl⟩

theorem posted (h : t.Scheduled) (hpc : t.pc = .user) (r : Request k Q) (q : Q) :
    Scheduled { t.enter r with sched := t.sched.addPendingQP t.cur q } := by
  obtain ⟨l, hl⟩ := h.ring
  have hother : ∀ c, c ≠ t.cur → (t.sched.addPendingQP t.cur q).pending.counts c = t.sched.pending.counts c :=
    fun c hc => Function.update_of_ne hc _ t.sched.pending.counts
  refine ⟨⟨l, hl.addPendingQP q h.running⟩, h.head, ?_, ?_, h.running, ?_, h.polling⟩
  · intro c
    by_cases hc : c = t.cur
    · subst hc
      have := h.nonneg t.cur
      simp only [CoroutineScheduler.addPendingQP, Pending.add, Function.update_self]
      omega
    · simp only [hother c hc]
      exact h.nonneg c
  · exact (hother 0 (h.cur_ne_zero (by rw [hpc]; rfl)).symm).trans h.idle
  · intro c hc hpos
    apply h.waiting c hc
    rw [← hother c hc]
    exact hpos

theorem ready_of_yield (h : t.Scheduled) (hpc : t.pc = .user)
    (hcount : t.sched.pending.counts t.cur ≠ 0) :
    (t.sched.unlink t.cur).Ready (t.sched.nextCoro t.cur) := by
  obtain ⟨pre, post, hl⟩ := h.split_cur (by rw [hpc]; rfl)
  have hpos : 0 < t.sched.pending.counts t.cur := lt_of_le_of_ne (h.nonneg t.cur) (Ne.symm hcount)
  refine ⟨⟨_, hl.unlink hpos, hl.nextCoro_mem⟩, h.head, h.nonneg, h.idle, ?_⟩
  intro c hc
  by_cases he : c = t.cur
  · simp [CoroutineScheduler.unlink, he]
  · simp only [CoroutineScheduler.unlink, Function.update_of_ne he]
    exact h.waiting c he hc

theorem ready_of_poll (h : t.Scheduled) (hpc : t.pc.polling = true) :
    t.sched.Ready (t.sched.nextCoro t.sched.coroHead) := by
  obtain ⟨l, hl⟩ := h.ring
  refine ⟨⟨l, hl, ?_⟩, h.head, h.nonneg, h.idle, ?_⟩
  · rcases hl.ring.path.next_mem List.mem_cons_self with hin | hhead
    · exact List.mem_cons_of_mem _ hin
    · rw [hhead]
      exact List.mem_cons_self
  · intro c hc
    apply h.waiting c _ hc
    rintro rfl
    rw [h.polling.mp hpc, h.idle] at hc
    exact lt_irrefl 0 hc

theorem counted (h : t.Scheduled) (hpc : t.pc.polling = true) {pc : Pc Q} (hpoll : pc.polling = true)
    {wc : Completion k Q} {rest : List (Completion k Q)} {p : Pending k Q} {it : ℕ}
    (hto : PollsTo t.sched.pending t.cq it (.counted wc rest p)) :
    Scheduled { t with
      cq := rest, pc, sched := t.sched.settle wc.req.wrId p, settled := wc.req :: t.settled } := by
  obtain ⟨-, -, h0, hpos, rfl⟩ := hto
  obtain ⟨l, hl⟩ := h.ring
  have hle : ∀ c, 0 ≤ Function.update t.sched.pending.counts wc.req.wrId
        (t.sched.pending.counts wc.req.wrId - 1) c ∧
      Function.update t.sched.pending.counts wc.req.wrId (t.sched.pending.counts wc.req.wrId - 1) c ≤
        t.sched.pending.counts c := by
    intro c
    by_cases hc : c = wc.req.wrId
    · subst hc
      rw [Function.update_self]
      omega
    · rw [Function.update_of_ne hc]
      exact ⟨h.nonneg c, le_rfl⟩
  refine ⟨hl.settle hpos rfl, ?_, ?_, ?_, ?_, ?_, ?_⟩
  · simpa using h.head
  · intro c
    rw [CoroutineScheduler.settle_pending]
    exact (hle c).1
  · rw [CoroutineScheduler.settle_pending]
    exact (Function.update_of_ne h0.symm _ _).trans h.idle
  · simpa using h.running
  · intro c hc hcount
    rw [CoroutineScheduler.settle_isWaitPoll]
    rw [CoroutineScheduler.settle_pending] at hcount
    exact h.waiting c hc (lt_of_lt_of_le hcount (hle c).2)
  · exact iff_of_true hpoll (h.polling.mp hpc)

theorem congr (h : t.Scheduled) (hsched : t'.sched = t.sched) (hcur : t'.cur = t.cur)
    (hpoll : t'.pc.polling = t.pc.polling) : t'.Scheduled := by
  constructor
  · rw [hsched]
    exact h.ring
  · rw [hsched]
    exact h.head
  · rw [hsched]
    exact h.nonneg
  · rw [hsched]
    exact h.idle
  · rw [hsched, hcur]
    exact h.running
  · rw [hsched, hcur]
    exact h.waiting
  · rw [hpoll, hcur]
    exact h.polling

theorem effect (h : t.Scheduled) (he : Effect t a t' e) : t'.Scheduled := by
  cases he with
  | completed _ => exact h.congr rfl rfl rfl
  | moved hpoll _ _ => exact h.congr rfl rfl hpoll
  | posted hpc => exact h.posted hpc _ _
  | logged hpc =>
    obtain ⟨l, hl⟩ := h.ring
    exact ⟨⟨l, hl.ring, hl.mem_iff⟩, h.head, h.nonneg, h.idle, h.running, h.waiting, h.polling⟩
  | called hpc => exact h.congr rfl rfl (by rw [hpc]; rfl)
  | yielded hpc hcount hwait hr => exact of_ready (h.ready_of_yield hpc hcount) hr
  | ran hpc hr => exact of_ready (h.ready_of_poll hpc) hr
  | dropped hpc hpoll _ _ => exact h.congr rfl rfl (by rw [hpc]; exact hpoll)
  | droppedLog hpc _ _ => exact h.congr rfl rfl (by rw [hpc]; rfl)
  | counted hpc hpoll hto => exact h.counted hpc hpoll hto
  | countedLog hpc hto =>
    obtain ⟨l, hl⟩ := h.ring
    exact ⟨⟨l, hl.ring, hl.mem_iff⟩, h.head, h.nonneg, h.idle, h.running, h.waiting, h.polling⟩
  | synced hpc _ _ _ _ => exact h.congr rfl rfl (by rw [hpc]; rfl)

theorem resumed (h : t.Scheduled) (he : Effect t a t' (some (.resumed c))) :
    t'.sched.pending.counts c = 0 := by
  cases he with
  | moved _ _ hrep =>
    obtain ⟨rfl, h0⟩ := hrep
    exact h0
  | yielded hpc hcount hwait hr =>
    obtain hn | hn := hr.event
    · cases hn
    · cases hn
      exact (h.ready_of_yield hpc hcount).count_eq_zero
  | ran hpc hr =>
    obtain hn | hn := hr.event
    · cases hn
    · cases hn
      exact (h.ready_of_poll hpc).count_eq_zero

end Scheduled

variable [DecidableEq Q] {ok : Thread k Q → Action k Q → Prop}

theorem Run.scheduled (hrun : Run ok (start k Q) t) : t.Scheduled :=
  hrun.inv start_scheduled fun h _ he => h.effect he

theorem run_yieldableRing (hrun : Run ok (start k Q) t) :
    t.sched.YieldableRing ∧ ∀ a, t.step a ≠ .error .waitPoll := by
  have h := hrun.scheduled
  constructor
  · obtain ⟨l, hl⟩ := h.ring
    exact hl.yieldable h.head
  · intro a ha
    have hw : t.sched.isWaitPoll t.cur = true := step_error ha
    rw [h.running] at hw
    cases hw

theorem run_yieldableRing_two_workers : ∃ t : Thread 2 Bool, Run (fun _ _ => True) (start 2 Bool) t ∧
    t.sched.coroTail = 1 ∧ t.sched.isWaitPoll 1 = true ∧ t.sched.pending.counts 2 = 1 ∧
    t.sched.YieldableRing ∧ ∀ a, t.step a ≠ .error .waitPoll := by
  obtain ⟨t, hrun, hP⟩ := replay_any (fun _ _ => True)
    [.poll, .post .read false true, .yield, .post .cas true true, .yield, .complete 0 .success, .poll]
    (start 2 Bool)
    (fun t => t.sched.coroTail = 1 ∧ t.sched.isWaitPoll 1 = true ∧ t.sched.pending.counts 2 = 1)
    (by decide)
  obtain ⟨htail, hwait, hcount⟩ := of_decide_eq_true hP
  exact ⟨t, hrun, htail, hwait, hcount, run_yieldableRing hrun⟩

end Thread

end MetadataService.Scheduler
