import Mathlib.Data.Fin.Basic
import Mathlib.Data.Int.Cast.Basic
import Mathlib.Data.List.Basic
import Mathlib.Logic.Function.Basic
import Mathlib.Logic.Relation

/-!
The coroutine scheduler of one thread: the ring of yield-able coroutines, the lists of queue pairs
with requests under way and their counts, and the runs of a thread with its queue pairs. Coroutine 0
polls; the others call the scheduler while they run. A failed assertion stops the thread; a build with
`NDEBUG` has no assertions and behaves alike as long as none would fail.
-/

namespace MetadataService.Scheduler

structure WorkRequest (k : ℕ) where
  signaled : Bool
  wrId : Fin (k + 1)

inductive Batch
  | lockRead
  | writeUnlock
  | invisibleWrite
  | writeFlush
  | invisibleWriteFlush
  | comparatorUpdateRemote

namespace Batch

/-- The linked requests as the constructor of the batch leaves them, with whatever their `wr_id` holds. -/
def sr {k : ℕ} (unset : ℕ → Fin (k + 1)) : Batch → List (WorkRequest k)
  | lockRead | writeUnlock | invisibleWrite | writeFlush => [⟨false, unset 0⟩, ⟨true, unset 1⟩]
  | invisibleWriteFlush | comparatorUpdateRemote => [⟨false, unset 0⟩, ⟨false, unset 1⟩, ⟨true, unset 2⟩]

def doorbellNum : Batch → ℕ
  | lockRead | writeUnlock | invisibleWrite | writeFlush => 1
  | invisibleWriteFlush | comparatorUpdateRemote => 2

def stamp {k : ℕ} (unset : ℕ → Fin (k + 1)) (c : Fin (k + 1)) (b : Batch) : List (WorkRequest k) :=
  (b.sr unset).modify b.doorbellNum fun w => { w with wrId := c }

end Batch

inductive Call (k : ℕ)
  | read
  | write
  | writeMr
  | cas
  | send
  | rpc
  | batch (b : Batch) (unset : ℕ → Fin (k + 1))

inductive SyncCall (k : ℕ)
  | read
  | batch (b : Batch) (unset : ℕ → Fin (k + 1))

def Call.workRequests {k : ℕ} (c : Fin (k + 1)) : Call k → List (WorkRequest k)
  | read | write | writeMr | cas | send | rpc => [⟨true, c⟩]
  | batch b unset => b.stamp unset c

def SyncCall.workRequests {k : ℕ} (c : Fin (k + 1)) : SyncCall k → List (WorkRequest k)
  | read => [⟨true, c⟩]
  | batch b unset => b.stamp unset c

inductive Kind
  | data
  | log
  | sync
deriving DecidableEq

structure Request (k : ℕ) (Q : Type) where
  id : ℕ
  coro : Fin (k + 1)
  wrId : Fin (k + 1)
  qp : Q
  kind : Kind
deriving DecidableEq

inductive Status
  | success
  | retryExcErr
  | other
deriving DecidableEq

structure Completion (k : ℕ) (Q : Type) where
  req : Request k Q
  status : Status
deriving DecidableEq

inductive Stop
  | disabled
  | pendingCount
  | pendingLogCount
  | waitPoll
  | abort
deriving DecidableEq

variable {k : ℕ} {Q : Type} [DecidableEq Q]

/-- `ibv_poll_cq` on the completion queue of one queue pair; the completions of all queue pairs are
kept in one list. -/
def pollSendCompletion (cq : List (Completion k Q)) (q : Q) :
    Option (Completion k Q × List (Completion k Q)) :=
  (cq.find? fun w => w.req.qp = q).map fun w => (w, cq.eraseP fun w => w.req.qp = q)

structure Pending (k : ℕ) (Q : Type) where
  qps : List Q
  counts : Fin (k + 1) → ℤ

inductive Polled (k : ℕ) (Q : Type)
  | finished
  | noCompletion
  | retry (wc : Completion k Q) (cq : List (Completion k Q))
  | unowned (wc : Completion k Q) (cq : List (Completion k Q))
  | counted (wc : Completion k Q) (cq : List (Completion k Q)) (p : Pending k Q)

namespace Pending

def add (p : Pending k Q) (c : Fin (k + 1)) (q : Q) : Pending k Q :=
  ⟨p.qps ++ [q], Function.update p.counts c (p.counts c + 1)⟩

def pollEntry (p : Pending k Q) (assertion : Stop) (cq : List (Completion k Q)) (it : ℕ) :
    Except Stop (Polled k Q) :=
  match p.qps[it]? with
  | none => .ok .finished
  | some qp =>
    match pollSendCompletion cq qp with
    | none => .ok .noCompletion
    | some (wc, cq) =>
      if wc.status ≠ .success then
        if wc.status ≠ .retryExcErr then .error .abort else .ok (.retry wc cq)
      else
        let coroId := wc.req.wrId
        if coroId = 0 then .ok (.unowned wc cq)
        else if 0 < p.counts coroId then
          .ok (.counted wc cq
            ⟨p.qps.eraseIdx it, Function.update p.counts coroId (p.counts coroId - 1)⟩)
        else .error assertion

end Pending

structure CoroutineScheduler (k : ℕ) (Q : Type) where
  isWaitPoll : Fin (k + 1) → Bool
  prevCoro : Fin (k + 1) → Fin (k + 1)
  nextCoro : Fin (k + 1) → Fin (k + 1)
  coroHead : Fin (k + 1)
  coroTail : Fin (k + 1)
  pending : Pending k Q
  pendingLog : Pending k Q

namespace CoroutineScheduler

def loopLinkCoroutine (k : ℕ) (Q : Type) : CoroutineScheduler k Q where
  isWaitPoll _ := false
  prevCoro := Function.update (fun i => i - 1) 0 (Fin.last k)
  nextCoro := Function.update (fun i => i + 1) (Fin.last k) 0
  coroHead := 0
  coroTail := Fin.last k
  pending := ⟨[], fun _ => 0⟩
  pendingLog := ⟨[], fun _ => 0⟩

def addPendingQP (s : CoroutineScheduler k Q) (c : Fin (k + 1)) (q : Q) : CoroutineScheduler k Q :=
  { s with pending := s.pending.add c q }

def addPendingLogQP (s : CoroutineScheduler k Q) (c : Fin (k + 1)) (q : Q) : CoroutineScheduler k Q :=
  { s with pendingLog := s.pendingLog.add c q }

def unlink (s : CoroutineScheduler k Q) (c : Fin (k + 1)) : CoroutineScheduler k Q :=
  { s with
    nextCoro := Function.update s.nextCoro (s.prevCoro c) (s.nextCoro c)
    prevCoro := Function.update s.prevCoro (s.nextCoro c) (s.prevCoro c)
    coroTail := if s.coroTail = c then s.prevCoro c else s.coroTail
    isWaitPoll := Function.update s.isWaitPoll c true }

def runCoroutine (s : CoroutineScheduler k Q) (c : Fin (k + 1)) : CoroutineScheduler k Q :=
  { s with isWaitPoll := Function.update s.isWaitPoll c false }

def appendCoroutine (s : CoroutineScheduler k Q) (c : Fin (k + 1)) : CoroutineScheduler k Q :=
  if s.isWaitPoll c then
    { s with
      nextCoro := Function.update (Function.update s.nextCoro s.coroTail c) c s.coroHead
      prevCoro := Function.update s.prevCoro c s.coroTail
      coroTail := c }
  else s

def settle (s : CoroutineScheduler k Q) (c : Fin (k + 1)) (p : Pending k Q) : CoroutineScheduler k Q :=
  if p.counts c = 0 then { s with pending := p }.appendCoroutine c else { s with pending := p }

end CoroutineScheduler

inductive Pc (Q : Type)
  | user
  | poll (it : ℕ)
  | pollLog (it : ℕ)
  | sync (q : Q) (id : ℕ)

/-- One thread. The last three lists record all signaled requests, those whose successful completion
was taken off a completion queue on their own account, and the other completions taken off. -/
structure Thread (k : ℕ) (Q : Type) where
  sched : CoroutineScheduler k Q
  cur : Fin (k + 1)
  pc : Pc Q
  inflight : List (Request k Q)
  cq : List (Completion k Q)
  posted : List (Request k Q)
  settled : List (Request k Q)
  lost : List (Completion k Q)

/-- What happens next: a queue pair completes a request that is under way, or the running coroutine
makes a call or goes once round the loop it is in. A call that posts says whether posting succeeds. -/
inductive Action (k : ℕ) (Q : Type)
  | complete (i : ℕ) (status : Status)
  | post (call : Call k) (q : Q) (succ : Bool)
  | readInv (q : Q) (succ : Bool)
  | log (q : Q) (succ : Bool)
  | sync (call : SyncCall k) (q : Q) (succ : Bool)
  | yield
  | checkLogAck
  | poll
  | pollLog
  | syncPoll

inductive Event (k : ℕ) (Q : Type)
  | resumed (c : Fin (k + 1))
  | logAck (c : Fin (k + 1)) (b : Bool)
  | synced (c : Fin (k + 1)) (id : ℕ) (wc : Completion k Q)

namespace Thread

def start (k : ℕ) (Q : Type) : Thread k Q :=
  ⟨.loopLinkCoroutine k Q, 0, .poll 0, [], [], [], [], []⟩

def submit (t : Thread k Q) (kind : Kind) (q : Q) (wrs : List (WorkRequest k)) : Thread k Q :=
  let rs := ((wrs.filter (·.signaled)).zipIdx t.posted.length).map
    fun (w, id) => (⟨id, t.cur, w.wrId, q, kind⟩ : Request k Q)
  { t with inflight := t.inflight ++ rs, posted := t.posted ++ rs }

def runCoroutine (t : Thread k Q) (next : Fin (k + 1)) : Thread k Q × Option (Event k Q) :=
  let t := { t with sched := t.sched.runCoroutine next, cur := next }
  if next = 0 then ({ t with pc := .poll 0 }, none) else ({ t with pc := .user }, some (.resumed next))

def complete (t : Thread k Q) (i : ℕ) (status : Status) : Except Stop (Thread k Q) :=
  match t.inflight[i]? with
  | none => .error .disabled
  | some r => .ok { t with inflight := t.inflight.eraseIdx i, cq := t.cq ++ [⟨r, status⟩] }

def post (t : Thread k Q) (call : Call k) (q : Q) : Thread k Q :=
  let t := t.submit .data q (call.workRequests t.cur)
  { t with sched := t.sched.addPendingQP t.cur q }

def rdmaLog (t : Thread k Q) (q : Q) : Thread k Q :=
  let t := t.submit .log q [⟨true, t.cur⟩]
  { t with sched := t.sched.addPendingLogQP t.cur q }

def sync (t : Thread k Q) (call : SyncCall k) (q : Q) : Thread k Q :=
  { t.submit .sync q (call.workRequests t.cur) with pc := .sync q t.posted.length }

def yield (t : Thread k Q) : Except Stop (Thread k Q × Option (Event k Q)) :=
  if t.sched.pending.counts t.cur = 0 then .ok (t, some (.resumed t.cur))
  else if t.sched.isWaitPoll t.cur then .error .waitPoll
  else .ok ({ t with sched := t.sched.unlink t.cur }.runCoroutine (t.sched.nextCoro t.cur))

def checkLogAck (t : Thread k Q) : Thread k Q × Option (Event k Q) :=
  if t.sched.pendingLog.counts t.cur = 0 then (t, some (.logAck t.cur true))
  else ({ t with pc := .pollLog 0 }, none)

def pollRegularCompletion (t : Thread k Q) (it : ℕ) : Except Stop (Thread k Q × Option (Event k Q)) := do
  match ← t.sched.pending.pollEntry .pendingCount t.cq it with
  | .finished =>
    let next := t.sched.nextCoro t.sched.coroHead
    return if next = 0 then ({ t with pc := .poll 0 }, none) else t.runCoroutine next
  | .noCompletion => return ({ t with pc := .poll (it + 1) }, none)
  | .retry wc cq => return ({ t with cq, pc := .poll (it + 1), lost := wc :: t.lost }, none)
  | .unowned wc cq => return ({ t with cq, pc := .poll it, lost := wc :: t.lost }, none)
  | .counted wc cq p =>
    return ({ t with
      cq, pc := .poll it, sched := t.sched.settle wc.req.wrId p, settled := wc.req :: t.settled }, none)

def pollLogCompletion (t : Thread k Q) (it : ℕ) : Except Stop (Thread k Q × Option (Event k Q)) := do
  match ← t.sched.pendingLog.pollEntry .pendingLogCount t.cq it with
  | .finished =>
    return ({ t with pc := .user }, some (.logAck t.cur (t.sched.pendingLog.counts t.cur = 0)))
  | .noCompletion => return ({ t with pc := .pollLog (it + 1) }, none)
  | .retry wc cq => return ({ t with cq, pc := .pollLog (it + 1), lost := wc :: t.lost }, none)
  | .unowned wc cq => return ({ t with cq, pc := .pollLog it, lost := wc :: t.lost }, none)
  | .counted wc cq p =>
    return ({ t with
      cq, pc := .pollLog it, sched := { t.sched with pendingLog := p }
      settled := wc.req :: t.settled }, none)

def pollTillCompletion (t : Thread k Q) (q : Q) (id : ℕ) : Thread k Q × Option (Event k Q) :=
  match pollSendCompletion t.cq q with
  | none => (t, none)
  | some (wc, cq) =>
    let t := { t with cq, pc := .user }
    (if wc.req.id = id ∧ wc.status = .success then { t with settled := wc.req :: t.settled }
      else { t with lost := wc :: t.lost },
      some (.synced t.cur id wc))

def step (t : Thread k Q) (a : Action k Q) : Except Stop (Thread k Q × Option (Event k Q)) :=
  match a, t.pc with
  | .complete i status, _ => return (← t.complete i status, none)
  | .post call q succ, .user => .ok (if succ then t.post call q else t, none)
  | .readInv q succ, .user => .ok (if succ then t.submit .data q [⟨false, 0⟩] else t, none)
  | .log q succ, .user => if succ then .ok (t.rdmaLog q, none) else .error .abort
  | .sync call q succ, .user => .ok (if succ then t.sync call q else t, none)
  | .yield, .user => t.yield
  | .checkLogAck, .user => .ok t.checkLogAck
  | .poll, .poll it => t.pollRegularCompletion it
  | .pollLog, .pollLog it => t.pollLogCompletion it
  | .syncPoll, .sync q id => .ok (t.pollTillCompletion q id)
  | _, _ => .error .disabled

def Run (ok : Thread k Q → Action k Q → Prop) : Thread k Q → Thread k Q → Prop :=
  Relation.ReflTransGen fun t t' => ∃ a e, ok t a ∧ t.step a = .ok (t', e)

def replay (ok : Thread k Q → Action k Q → Prop) [∀ t a, Decidable (ok t a)] :
    List (Action k Q) → Thread k Q → Option (Thread k Q)
  | [], t => some t
  | a :: as, t =>
    match t.step a with
    | .ok (t', _) => if ok t a then replay ok as t' else none
    | .error _ => none

theorem replay_run {ok : Thread k Q → Action k Q → Prop} [∀ t a, Decidable (ok t a)]
    {as : List (Action k Q)} {t t' : Thread k Q} (h : replay ok as t = some t') : Run ok t t' := by
  induction as generalizing t with
  | nil =>
    cases h
    exact .refl
  | cons a as ih =>
    unfold replay at h
    split at h
    · rename_i t₁ e he
      split_ifs at h with hok
      exact .head ⟨a, e, hok, he⟩ (ih h)
    · cases h

theorem replay_any (ok : Thread k Q → Action k Q → Prop) [∀ t a, Decidable (ok t a)]
    (as : List (Action k Q)) (t : Thread k Q) (P : Thread k Q → Bool)
    (h : (replay ok as t).any P = true) : ∃ t', Run ok t t' ∧ P t' = true := by
  cases he : replay ok as t with
  | none => rw [he] at h; cases h
  | some t' =>
    rw [he] at h
    exact ⟨t', replay_run he, h⟩

def unconsumed (t : Thread k Q) : List (Request k Q) := t.inflight ++ t.cq.map (·.req)

end Thread

def Taken (cq : List (Completion k Q)) (wc : Completion k Q) (rest : List (Completion k Q)) : Prop :=
  ∃ pre post, cq = pre ++ wc :: post ∧ rest = pre ++ post ∧ ∀ w ∈ pre, w.req.qp ≠ wc.req.qp

structure Takes (p : Pending k Q) (cq : List (Completion k Q)) (it : ℕ) (wc : Completion k Q)
    (rest : List (Completion k Q)) : Prop where
  entry : p.qps[it]? = some wc.req.qp
  taken : Taken cq wc rest

def PollsTo (p : Pending k Q) (cq : List (Completion k Q)) (it : ℕ) : Polled k Q → Prop
  | .finished | .noCompletion => True
  | .retry wc rest => Takes p cq it wc rest ∧ wc.status = .retryExcErr
  | .unowned wc rest => Takes p cq it wc rest ∧ wc.req.wrId = 0
  | .counted wc rest p' => Takes p cq it wc rest ∧ wc.status = .success ∧ wc.req.wrId ≠ 0 ∧
      0 < p.counts wc.req.wrId ∧ p' = ⟨p.qps.eraseIdx it,
        Function.update p.counts wc.req.wrId (p.counts wc.req.wrId - 1)⟩

end MetadataService.Scheduler
