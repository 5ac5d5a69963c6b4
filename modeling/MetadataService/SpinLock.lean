import MetadataService.Interleaving

namespace MetadataService

open Threads

structure SpinLock where
  counter : Int32
  deriving DecidableEq

namespace SpinLock

def new : SpinLock := ⟨0⟩

def compareExchangeStrong (l : SpinLock) (expected desired : Int32) : Bool × Int32 × SpinLock :=
  if l.counter = expected then (true, expected, ⟨desired⟩) else (false, l.counter, l)

inductive Phase
  | outside
  | locking (locked : Int32)
  | critical
  deriving DecidableEq

/-- One evaluation of the loop condition of `Lock`; `unlocked` is 0 throughout. -/
def lockSpin (l : SpinLock) (locked : Int32) : SpinLock × Phase :=
  match l.compareExchangeStrong locked 0 with
  | (true, locked, l) => (l, .locking locked)
  | (false, _, l) => (l, .critical)

def unlock (_ : SpinLock) : SpinLock := ⟨0⟩

inductive Thread : SpinLock × Phase → SpinLock × Phase → Prop
  | lock (l : SpinLock) : Thread (l, .outside) (l, .locking 1)
  | spin (l : SpinLock) (locked : Int32) : Thread (l, .locking locked) (l.lockSpin locked)
  | unlock (l : SpinLock) : Thread (l, .critical) (l.unlock, .outside)

theorem lockSpin_counter {l : SpinLock} (h : l.counter = 0) (locked : Int32) :
    (l.lockSpin locked).1.counter = 0 := by
  rw [lockSpin, compareExchangeStrong]
  by_cases hc : l.counter = locked
  · rw [if_pos hc]
  · rw [if_neg hc]
    exact h

theorem lockSpin_of_zero {l : SpinLock} (h : l.counter = 0) : l.lockSpin 1 = (l, .critical) := by
  have hne : l.counter ≠ 1 := by rw [h]; decide
  simp [lockSpin, compareExchangeStrong, hne]

theorem Thread.counter_zero {l l' : SpinLock} {p p' : Phase} (h : l.counter = 0)
    (ht : Thread (l, p) (l', p')) : l'.counter = 0 := by
  generalize hs : (l', p') = s at ht
  cases ht with
  | lock => exact (congrArg (·.1.counter) hs).trans h
  | spin locked => exact (congrArg (·.1.counter) hs).trans (lockSpin_counter h _)
  | unlock => exact congrArg (·.1.counter) hs

variable {T : Type*} [DecidableEq T]

def Run (c : Threads T SpinLock Phase) : Prop := Reachable Thread (start new .outside) c

theorem Run.counter_zero {c : Threads T SpinLock Phase} (h : Run c) : c.shared.counter = 0 := by
  apply Reachable.shared_inv (I := fun l => l.counter = 0) h rfl
  intro l p l' p' hl ht
  exact ht.counter_zero hl

theorem Run.enter {c : Threads T SpinLock Phase} (h : Run c) {t : T} (ht : c.point t = .outside) :
    ∃ d : Threads T SpinLock Phase, Run d ∧ d.point t = .critical ∧ ∀ u ≠ t, d.point u = c.point u := by
  have hlock : Run (c.set t c.shared (.locking 1)) := Reachable.step h ht (.lock _)
  have hspin := Thread.spin c.shared 1
  rw [lockSpin_of_zero h.counter_zero] at hspin
  refine ⟨_, Reachable.step hlock (set_point_self ..) hspin, set_point_self .., ?_⟩
  intro u hu
  rw [set_point_ne _ hu, set_point_ne _ hu]

def Excludes (T : Type*) [DecidableEq T] : Prop :=
  ∀ c : Threads T SpinLock Phase, Run c → ∀ t u, c.point t = .critical → c.point u = .critical → t = u

theorem Run.two {t u : T} (hne : u ≠ t) :
    ∃ c : Threads T SpinLock Phase, Run c ∧ c.point t = .critical ∧ c.point u = .critical := by
  have h0 : Run (start new .outside : Threads T SpinLock Phase) := Relation.ReflTransGen.refl
  obtain ⟨c, hc, hct, hother⟩ := h0.enter (t := t) rfl
  obtain ⟨d, hd, hdu, hkeep⟩ := hc.enter (t := u) (hother u hne)
  exact ⟨d, hd, (hkeep t hne.symm).trans hct, hdu⟩

theorem excludes_iff : Excludes T ↔ Subsingleton T := by
  constructor
  · intro h
    constructor
    intro t u
    by_contra hne
    obtain ⟨c, hc, ht, hu⟩ := Run.two (Ne.symm hne)
    exact hne (h c hc t u ht hu)
  · intro _ c _ t u _ _
    exact Subsingleton.elim t u

end SpinLock

structure SeqLock where
  spinLock : SpinLock
  deriving DecidableEq

namespace SeqLock

def new : SeqLock := ⟨.new⟩

def isWriting (l : SeqLock) : Bool := l.spinLock.counter % 2 == 1

inductive Phase
  | writer (p : SpinLock.Phase)
  | beginRead
  | reading
  deriving DecidableEq

def readSpin (l : SeqLock) : Phase := if l.isWriting then .beginRead else .reading

/-- A thread that writes between `BeginWrite` and `EndWrite` and reads between `BeginRead` and
`EndRead`, in any order of the two. -/
inductive Thread : SeqLock × Phase → SeqLock × Phase → Prop
  | write {l l' : SpinLock} {p p' : SpinLock.Phase} (h : SpinLock.Thread (l, p) (l', p')) :
    Thread (⟨l⟩, .writer p) (⟨l'⟩, .writer p')
  | beginRead (l : SeqLock) : Thread (l, .writer .outside) (l, .beginRead)
  | spin (l : SeqLock) : Thread (l, .beginRead) (l, l.readSpin)
  | endRead (l : SeqLock) : Thread (l, .reading) (l, .writer .outside)

theorem Thread.counter_zero {l l' : SeqLock} {p p' : Phase} (h : l.spinLock.counter = 0)
    (ht : Thread (l, p) (l', p')) : l'.spinLock.counter = 0 := by
  generalize hs : (l', p') = s at ht
  cases ht with
  | write hw =>
    obtain ⟨rfl, rfl⟩ := Prod.mk.inj hs
    exact SpinLock.Thread.counter_zero h hw
  | beginRead | spin | endRead => exact (congrArg (·.1.spinLock.counter) hs).trans h

theorem readSpin_of_zero {l : SeqLock} (h : l.spinLock.counter = 0) : l.readSpin = .reading := by
  have hw : l.isWriting = false := by rw [isWriting, h]; decide
  simp [readSpin, hw]

variable {T : Type*} [DecidableEq T]

def Run (c : Threads T SeqLock Phase) : Prop := Reachable Thread (start new (.writer .outside)) c

theorem Run.counter_zero {c : Threads T SeqLock Phase} (h : Run c) : c.shared.spinLock.counter = 0 := by
  apply Reachable.shared_inv (I := fun l => l.spinLock.counter = 0) h rfl
  intro l p l' p' hl ht
  exact ht.counter_zero hl

theorem Run.of_writers {c : Threads T SpinLock SpinLock.Phase} (h : SpinLock.Run c) :
    Run (c.map SeqLock.mk .writer) :=
  Reachable.map h fun _ _ _ _ ht => .write ht

theorem Run.begins {c : Threads T SeqLock Phase} (h : Run c) {t : T}
    (ht : c.point t = .writer .outside) :
    ∃ d e : Threads T SeqLock Phase, Run d ∧ d.point t = .beginRead ∧ Moves Thread t d e ∧
      e.point t = .reading ∧ ∀ u ≠ t, d.point u = c.point u := by
  have hd : Run (c.set t c.shared .beginRead) := Reachable.step h ht (.beginRead _)
  have hspin := Thread.spin c.shared
  rw [readSpin_of_zero h.counter_zero] at hspin
  have hm : Moves Thread t (c.set t c.shared .beginRead)
      ((c.set t c.shared .beginRead).set t c.shared .reading) := by
    refine ⟨c.shared, .reading, ?_, rfl⟩
    rw [set_point_self]
    exact hspin
  exact ⟨_, _, hd, set_point_self .., hm, set_point_self .., fun u hu => set_point_ne _ hu ..⟩

def Excludes (T : Type*) [DecidableEq T] : Prop :=
  ∀ c d : Threads T SeqLock Phase, Run c → ∀ t, Moves Thread t c d → c.point t = .beginRead →
    d.point t = .reading → ∀ u, c.point u ≠ .writer .critical

theorem Run.reads_while_writing {t u : T} (hne : u ≠ t) :
    ∃ c d : Threads T SeqLock Phase, Run c ∧ Moves Thread t c d ∧ c.point t = .beginRead ∧
      d.point t = .reading ∧ c.point u = .writer .critical := by
  have h0 : SpinLock.Run (start .new .outside : Threads T SpinLock SpinLock.Phase) :=
    Relation.ReflTransGen.refl
  obtain ⟨c, hc, hcu, hother⟩ := h0.enter (t := u) rfl
  obtain ⟨d, e, hd, hdt, hm, het, hkeep⟩ :=
    (Run.of_writers hc).begins (congrArg Phase.writer (hother t hne.symm))
  exact ⟨d, e, hd, hm, hdt, het, (hkeep u hne).trans (congrArg Phase.writer hcu)⟩

theorem excludes_iff : Excludes T ↔ Subsingleton T := by
  constructor
  · intro h
    constructor
    intro t u
    by_contra hne
    obtain ⟨c, d, hc, hm, hct, hdt, hcu⟩ := Run.reads_while_writing (Ne.symm hne)
    exact h c d hc t hm hct hdt u hcu
  · intro _ c d _ t _ hct _ u
    rw [Subsingleton.elim u t, hct]
    exact Phase.noConfusion

end SeqLock

theorem locks_exclude_iff (T : Type*) [DecidableEq T] :
    (SpinLock.Excludes T ↔ Subsingleton T) ∧ (SeqLock.Excludes T ↔ Subsingleton T) :=
  ⟨SpinLock.excludes_iff, SeqLock.excludes_iff⟩

theorem locks_admit_two :
    (∃ c : Threads Bool SpinLock SpinLock.Phase,
      SpinLock.Run c ∧ c.point true = .critical ∧ c.point false = .critical) ∧
    ∃ c d : Threads Bool SeqLock SeqLock.Phase, SeqLock.Run c ∧ Moves SeqLock.Thread true c d ∧
      c.point true = .beginRead ∧ d.point true = .reading ∧ c.point false = .writer .critical :=
  ⟨SpinLock.Run.two (by decide), SeqLock.Run.reads_while_writing (by decide)⟩

end MetadataService
