import MetadataService.Linearization
import MetadataService.SplitMemory

namespace MetadataService.CT.Shared

open MarkedList Threads

variable {A K V : Type} [LinearOrder K]

def success : Answer V → Bool
  | .inserted isNew => isNew
  | .deleted wasThere => wasThere
  | .found _ => false

inductive Phase
  | searching
  | decided
  | committed
  deriving DecidableEq

def Point.phase : Point A V → Phase
  | .countUp => .committed
  | .compareLoad _ => .committed
  | .grow _ => .committed
  | .checkBucketSize => .committed
  | .unlink _ _ _ _ => .committed
  | .countDown => .committed
  | .search (.cleanup _) _ => .committed
  | .search (.item _) (.revalidate _ _ _) => .decided
  | .exchange _ => .decided
  | .loadValue _ => .decided
  | .reloadValue _ _ => .decided
  | .copyValue _ => .decided
  | .finished answer => if success answer then .committed else .decided
  | _ => .searching

def Point.committed (p : Point A V) : Bool := p.phase = .committed

def Point.marked : Point A V → Option A
  | .unlink _ _ cur _ => some cur
  | _ => none

def Point.commit (p q : Point A V) : Commit A :=
  if p.committed || !q.committed then .none
  else
    match q.marked with
    | some a => .mark a
    | none => .link

/-- By how much the items that the call linked and did not unlink exceed what it added to `size_`. -/
def Point.owed : Point A V → ℤ
  | .countUp => 1
  | .countDown => -1
  | .search _ (.countDown _ _) => -1
  | _ => 0

structure Point.Plain (p : Point A V) : Prop where
  phase : p.phase = .searching
  owed : p.owed = 0

structure Point.Alike (p q : Point A V) : Prop where
  committed : p.committed = q.committed
  owed : p.owed = q.owed

theorem committed_of_searching {p : Point A V} (h : p.phase = .searching) : p.committed = false := by
  simp [Point.committed, h]

theorem Point.commit_none {p q : Point A V} (h : p.committed = true ∨ q.committed = false) : p.commit q = .none := by
  rw [commit, if_pos]
  rcases h with h | h <;> simp [h]

theorem Point.commit_same {p q : Point A V} (h : q.committed = p.committed) : p.commit q = .none := by
  apply commit_none
  rw [h]
  cases p.committed <;> simp

theorem Point.Plain.alike {p q : Point A V} (hp : p.Plain) (hc : q.committed = false) (ho : q.owed = 0) : p.Alike q :=
  ⟨(committed_of_searching hp.phase).trans hc.symm, hp.owed.trans ho.symm⟩

section Assertions

variable (hash : K → UInt64)

-- The buckets that wait for bucket `i`: each is the parent of the next, and the last is that of the call.
def Awaits (op : Op K V) : UInt64 → List UInt64 → Prop
  | i, [] => i.toNat < 2 ^ 24 ∧ dummyKey i < regularKey (hash (opKey op))
  | i, j :: waiting => i = getBucketParent j ∧ j ≠ 0 ∧ Awaits op j waiting

def TaskOk (s : Shared A K V) (op : Op K V) : Task A → Prop
  | .dummy i waiting parentHead => s.IsHead parentHead (getBucketParent i) ∧ i ≠ 0 ∧ Awaits hash op i waiting
  | .item head => ∃ i, s.IsHead head i ∧ dummyKey i < regularKey (hash (opKey op))
  | .cleanup head => (∃ i, s.IsHead head i ∧ dummyKey i < regularKey (hash (opKey op))) ∧ ∃ k, op = .delete k

def SearchOk (s : Shared A K V) (κ : ℕ ×ₗ WithBot K) : SearchPoint A → Prop
  | .tryAgain => True
  | .validate prev cur => s.Below prev κ ∧ cur.marked = false
  | .readNext prev cur => s.Below prev κ ∧ s.Stored cur
  | .unlink prev cur next => s.Below prev κ ∧ s.Frozen cur next
  | .countDown prev _ => s.Below prev κ
  | .revalidate prev cur _ => s.Below prev κ ∧ s.Stored cur

def Links (op : Op K V) : Task A → Prop
  | .dummy _ _ _ => True
  | .item _ => ∃ k v, op = .insert k v
  | .cleanup _ => False

def Fits : Op K V → Answer V → Prop
  | .insert _ _, .inserted _ => True
  | .delete _, .deleted _ => True
  | .find _, .found _ => True
  | _, _ => False

def Local (s : Shared A K V) (op : Op K V) : Point A V → Prop
  | .loadPower => True
  | .lookup i waiting _ => Awaits hash op i waiting
  | .segment i waiting parentHead _ => s.TaskOk hash op (.dummy i waiting parentHead)
  | .allocate i waiting parentHead _ => s.TaskOk hash op (.dummy i waiting parentHead)
  | .search task p => s.TaskOk hash op task ∧ s.SearchOk (searchNode hash op task).key p
  | .link task prev cur =>
    s.TaskOk hash op task ∧ Links op task ∧ s.Below prev (searchNode hash op task).key ∧
      s.Above cur (searchNode hash op task).key
  | .storeBucket i waiting head => s.IsHead head i ∧ Awaits hash op i waiting
  | .countUp => ∃ k v, op = .insert k v
  | .compareLoad _ => ∃ k v, op = .insert k v
  | .grow _ => ∃ k v, op = .insert k v
  | .checkBucketSize => ∃ k v, op = .insert k v
  | .exchange cur => (∃ k v, op = .insert k v) ∧ s.HasKey cur (orderKey hash (opKey op))
  | .readNext head prev cur =>
    (∃ k, op = .delete k) ∧ s.TaskOk hash op (.item head) ∧ s.Below prev (orderKey hash (opKey op)) ∧
      s.HasKey cur (orderKey hash (opKey op))
  | .mark head prev cur _ =>
    (∃ k, op = .delete k) ∧ s.TaskOk hash op (.item head) ∧ s.Below prev (orderKey hash (opKey op)) ∧
      s.HasKey cur (orderKey hash (opKey op))
  | .unlink head prev cur next =>
    s.TaskOk hash op (.cleanup head) ∧ s.Below prev (orderKey hash (opKey op)) ∧ s.Frozen cur next ∧
      s.HasKey cur (orderKey hash (opKey op))
  | .countDown => ∃ k, op = .delete k
  | .loadValue cur => (∃ k, op = .find k) ∧ s.HasKey cur (orderKey hash (opKey op))
  | .reloadValue cur value => (∃ k, op = .find k) ∧ s.HasKey cur (orderKey hash (opKey op)) ∧ value ≠ none
  | .copyValue value => (∃ k, op = .find k) ∧ value ≠ none
  | .finished answer => Fits op answer
  | .fault => False

end Assertions

variable {hash : K → UInt64} {op : Op K V} {s s' : Shared A K V} {task : Task A}
  {prev cur : A} {i : UInt64} {waiting : List UInt64} {κ : ℕ ×ₗ WithBot K}

section Stability

variable {R : List A}

omit [LinearOrder K] in
theorem TaskOk.mono (h : s.TaskOk hash op task) (g : Spares R s s') : s'.TaskOk hash op task := by
  cases task with
  | dummy i waiting parentHead => exact ⟨h.1.mono g, h.2⟩
  | item head =>
    obtain ⟨i, hi, hlt⟩ := h
    exact ⟨i, hi.mono g, hlt⟩
  | cleanup head =>
    obtain ⟨⟨i, hi, hlt⟩, hop⟩ := h
    exact ⟨⟨i, hi.mono g, hlt⟩, hop⟩

theorem SearchOk.mono {p : SearchPoint A} (h : s.SearchOk κ p) (g : Spares p.hazards s s') : s'.SearchOk κ p := by
  cases p with
  | tryAgain => trivial
  | validate prev cur => exact ⟨h.1.mono (by simp [SearchPoint.hazards]) g, h.2⟩
  | readNext prev cur =>
    exact ⟨h.1.mono (by simp [SearchPoint.hazards]) g, h.2.mono (by simp [SearchPoint.hazards]) g⟩
  | unlink prev cur next =>
    exact ⟨h.1.mono (by simp [SearchPoint.hazards]) g, h.2.mono (by simp [SearchPoint.hazards]) g⟩
  | countDown prev next => exact Below.mono h (by simp [SearchPoint.hazards]) g
  | revalidate prev cur next =>
    exact ⟨h.1.mono (by simp [SearchPoint.hazards]) g, h.2.mono (by simp [SearchPoint.hazards]) g⟩

theorem Local.mono {p : Point A V} (h : s.Local hash op p) (g : Spares p.hazards s s') : s'.Local hash op p := by
  cases p with
  | segment i waiting parentHead depth => exact TaskOk.mono (show s.TaskOk hash op (.dummy i waiting parentHead) from h) g
  | allocate i waiting parentHead depth => exact TaskOk.mono (show s.TaskOk hash op (.dummy i waiting parentHead) from h) g
  | search task p => exact ⟨h.1.mono g, h.2.mono g⟩
  | link task prev cur =>
    exact ⟨h.1.mono g, h.2.1, h.2.2.1.mono (by simp [Point.hazards]) g,
      h.2.2.2.mono (fun a ha => by simp [Point.hazards, ha]) g⟩
  | storeBucket i waiting head => exact ⟨h.1.mono g, h.2⟩
  | exchange cur => exact ⟨h.1, h.2.mono (by simp [Point.hazards]) g⟩
  | readNext head prev cur =>
    exact ⟨h.1, h.2.1.mono g, h.2.2.1.mono (by simp [Point.hazards]) g, h.2.2.2.mono (by simp [Point.hazards]) g⟩
  | mark head prev cur next =>
    exact ⟨h.1, h.2.1.mono g, h.2.2.1.mono (by simp [Point.hazards]) g, h.2.2.2.mono (by simp [Point.hazards]) g⟩
  | unlink head prev cur next =>
    exact ⟨h.1.mono g, h.2.1.mono (by simp [Point.hazards]) g, h.2.2.1.mono (by simp [Point.hazards]) g,
      h.2.2.2.mono (by simp [Point.hazards]) g⟩
  | loadValue cur => exact ⟨h.1, h.2.mono (by simp [Point.hazards]) g⟩
  | reloadValue cur value => exact ⟨h.1, h.2.1.mono (by simp [Point.hazards]) g, h.2.2⟩
  | _ => exact h

end Stability

section Keys

omit [LinearOrder K] in
theorem Awaits.lt (h : Awaits hash op i waiting) : i.toNat < 2 ^ 24 := by
  induction waiting generalizing i with
  | nil => exact h.1
  | cons j waiting ih =>
    obtain ⟨rfl, hj, hw⟩ := h
    exact (getBucketParent_lt hj).trans (ih hw)

theorem IsHead.key_lt {a : A} (hi : Inv hash s) (h : s.IsHead a i) {n : Node A K}
    (hlt : dummyKey i < n.reverseHash) : s.Below a n.key := by
  obtain ⟨m, hm, hd, rfl⟩ := h
  refine ⟨m, hm, ?_⟩
  rw [Node.key, Node.key, Prod.Lex.toLex_lt_toLex, ((hi.nodes a m hm).dummy hd).1]
  exact .inl (UInt64.lt_iff_toNat_lt.mp hlt)

omit [LinearOrder K] in
theorem TaskOk.isHead (h : s.TaskOk hash op task) :
    ∃ i, s.IsHead task.head i ∧ dummyKey i < (searchNode hash op task).reverseHash := by
  cases task with
  | dummy i waiting parentHead => exact ⟨_, h.1, dummyKey_parent_lt h.2.1⟩
  | item head => exact h
  | cleanup head => exact h.1

omit [LinearOrder K] in
theorem TaskOk.parity (h : s.TaskOk hash op task) : (searchNode hash op task).Parity := by
  cases task with
  | dummy i waiting parentHead =>
    have hlt := h.2.2.lt
    exact dummyKey_even (by omega)
  | item head => exact regularKey_odd _
  | cleanup head => exact regularKey_odd _

theorem Inv.stored_next {a b : A} {n : Node A K} (hi : Inv hash s) (hn : s.nodes a = some n)
    (hnext : n.next = ⟨some b, false⟩) : s.Stored b := by
  obtain ⟨l, hl, -⟩ := hi.list
  obtain ⟨pre, post, rfl⟩ := hl.split_next (cells_eq hn) (by rw [Node.cell, hnext]) (by rw [Node.cell, hnext])
  obtain ⟨d, hd⟩ := hl.threaded.stored (a := b) (by simp)
  obtain ⟨m, hm, -⟩ := of_cells hd
  exact ⟨m, hm⟩

theorem Inv.isHead_of_key (hi : Inv hash s) (h : s.HasKey cur (dummyNode i : Node A K).key) :
    s.IsHead cur i := by
  obtain ⟨n, hn, hk⟩ := h
  obtain ⟨hr, hrev⟩ := Node.dummy_of_key hk
  refine ⟨n, hn, hr, reverse_injective ?_⟩
  rw [((hi.nodes cur n hn).dummy hr).1] at hrev
  exact hrev

end Keys

variable [DecidableEq A] {p : Point A V} {ch : Choice A V}

structure Outcome (hash : K → UInt64) (op : Op K V) (s : Shared A K V) (p : Point A V)
    (r : Shared A K V × Point A V) : Prop where
  effect : Effect hash op s (p.commit r.2) (r.2.owed - p.owed) r.1
  holds : r.1.Local hash op r.2
  keeps : p.committed = true → r.2.committed = true

theorem Outcome.stay {p' : Point A V} (h : s.Local hash op p') (hc : p'.Alike p) :
    Outcome hash op s p (s, p') := by
  refine ⟨?_, h, fun hp => hc.committed.trans hp⟩
  simp only [Point.commit_same hc.committed, hc.owed, sub_self]
  exact .same

theorem Outcome.silent {p' : Point A V} {δ : ℤ} (h : Effect hash op s .none δ s')
    (hp : s'.Local hash op p') (hc : p'.committed = p.committed) (ho : p'.owed - p.owed = δ) :
    Outcome hash op s p (s', p') := by
  refine ⟨?_, hp, fun hp => hc.trans hp⟩
  simp only [Point.commit_same hc, ho]
  exact h

section Buckets

omit [DecidableEq A]

theorem resume_local {head : A} (hh : s.IsHead head i) (hw : Awaits hash op i waiting) :
    s.Local hash op (resume waiting head) := by
  cases waiting with
  | nil => exact ⟨⟨i, hh, hw.2⟩, trivial⟩
  | cons j waiting =>
    obtain ⟨rfl, hj, hw⟩ := hw
    exact ⟨hh, hj, hw⟩

omit [LinearOrder K] in
theorem resume_plain (waiting : List UInt64) (head : A) : (resume waiting head : Point A V).Plain := by
  cases waiting <;> exact ⟨rfl, rfl⟩

theorem initializeBucket_local (hi : i ≠ 0) (hw : Awaits hash op i waiting) :
    s.Local hash op (initializeBucket i waiting) := by
  rw [initializeBucket, if_neg hi]
  exact ⟨rfl, hi, hw⟩

omit [LinearOrder K] in
theorem initializeBucket_plain (i : UInt64) (waiting : List UInt64) :
    (initializeBucket i waiting : Point A V).Plain := by
  rw [initializeBucket]
  split <;> exact ⟨rfl, rfl⟩

theorem lookupStep_local (hi : Inv hash s) {depth : ℕ} (hw : Awaits hash op i waiting) :
    s.Local hash op (s.lookupStep i waiting depth) := by
  rw [lookupStep]
  split
  · rename_i hd
    split
    · exact hw
    · rename_i harray
      apply initializeBucket_local _ hw
      rintro rfl
      exact harray (hi.rootArrays depth hd)
  · split
    · rename_i head hb
      exact resume_local (hi.buckets i hw.lt head hb) hw
    · rename_i hb
      apply initializeBucket_local _ hw
      rintro rfl
      exact hi.root hb

theorem segmentStep_local (hi : Inv hash s) {parentHead : A} {depth : ℕ}
    (ht : s.TaskOk hash op (.dummy i waiting parentHead)) :
    s.Local hash op (s.segmentStep i waiting parentHead depth) := by
  rw [segmentStep]
  split
  · split
    · exact ht
    · exact ht
  · split
    · rename_i head hb
      exact resume_local (hi.buckets i ht.2.2.lt head hb) ht.2.2
    · exact ⟨ht, trivial⟩

omit [LinearOrder K] in
theorem lookupStep_plain (s : Shared A K V) (i : UInt64) (waiting : List UInt64) (depth : ℕ) :
    (s.lookupStep i waiting depth).Plain := by
  rw [lookupStep]
  split
  · split
    · exact ⟨rfl, rfl⟩
    · exact initializeBucket_plain i waiting
  · split
    · exact resume_plain waiting _
    · exact initializeBucket_plain i waiting

omit [LinearOrder K] in
theorem segmentStep_plain (s : Shared A K V) (i : UInt64) (waiting : List UInt64) (parentHead : A) (depth : ℕ) :
    (s.segmentStep i waiting parentHead depth).Plain := by
  rw [segmentStep]
  split
  · split <;> exact ⟨rfl, rfl⟩
  · split
    · exact resume_plain waiting _
    · exact ⟨rfl, rfl⟩

end Buckets

section Search

omit [LinearOrder K] [DecidableEq A] in
theorem search_committed (task : Task A) (p q : SearchPoint A) :
    (Point.search task p : Point A V).committed = (Point.search task q : Point A V).committed := by
  cases task with
  | item head => cases p <;> cases q <;> rfl
  | _ => rfl

omit [DecidableEq A] in
theorem onFound_local (hi : Inv hash s) (ht : s.TaskOk hash op task)
    (hprev : s.Below prev (searchNode hash op task).key) (hcur : s.HasKey cur (searchNode hash op task).key) :
    s.Local hash op (onFound op task prev cur) := by
  cases task with
  | dummy i waiting parentHead => exact resume_local (hi.isHead_of_key hcur) ht.2.2
  | cleanup head =>
    obtain ⟨-, k, rfl⟩ := ht
    trivial
  | item head =>
    cases op with
    | insert k v => exact ⟨⟨k, v, rfl⟩, hcur⟩
    | delete k => exact ⟨⟨k, rfl⟩, ht, hprev, hcur⟩
    | find k => exact ⟨⟨k, rfl⟩, hcur⟩

omit [LinearOrder K] [DecidableEq A] in
theorem onFound_alike (op : Op K V) (task : Task A) (prev cur : A) (next : Option A) :
    (onFound op task prev cur).Alike (Point.search task (.revalidate prev cur next) : Point A V) := by
  cases task with
  | dummy i waiting parentHead => exact (resume_plain waiting cur).alike rfl rfl
  | cleanup head => exact ⟨rfl, rfl⟩
  | item head => cases op <;> exact ⟨rfl, rfl⟩

omit [DecidableEq A] in
theorem onMissed_local (ht : s.TaskOk hash op task) {o : Option A}
    (hprev : s.Below prev (searchNode hash op task).key) (ho : s.Above o (searchNode hash op task).key) :
    s.Local hash op (onMissed op task prev o) := by
  cases task with
  | dummy i waiting parentHead => exact ⟨ht, trivial, hprev, ho⟩
  | cleanup head =>
    obtain ⟨-, k, rfl⟩ := ht
    trivial
  | item head =>
    cases op with
    | insert k v => exact ⟨ht, ⟨k, v, rfl⟩, hprev, ho⟩
    | delete k => trivial
    | find k => trivial

omit [LinearOrder K] [DecidableEq A] in
theorem onMissed_alike (op : Op K V) (task : Task A) (prev : A) (o : Option A) {p : SearchPoint A}
    (hp : (Point.search task p : Point A V).owed = 0) :
    (onMissed op task prev o).Alike (Point.search task p : Point A V) := by
  cases task with
  | dummy i waiting parentHead => exact ⟨rfl, hp.symm⟩
  | cleanup head => exact ⟨rfl, hp.symm⟩
  | item head => cases op <;> exact ⟨search_committed (.item head) .tryAgain p, hp.symm⟩

omit [DecidableEq A] in
theorem TaskOk.above (ht : s.TaskOk hash op task) (hi : Inv hash s) {m : Node A K}
    (hm : s.nodes cur = some m) (hge : m.greaterOrEquals (searchNode hash op task) = true)
    (hne : ¬ m.equals (searchNode hash op task) = true) : s.Above (some cur) (searchNode hash op task).key := by
  have hless := Node.less_iff (hi.nodes cur m hm).parity ht.parity
  have hequals := Node.equals_iff (hi.nodes cur m hm).parity ht.parity
  have hle : (searchNode hash op task).key ≤ m.key := by
    rw [← not_lt, ← hless]
    simpa [Node.greaterOrEquals] using hge
  rintro a ⟨⟩
  exact ⟨m, hm, lt_of_le_of_ne hle fun h => hne (hequals.mpr h.symm)⟩

theorem searchStep_outcome (hi : Inv hash s) (ht : s.TaskOk hash op task) {q : SearchPoint A}
    (hs : s.SearchOk (searchNode hash op task).key q) :
    Outcome hash op s (.search task q) (s.searchStep hash op task q) := by
  have hagain (hq : (Point.search task q : Point A V).owed = 0) :
      Outcome hash op s (.search task q) (s, .search task .tryAgain) :=
    .stay ⟨ht, trivial⟩ ⟨search_committed .., hq.symm⟩
  cases q with
  | tryAgain =>
    obtain ⟨i, hhead, hlt⟩ := ht.isHead
    obtain ⟨n, hn, hk⟩ := hhead.key_lt hi hlt
    obtain ⟨m, hm, hd, -⟩ := hhead
    rw [hn] at hm
    obtain rfl := Option.some.inj hm
    simp only [searchStep, hn]
    refine .stay ⟨ht, ⟨n, hn, hk⟩, ?_⟩ ⟨search_committed .., rfl⟩
    exact ((hi.nodes _ n hn).dummy hd).2.2
  | validate prev cur =>
    obtain ⟨⟨n, hn, hk⟩, hm⟩ := hs
    obtain ⟨o, marked⟩ := cur
    obtain rfl : marked = false := hm
    simp only [searchStep, hn]
    split
    · exact hagain rfl
    · rename_i hnext
      cases o with
      | none => exact .stay (onMissed_local ht ⟨n, hn, hk⟩ fun a ha => by cases ha) (onMissed_alike _ _ _ _ rfl)
      | some a =>
        have hstored := hi.stored_next hn (not_not.mp hnext)
        exact .stay ⟨ht, ⟨n, hn, hk⟩, hstored⟩ ⟨search_committed .., rfl⟩
  | readNext prev cur =>
    obtain ⟨hprev, n, hn⟩ := hs
    simp only [searchStep, hn]
    split
    · rename_i hm
      refine .stay ⟨ht, hprev, n, hn, ?_⟩ ⟨search_committed .., rfl⟩
      rw [← hm]
    · exact .stay ⟨ht, hprev, n, hn⟩ ⟨search_committed .., rfl⟩
  | unlink prev cur next =>
    obtain ⟨⟨n, hn, hk⟩, hcur⟩ := hs
    simp only [searchStep, hn]
    split
    · rename_i hnext
      have heffect : Effect hash op s .none (-1) _ := .unlink prev cur n next hn hnext hcur
      refine .silent heffect ?_ (search_committed ..) rfl
      exact ⟨ht.mono (heffect.grows.spares []), Below.mono ⟨n, hn, hk⟩ List.mem_cons_self (heffect.grows.spares [prev])⟩
    · exact hagain rfl
  | countDown prev next =>
    have heffect : Effect hash op s .none 1 _ := .countDown
    refine .silent heffect ?_ (search_committed ..) rfl
    exact ⟨ht.mono (heffect.grows.spares []), Below.mono hs List.mem_cons_self (heffect.grows.spares [prev]), rfl⟩
  | revalidate prev cur next =>
    obtain ⟨⟨n, hn, hk⟩, m, hm⟩ := hs
    have hless := Node.less_iff (hi.nodes cur m hm).parity ht.parity
    have hequals := Node.equals_iff (hi.nodes cur m hm).parity ht.parity
    simp only [searchStep, hn, hm]
    split
    · exact hagain rfl
    · split
      · rename_i hge
        split
        · rename_i heq
          exact .stay (onFound_local hi ht ⟨n, hn, hk⟩ ⟨m, hm, hequals.mp heq⟩) (onFound_alike ..)
        · rename_i hne
          exact .stay (onMissed_local ht ⟨n, hn, hk⟩ (ht.above hi hm hge hne)) (onMissed_alike _ _ _ _ rfl)
      · rename_i hlt
        refine .stay ⟨ht, ⟨m, hm, ?_⟩, rfl⟩ ⟨search_committed .., rfl⟩
        apply hless.mp
        simpa [Node.greaterOrEquals] using hlt

end Search

theorem linkStep_outcome (ht : s.TaskOk hash op task) (hlinks : Links op task)
    {o : Option A} (hprev : s.Below prev (searchNode hash op task).key)
    (ho : s.Above o (searchNode hash op task).key) (hf : ch.Fresh s) :
    Outcome hash op s (.link task prev o) (s.linkStep hash ch op task prev o) := by
  obtain ⟨n, hn, hk⟩ := hprev
  simp only [linkStep, hn]
  split
  · refine .stay ⟨ht, trivial⟩ ?_
    cases task with
    | cleanup head => exact absurd hlinks id
    | _ => exact ⟨rfl, rfl⟩
  · rename_i hnext
    simp only [ne_eq, not_or, not_not] at hnext
    cases task with
    | dummy i waiting parentHead =>
      have heffect : Effect hash op s .none 0 _ := .dummy i prev ch.node n o ht.2.2.lt hn hnext.1 hf.1 hk ho
      refine .silent heffect ⟨?_, ht.2.2⟩ rfl rfl
      refine ⟨{ dummyNode i with next := ⟨o, false⟩ }, ?_, rfl, rfl⟩
      rw [setNext, nodes_putNode_ne (ne_of_fresh hn hf.1).symm]
      simp [putNode]
    | item head =>
      obtain ⟨k, v, rfl⟩ := hlinks
      exact ⟨.item k v prev ch.node ch.value n o rfl hn hnext.1 hf.1 hk ho, ⟨k, v, rfl⟩, fun _ => rfl⟩
    | cleanup head => exact absurd hlinks id

omit [DecidableEq A] in
theorem Inv.regular (hi : Inv hash s) {k : K} (h : s.HasKey cur (orderKey hash k)) :
    ∃ n p, s.nodes cur = some n ∧ n.regular = some (k, p) ∧ p ≠ none := by
  obtain ⟨n, hn, hk⟩ := h
  obtain ⟨p, hp⟩ := Node.regular_of_key hk
  exact ⟨n, p, hn, hp, ((hi.nodes cur n hn).item k p hp).2⟩

theorem exec_outcome (hi : Inv hash s) (hpow : s.powerOf2 ≤ 24) (hl : s.Local hash op p)
    (hf : ch.Fresh s) : Outcome hash op s p (s.exec hash ch op p) := by
  cases p with
  | loadPower =>
    have hmask : (UInt64.ofNat (2 ^ s.powerOf2) - 1).toNat < 2 ^ 24 := by
      rw [mask_toNat (by omega)]
      have hle : 2 ^ s.powerOf2 ≤ 2 ^ 24 := Nat.pow_le_pow_right (by decide) hpow
      omega
    refine .stay ⟨?_, dummyKey_and_lt _ (by omega)⟩ ⟨rfl, rfl⟩
    rw [UInt64.toNat_and]
    exact Nat.lt_of_le_of_lt Nat.and_le_right hmask
  | lookup i waiting depth => exact .stay (lookupStep_local hi hl) ((lookupStep_plain ..).alike rfl rfl)
  | segment i waiting parentHead depth => exact .stay (segmentStep_local hi hl) ((segmentStep_plain ..).alike rfl rfl)
  | allocate i waiting parentHead depth =>
    have heffect : Effect hash op s .none 0 _ := .array (route i (depth + 1))
    exact .silent heffect (Local.mono (p := .allocate i waiting parentHead depth) hl (heffect.grows.spares _)) rfl rfl
  | search task q => exact searchStep_outcome hi hl.1 hl.2
  | link task prev o => exact linkStep_outcome hl.1 hl.2.1 hl.2.2.1 hl.2.2.2 hf
  | storeBucket i waiting head =>
    have heffect : Effect hash op s .none 0 _ := .bucket i head hl.2.lt hl.1
    exact .silent heffect (resume_local (hl.1.mono (heffect.grows.spares [])) hl.2) (committed_of_searching (resume_plain ..).phase) (by
      rw [(resume_plain ..).owed]; rfl)
  | countUp => exact .silent .countUp hl rfl rfl
  | compareLoad size =>
    obtain ⟨k, v, rfl⟩ := hl
    simp only [exec]
    split
    · exact .stay ⟨k, v, rfl⟩ ⟨rfl, rfl⟩
    · exact .stay trivial ⟨rfl, rfl⟩
  | grow power =>
    obtain ⟨k, v, rfl⟩ := hl
    simp only [exec]
    split
    · rename_i hp
      subst hp
      exact .silent .grow ⟨k, v, rfl⟩ rfl rfl
    · exact .stay trivial ⟨rfl, rfl⟩
  | checkBucketSize =>
    obtain ⟨k, v, rfl⟩ := hl
    have hle : 2 ^ s.powerOf2 ≤ kMaxBucketSize := Nat.pow_le_pow_right (n := 2) (by decide) hpow
    simp only [exec, if_pos hle]
    exact .stay trivial ⟨rfl, rfl⟩
  | exchange cur =>
    obtain ⟨⟨k, v, rfl⟩, hk⟩ := hl
    obtain ⟨n, p, hn, hr, -⟩ := hi.regular hk
    simp only [exec, hn, hr, opKey]
    exact .silent (.exchange k v cur ch.value n p rfl hn hr) trivial rfl rfl
  | readNext head prev cur =>
    obtain ⟨hop, ht, hprev, n, hn, hk⟩ := hl
    simp only [exec, hn]
    split
    · exact .stay ⟨ht, trivial⟩ ⟨rfl, rfl⟩
    · exact .stay ⟨hop, ht, hprev, n, hn, hk⟩ ⟨rfl, rfl⟩
  | mark head prev cur next =>
    obtain ⟨⟨k, rfl⟩, ht, hprev, n, hn, hk⟩ := hl
    simp only [exec, hn]
    split
    · exact .stay ⟨ht, trivial⟩ ⟨rfl, rfl⟩
    · rename_i hnext
      simp only [ne_eq, not_or, not_not] at hnext
      have heffect := Effect.mark k cur n next rfl hn hnext.1 hk
      have hfrozen : (s.setNext cur n ⟨next, true⟩).Frozen cur next :=
        ⟨{ n with next := ⟨next, true⟩ }, by simp [setNext, putNode], rfl⟩
      refine ⟨heffect, ⟨⟨ht.mono (heffect.grows.spares []), k, rfl⟩, ?_, hfrozen, ?_⟩, fun _ => rfl⟩
      · exact hprev.mono List.mem_cons_self (heffect.grows.spares [prev])
      · exact HasKey.mono ⟨n, hn, hk⟩ List.mem_cons_self (heffect.grows.spares [cur])
  | unlink head prev cur next =>
    obtain ⟨ht, ⟨n, hn, hk⟩, hfrozen, -⟩ := hl
    simp only [exec, hn]
    split
    · rename_i hnext
      exact .silent (.unlink prev cur n next hn hnext hfrozen) ht.2 rfl rfl
    · exact .stay ⟨ht, trivial⟩ ⟨rfl, rfl⟩
  | countDown =>
    obtain ⟨k, rfl⟩ := hl
    exact .silent .countDown trivial rfl rfl
  | loadValue cur =>
    obtain ⟨hop, hk⟩ := hl
    obtain ⟨n, p, hn, hr, hv⟩ := hi.regular hk
    simp only [exec, hn, Option.bind_some, hr]
    exact .stay ⟨hop, hk, hv⟩ ⟨rfl, rfl⟩
  | reloadValue cur value =>
    obtain ⟨hop, hk, -⟩ := hl
    obtain ⟨n, p, hn, hr, hv⟩ := hi.regular hk
    simp only [exec, hn, Option.bind_some, hr]
    split
    · exact .stay ⟨hop, hv⟩ ⟨rfl, rfl⟩
    · exact .stay ⟨hop, hk⟩ ⟨rfl, rfl⟩
  | copyValue value =>
    obtain ⟨⟨k, rfl⟩, hv⟩ := hl
    obtain ⟨a, rfl⟩ := Option.ne_none_iff_exists'.mp hv
    exact .stay trivial ⟨rfl, rfl⟩
  | finished answer => exact .stay hl ⟨rfl, rfl⟩
  | fault => exact absurd hl id

section Runs

variable {l l' : Control A K V}

def Asserts (hash : K → UInt64) (s : Shared A K V) : Control A K V → Prop
  | .idle _ => True
  | .running op p => s.Local hash op p

omit [DecidableEq A] in
theorem Asserts.mono (h : s.Asserts hash l) (g : Spares l.hazards s s') : s'.Asserts hash l := by
  cases l with
  | idle last => trivial
  | running op p => exact Local.mono h g

theorem Step.spares (hi : Inv hash s) (hpow : s.powerOf2 ≤ 24) (ha : s.Asserts hash l)
    (h : Step hash (s, l) (s', l')) {m : Control A K V} (hm : Keeps s s' m) : Spares m.hazards s s' := by
  cases h with
  | call _ last op => exact (Grows.refl s).spares _
  | exec _ op p ch hf => exact (exec_outcome hi hpow ha hf).effect.grows.spares _
  | answer _ op a => exact (Grows.refl s).spares _
  | freeNode _ _ a hr =>
    apply hi.freeNode_spares hr
    intro hmem
    obtain ⟨n, hn, -⟩ := hi.retired hr
    have hkept := hm a hmem (by rw [hn]; rfl)
    rw [nodes_freeNode_self] at hkept
    cases hkept
  | freeValue _ _ a hr => exact ⟨fun b n hn _ => ⟨n, hn, .refl n⟩⟩

theorem Step.spec (hi : Inv hash s) (hpow : s.powerOf2 ≤ 24) (ha : s.Asserts hash l)
    (h : Step hash (s, l) (s', l')) (hk : Keeps s s' l) : Inv hash s' ∧ s'.Asserts hash l' := by
  have hspares := h.spares hi hpow ha hk
  cases h with
  | call _ last op => exact ⟨hi, trivial⟩
  | exec _ op p ch hf =>
    have ho := exec_outcome hi hpow ha hf
    exact ⟨ho.effect.inv hi, ho.holds⟩
  | answer _ op a => exact ⟨hi, trivial⟩
  | freeNode _ _ a hr => exact ⟨hi.freeNode hr, ha.mono hspares⟩
  | freeValue _ _ a hr => exact ⟨hi.freeValue a, ha.mono hspares⟩

theorem exec_powerOf2 (s : Shared A K V) (ch : Choice A V) (op : Op K V) (hp : ∀ power, p ≠ .grow power) :
    (s.exec hash ch op p).1.powerOf2 = s.powerOf2 := by
  cases p with
  | search task q =>
    cases q <;> simp only [exec, searchStep] <;> repeat' split
    all_goals rfl
  | link task prev o =>
    simp only [exec, linkStep]
    repeat' split
    all_goals rfl
  | grow power => exact absurd rfl (hp power)
  | _ =>
    simp only [exec]
    repeat' split
    all_goals rfl

theorem exec_powerOf2_le (s : Shared A K V) (ch : Choice A V) (op : Op K V) (p : Point A V) :
    s.powerOf2 ≤ (s.exec hash ch op p).1.powerOf2 := by
  by_cases hp : ∀ power, p ≠ .grow power
  · exact (exec_powerOf2 s ch op hp).ge
  · push Not at hp
    obtain ⟨power, rfl⟩ := hp
    simp only [exec]
    split
    · rename_i h
      simp [h]
    · exact le_rfl

theorem Step.powerOf2 (h : Step hash (s, l) (s', l')) : s.powerOf2 ≤ s'.powerOf2 := by
  cases h with
  | exec _ op p ch hf => exact exec_powerOf2_le s ch op p
  | _ => exact le_rfl

omit [LinearOrder K] in
theorem new_nodes {head a : A} {n : Node A K} (h : (new head : Shared A K V).nodes a = some n) :
    a = head ∧ n = dummyNode 0 := by
  by_cases ha : a = head
  · subst ha
    simp only [new, Function.update_self, Option.some.injEq] at h
    exact ⟨rfl, h.symm⟩
  · simp [new, ha] at h

theorem new_holds (head : A) : Holds (new head : Shared A K V).cells head [head] := by
  have hhead : (new head : Shared A K V).nodes head = some (dummyNode 0) := by simp [new]
  refine ⟨⟨rfl, _, cells_eq hhead, rfl⟩, List.pairwise_singleton _ _, ?_⟩
  intro a c hc _
  obtain ⟨n, hn, -⟩ := of_cells hc
  simp [(new_nodes hn).1]

theorem new_inv (head : A) : Inv hash (new head : Shared A K V) := by
  constructor
  · exact ⟨[head], new_holds head, fun a ha => by cases ha⟩
  · intro a n hn
    obtain ⟨-, rfl⟩ := new_nodes hn
    exact wellFormed_dummy (by decide) none
  · intro i hi a ha
    by_cases hr : route i 4 = route 0 4
    · obtain rfl := Effect.route_injective hi (by decide) hr
      simp only [new, Function.update_self, Option.some.injEq] at ha
      subst ha
      exact ⟨dummyNode 0, by simp [new], rfl, rfl⟩
    · simp [new, hr] at ha
  · simp [new]
  · intro d hd
    obtain rfl | rfl | rfl : d = 0 ∨ d = 1 ∨ d = 2 := by omega
    all_goals simp [new]

variable {T : Type*} [DecidableEq T]

/-- A run of any number of threads from the empty table, in which no reclaimer deletes a node that a hazard
pointer of a call stands for. -/
def Run (hash : K → UInt64) (head : A) (c : Threads T (Shared A K V) (Control A K V)) : Prop :=
  Guarded (Step hash) Keeps (start (new head) (.idle none)) c

theorem Run.spec {head : A} {c : Threads T (Shared A K V) (Control A K V)} (h : Run hash head c)
    (hpow : c.shared.powerOf2 ≤ 24) : Inv hash c.shared ∧ ∀ t, c.shared.Asserts hash (c.point t) := by
  have hrun := Guarded.local_inv (I := fun s => s.powerOf2 ≤ 24 → Inv hash s)
    (P := fun s l => s.powerOf2 ≤ 24 → s.Asserts hash l) h (fun _ => new_inv head)
    (fun _ _ => trivial) ?_ ?_
  · exact ⟨hrun.1 hpow, fun t => hrun.2 t hpow⟩
  · intro s l s' l' hi ha hs hk
    have hle := hs.powerOf2
    exact ⟨fun hp => (hs.spec (hi (by omega)) (by omega) (ha (by omega)) hk).1,
      fun hp => (hs.spec (hi (by omega)) (by omega) (ha (by omega)) hk).2⟩
  · intro s l s' l' m hi ha hs _ hm hk hp
    have hle := hs.powerOf2
    exact (hm (by omega)).mono (hs.spares (hi (by omega)) (by omega) (ha (by omega)) hk)

theorem Run.no_fault {head : A} {c : Threads T (Shared A K V) (Control A K V)} (h : Run hash head c)
    (hpow : c.shared.powerOf2 ≤ 24) (t : T) : c.point t ≠ .running op .fault := by
  intro hf
  have ha := (h.spec hpow).2 t
  rw [hf] at ha
  exact ha

inductive Action (A K V : Type)
  | call (op : Op K V)
  | exec (ch : Choice A V)
  | answer
  | freeNode (a : A)
  | freeValue (a : A)

variable (hash) in
def act : Action A K V → Shared A K V × Control A K V → Option (Shared A K V × Control A K V)
  | .call op, (s, .idle _) => some (s, .running op .loadPower)
  | .exec ch, (s, .running op p) =>
    if (s.nodes ch.node).isNone && (s.values ch.value).isNone then
      some ((s.exec hash ch op p).1, .running op (s.exec hash ch op p).2)
    else none
  | .answer, (s, .running _ (.finished a)) => some (s, .idle (some a))
  | .freeNode a, (s, l) => if s.retired a then some (s.freeNode a, l) else none
  | .freeValue a, (s, l) => if s.retiredValues a then some (s.freeValue a, l) else none
  | _, _ => none

theorem act_step (x : Action A K V) (p q : Shared A K V × Control A K V) (h : act hash x p = some q) :
    Step hash p q := by
  obtain ⟨s, l⟩ := p
  cases x with
  | call op =>
    cases l with
    | idle last =>
      cases h
      exact .call s last op
    | running op p => cases h
  | exec ch =>
    cases l with
    | idle last => cases h
    | running op p =>
      simp only [act] at h
      split at h
      · rename_i hf
        cases h
        rw [Bool.and_eq_true, Option.isNone_iff_eq_none, Option.isNone_iff_eq_none] at hf
        exact .exec s op p ch hf
      · cases h
  | answer =>
    cases l with
    | idle last => cases h
    | running op p =>
      cases p with
      | finished a =>
        cases h
        exact .answer s op a
      | _ => cases h
  | freeNode a =>
    simp only [act] at h
    split at h
    · rename_i hr
      cases h
      exact .freeNode s l a hr
    · cases h
  | freeValue a =>
    simp only [act] at h
    split at h
    · rename_i hr
      cases h
      exact .freeValue s l a hr
    · cases h

def sparing [Fintype T] (c d : Threads T (Shared A K V) (Control A K V)) : Bool :=
  decide (∀ u, Keeps c.shared d.shared (c.point u))

omit [LinearOrder K] [DecidableEq A] [DecidableEq T] in
theorem sparing_keeps [Fintype T] (c d : Threads T (Shared A K V) (Control A K V)) (h : sparing c d = true) (u : T) :
    Keeps c.shared d.shared (c.point u) :=
  of_decide_eq_true h u

def steps (t : T) (op : Op ℕ ℕ) (i n : ℕ) : List (T × Action ℕ ℕ ℕ) :=
  (t, .call op) :: (List.range' i n).map fun a => (t, .exec ⟨a, a, false, 0⟩)

theorem run_of_replay [Fintype T] {xs : List (T × Action ℕ ℕ ℕ)} {t : T}
    {c : Threads T (Shared ℕ ℕ ℕ) (Control ℕ ℕ ℕ)}
    (h : replay (act UInt64.ofNat) sparing (fun _ => true) t xs (start (new 0) (.idle none)) = some c) :
    Run UInt64.ofNat 0 c := by
  have hwithin : Within (Step UInt64.ofNat) Keeps (fun _ => True) t (start (new 0) (.idle none)) c :=
    replay_within act_step sparing_keeps (fun _ _ => trivial) h
  exact hwithin.guarded

-- Thread `true` has loaded the address of a node which is then unlinked and deleted, and whose address a
-- new node gets.
theorem Run.no_fault_reused : ∃ c : Threads Bool (Shared ℕ ℕ ℕ) (Control ℕ ℕ ℕ),
    c.point true = .running (.insert 6 9) (.finished (.inserted true)) ∧
      (c.shared.nodes 107).map Node.hash = some 2 ∧ ∀ t op, c.point t ≠ .running op .fault := by
  have hreplay : (replay (act UInt64.ofNat) sparing (fun _ => true) true
      (steps false (.insert 4 7) 100 10 ++ (false, .answer) :: steps true (.insert 6 9) 300 6 ++
        steps false (.delete 4) 200 13 ++ [(false, .answer), (false, .freeNode 107)] ++
        steps false (.insert 2 8) 400 7 ++ (false, .exec ⟨107, 107, false, 0⟩) ::
        (List.range' 306 10).map fun a => (true, .exec ⟨a, a, false, 0⟩)) (start (new 0) (.idle none))).any (fun c =>
      decide (c.point true = .running (.insert 6 9) (.finished (.inserted true)) ∧
        (c.shared.nodes 107).map Node.hash = some 2 ∧ c.shared.powerOf2 ≤ 24)) = true := by
    decide +kernel
  obtain ⟨c, hc, hend⟩ := (Option.any_eq_true ..).mp hreplay
  obtain ⟨hanswer, hnode, hpow⟩ := of_decide_eq_true hend
  exact ⟨c, hanswer, hnode, fun t op => Run.no_fault (run_of_replay hc) hpow t⟩

-- Without a guard the node is deleted between the two tests of `prev->next`.
example : (replay (act UInt64.ofNat) (fun _ _ => true) (fun _ => true) true
    (steps false (.insert 4 7) 100 10 ++ (false, .answer) :: steps true (.insert 6 9) 300 7 ++
      steps false (.delete 4) 200 13 ++ [(false, .freeNode 107), (true, .exec ⟨307, 307, false, 0⟩)])
    (start (new 0) (.idle none))).any
      (fun c => decide (c.point true = .running (.insert 6 9) .fault)) = true := by
  decide +kernel

end Runs

end MetadataService.CT.Shared
