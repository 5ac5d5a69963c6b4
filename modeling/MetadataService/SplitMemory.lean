import MetadataService.MarkedList
import MetadataService.SplitThreads

namespace MetadataService.CT

open MarkedList

variable {A K V : Type}

namespace Node

structure Later (n n' : Node A K) : Prop where
  hash : n'.hash = n.hash
  reverseHash : n'.reverseHash = n.reverseHash
  regular : n'.regular.map Prod.fst = n.regular.map Prod.fst
  frozen : n.next.marked = true → n'.next = n.next

variable {n n' n'' : Node A K}

theorem Later.refl (n : Node A K) : n.Later n := ⟨rfl, rfl, rfl, fun _ => rfl⟩

theorem Later.trans (h : n.Later n') (h' : n'.Later n'') : n.Later n'' := by
  refine ⟨h'.hash.trans h.hash, h'.reverseHash.trans h.reverseHash, h'.regular.trans h.regular, fun hm => ?_⟩
  rw [h'.frozen (by rw [h.frozen hm]; exact hm), h.frozen hm]

theorem Later.dummy (h : n.Later n') (hn : n.regular = none) : n'.regular = none := by
  have hr := h.regular
  rw [hn] at hr
  simpa using hr

theorem key_eq_map (n : Node A K) :
    n.key = toLex (n.reverseHash.toNat, (n.regular.map Prod.fst).elim ⊥ fun k => (k : WithBot K)) := by
  rw [key]
  cases n.regular <;> rfl

theorem Later.key (h : n.Later n') : n'.key = n.key := by
  rw [key_eq_map, key_eq_map, h.reverseHash, h.regular]

theorem regular_of_key {hash : K → UInt64} {k : K} (h : n.key = orderKey hash k) :
    ∃ p, n.regular = some (k, p) := by
  have hr := congrArg (fun q => (ofLex q).2) h
  simp only [Node.key, orderKey, ofLex_toLex] at hr
  cases hn : n.regular with
  | none => simp [hn] at hr
  | some e =>
    simp only [hn, Option.elim_some, WithBot.coe_inj] at hr
    exact ⟨e.2, by rw [← hr]⟩

theorem dummy_of_key {b : UInt64} (h : n.key = (dummyNode b : Node A K).key) :
    n.regular = none ∧ n.reverseHash = dummyKey b := by
  have hr := congrArg (fun q => (ofLex q).2) h
  have hh := congrArg (fun q => (ofLex q).1) h
  simp only [Node.key, dummyNode, ofLex_toLex, Option.elim_none] at hr hh
  refine ⟨?_, UInt64.toNat_inj.mp hh⟩
  cases hn : n.regular with
  | none => rfl
  | some e => simp [hn] at hr

def cell (n : Node A K) : Cell (ℕ ×ₗ WithBot K) A := ⟨n.key, n.next.ptr, n.next.marked⟩

end Node

namespace Shared

variable {s s' s'' : Shared A K V} {a b : A} {i : UInt64} {o : Option A} {n n' : Node A K} {v : V}

def cells (s : Shared A K V) : A → Option (Cell (ℕ ×ₗ WithBot K) A) := fun a => (s.nodes a).map Node.cell

theorem cells_eq (h : s.nodes a = some n) : s.cells a = some n.cell := by simp [cells, h]

theorem cells_none (h : s.nodes a = none) : s.cells a = none := by simp [cells, h]

theorem of_cells {c : Cell (ℕ ×ₗ WithBot K) A} (h : s.cells a = some c) : ∃ n, s.nodes a = some n ∧ n.cell = c :=
  Option.map_eq_some_iff.mp h

def IsHead (s : Shared A K V) (a : A) (i : UInt64) : Prop :=
  ∃ n, s.nodes a = some n ∧ n.regular = none ∧ n.hash = i

def Frozen (s : Shared A K V) (a : A) (next : Option A) : Prop :=
  ∃ n, s.nodes a = some n ∧ n.next = ⟨next, true⟩

def HasKey (s : Shared A K V) (a : A) (κ : ℕ ×ₗ WithBot K) : Prop := ∃ n, s.nodes a = some n ∧ n.key = κ

def Stored (s : Shared A K V) (a : A) : Prop := ∃ n, s.nodes a = some n

structure Spares (R : List A) (s s' : Shared A K V) : Prop where
  nodes : ∀ a n, s.nodes a = some n → a ∈ R ∨ n.regular = none → ∃ n', s'.nodes a = some n' ∧ n.Later n'

structure Grows (s s' : Shared A K V) : Prop where
  nodes : ∀ a n, s.nodes a = some n → ∃ n', s'.nodes a = some n' ∧ n.Later n'
  power : s.powerOf2 ≤ s'.powerOf2

namespace Grows

theorem refl (s : Shared A K V) : Grows s s := ⟨fun _ n h => ⟨n, h, .refl n⟩, le_rfl⟩

theorem trans (h : Grows s s') (h' : Grows s' s'') : Grows s s'' := by
  refine ⟨fun a n hn => ?_, h.power.trans h'.power⟩
  obtain ⟨n', hn', hl⟩ := h.nodes a n hn
  obtain ⟨n'', hn'', hl'⟩ := h'.nodes a n' hn'
  exact ⟨n'', hn'', hl.trans hl'⟩

theorem spares (h : Grows s s') (R : List A) : Spares R s s' := ⟨fun a n hn _ => h.nodes a n hn⟩

end Grows

variable {R : List A}

theorem IsHead.mono (h : s.IsHead a i) (g : Spares R s s') : s'.IsHead a i := by
  obtain ⟨n, hn, hd, hb⟩ := h
  obtain ⟨n', hn', hl⟩ := g.nodes a n hn (.inr hd)
  exact ⟨n', hn', hl.dummy hd, hl.hash.trans hb⟩

theorem Frozen.mono (h : s.Frozen a o) (ha : a ∈ R) (g : Spares R s s') : s'.Frozen a o := by
  obtain ⟨n, hn, hf⟩ := h
  obtain ⟨n', hn', hl⟩ := g.nodes a n hn (.inl ha)
  refine ⟨n', hn', ?_⟩
  rw [hl.frozen (by rw [hf]), hf]

theorem HasKey.mono {κ : ℕ ×ₗ WithBot K} (h : s.HasKey a κ) (ha : a ∈ R) (g : Spares R s s') : s'.HasKey a κ := by
  obtain ⟨n, hn, hk⟩ := h
  obtain ⟨n', hn', hl⟩ := g.nodes a n hn (.inl ha)
  exact ⟨n', hn', hl.key.trans hk⟩

theorem Stored.mono (h : s.Stored a) (ha : a ∈ R) (g : Spares R s s') : s'.Stored a := by
  obtain ⟨n, hn⟩ := h
  obtain ⟨n', hn', -⟩ := g.nodes a n hn (.inl ha)
  exact ⟨n', hn'⟩

section WellFormed

variable (hash : K → UInt64)

structure WellFormed (n : Node A K) : Prop where
  dummy : n.regular = none → n.reverseHash = dummyKey n.hash ∧ n.hash.toNat < 2 ^ 24 ∧ n.next.marked = false
  item : ∀ k p, n.regular = some (k, p) → n.reverseHash = regularKey (hash k) ∧ p ≠ none

variable {hash}

theorem WellFormed.setNext {l : Link A} (h : WellFormed hash n) (hl : n.regular = none → l.marked = false) :
    WellFormed hash { n with next := l } :=
  ⟨fun hr => ⟨(h.dummy hr).1, (h.dummy hr).2.1, hl hr⟩, h.item⟩

theorem wellFormed_dummy (hi : i.toNat < 2 ^ 24) (cur : Option A) :
    WellFormed hash ({ dummyNode i with next := ⟨cur, false⟩ } : Node A K) := by
  constructor
  · exact fun _ => ⟨rfl, hi, rfl⟩
  · intro k p hr
    cases hr

theorem wellFormed_regular {k : K} {l : Link A} (hn : n.reverseHash = regularKey (hash k)) :
    WellFormed hash { n with regular := some (k, some a), next := l } := by
  constructor
  · intro hr
    cases hr
  · intro k' p hr
    cases hr
    exact ⟨hn, Option.some_ne_none a⟩

theorem WellFormed.parity (h : WellFormed hash n) : n.Parity := by
  rw [Node.Parity, Node.isDummy]
  cases hr : n.regular with
  | none =>
    obtain ⟨hrev, hi, -⟩ := h.dummy hr
    simp [hrev, dummyKey_even (b := n.hash) (by omega)]
  | some e =>
    obtain ⟨hrev, -⟩ := h.item e.1 e.2 hr
    simp [hrev, regularKey_odd]

end WellFormed

section Updates

variable [DecidableEq A]

theorem nodes_putNode_ne (h : b ≠ a) : (s.putNode a n).nodes b = s.nodes b := by simp [putNode, h]

omit [DecidableEq A] in
theorem ne_of_fresh (hn : s.nodes b = some n) (h : s.nodes a = none) : b ≠ a := by
  rintro rfl
  rw [h] at hn
  cases hn

theorem cells_putNode (s : Shared A K V) (a : A) (n : Node A K) :
    (s.putNode a n).cells = Function.update s.cells a (some n.cell) := by
  funext b
  by_cases hb : b = a
  · subst hb
    simp [cells, putNode]
  · simp [cells, putNode, hb]

theorem grows_putNew (h : s.nodes a = none) : Grows s (s.putNode a n) := by
  refine ⟨fun b m hm => ⟨m, ?_, .refl m⟩, le_rfl⟩
  rw [nodes_putNode_ne (ne_of_fresh hm h), hm]

theorem grows_putNode (h : s.nodes a = some n) (hl : n.Later n') : Grows s (s.putNode a n') := by
  refine ⟨fun b m hm => ?_, le_rfl⟩
  by_cases hb : b = a
  · subst hb
    rw [h] at hm
    obtain rfl := Option.some.inj hm
    exact ⟨n', by simp [putNode], hl⟩
  · exact ⟨m, by rw [nodes_putNode_ne hb, hm], .refl m⟩

theorem grows_setNext (h : s.nodes a = some n) (hm : n.next.marked = false) (l : Link A) :
    Grows s (s.setNext a n l) := by
  apply grows_putNode h
  refine ⟨rfl, rfl, rfl, fun hm' => ?_⟩
  rw [hm] at hm'
  cases hm'

theorem grows_putValue (s : Shared A K V) (a : A) (v : V) : Grows s (s.putValue a v) :=
  ⟨(Grows.refl s).nodes, le_rfl⟩

theorem wellFormed_putNode {hash : K → UInt64} (h : ∀ a n, s.nodes a = some n → WellFormed hash n)
    (hn : WellFormed hash n) : ∀ b m, (s.putNode a n).nodes b = some m → WellFormed hash m := by
  intro b m hm
  by_cases hb : b = a
  · subst hb
    simp only [putNode, Function.update_self, Option.some.injEq] at hm
    exact hm ▸ hn
  · rw [nodes_putNode_ne hb] at hm
    exact h b m hm

theorem nodes_freeNode_ne (h : b ≠ a) : (s.freeNode a).nodes b = s.nodes b := by simp [freeNode, h]

theorem nodes_freeNode_self (s : Shared A K V) (a : A) : (s.freeNode a).nodes a = none := by simp [freeNode]

theorem cells_freeNode (s : Shared A K V) (a : A) : (s.freeNode a).cells = Function.update s.cells a none := by
  funext b
  by_cases hb : b = a
  · subst hb
    simp [cells, freeNode]
  · simp [cells, freeNode, hb]

end Updates

variable [LinearOrder K] {κ : ℕ ×ₗ WithBot K}

def Below (s : Shared A K V) (a : A) (κ : ℕ ×ₗ WithBot K) : Prop := ∃ n, s.nodes a = some n ∧ n.key < κ

def Above (s : Shared A K V) (o : Option A) (κ : ℕ ×ₗ WithBot K) : Prop :=
  ∀ a, o = some a → ∃ n, s.nodes a = some n ∧ κ < n.key

theorem Below.mono (h : s.Below a κ) (ha : a ∈ R) (g : Spares R s s') : s'.Below a κ := by
  obtain ⟨n, hn, hk⟩ := h
  obtain ⟨n', hn', hl⟩ := g.nodes a n hn (.inl ha)
  exact ⟨n', hn', hl.key.symm ▸ hk⟩

theorem Above.mono (h : s.Above o κ) (ho : ∀ a, o = some a → a ∈ R) (g : Spares R s s') : s'.Above o κ := by
  intro a ha
  obtain ⟨n, hn, hk⟩ := h a ha
  obtain ⟨n', hn', hl⟩ := g.nodes a n hn (.inl (ho a ha))
  exact ⟨n', hn', hl.key.symm ▸ hk⟩

theorem Above.cells (h : s.Above o κ) {c : Cell (ℕ ×ₗ WithBot K) A} (ha : o = some a) (hc : s.cells a = some c) :
    κ < c.key := by
  obtain ⟨n, hn, hk⟩ := h a ha
  rw [cells_eq hn] at hc
  rw [← Option.some.inj hc]
  exact hk

def Outside (s : Shared A K V) (l : List A) : Prop := ∀ a, s.retired a = true → s.Stored a ∧ a ∉ l

omit [LinearOrder K] in
theorem Outside.mono {l l' : List A} (h : s.Outside l) (g : Grows s s') (hr : s'.retired = s.retired)
    (hl : ∀ a ∈ l', a ∈ l ∨ s.nodes a = none) : s'.Outside l' := by
  intro a ha
  rw [hr] at ha
  obtain ⟨⟨n, hn⟩, hnot⟩ := h a ha
  obtain ⟨n', hn', -⟩ := g.nodes a n hn
  refine ⟨⟨n', hn'⟩, fun hmem => ?_⟩
  rcases hl a hmem with hmem | hfresh
  · exact hnot hmem
  · rw [hfresh] at hn
    cases hn

variable (hash : K → UInt64)

structure Inv (s : Shared A K V) : Prop where
  list : ∃ l, Holds s.cells s.head l ∧ s.Outside l
  nodes : ∀ a n, s.nodes a = some n → WellFormed hash n
  buckets : ∀ i : UInt64, i.toNat < 2 ^ 24 → ∀ a, s.buckets (route i 4) = some a → s.IsHead a i
  root : s.buckets (route 0 4) ≠ none
  rootArrays : ∀ d < 3, s.arrays (route 0 (d + 1)) = true

variable [DecidableEq A]

inductive Commit (A : Type)
  | none
  | link
  | mark (a : A)

/-- The changes that the steps of a call `op` make to the shared memory. The number is by how much the
items of the list grow beyond what `size_` counts. -/
inductive Effect (op : Op K V) (s : Shared A K V) : Commit A → ℤ → Shared A K V → Prop
  | same : Effect op s .none 0 s
  | countUp : Effect op s .none (-1) { s with size := s.size + 1 }
  | countDown : Effect op s .none 1 { s with size := s.size - 1 }
  | grow : Effect op s .none 0 { s with powerOf2 := s.powerOf2 + 1 }
  | array (path : List (Fin 64)) : Effect op s .none 0 { s with arrays := Function.update s.arrays path true }
  | bucket (i : UInt64) (head : A) (hi : i.toNat < 2 ^ 24) (h : s.IsHead head i) :
    Effect op s .none 0 { s with buckets := Function.update s.buckets (route i 4) (some head) }
  | dummy (i : UInt64) (prev new : A) (n : Node A K) (cur : Option A) (hi : i.toNat < 2 ^ 24)
    (hn : s.nodes prev = some n) (hnext : n.next = ⟨cur, false⟩) (hfresh : s.nodes new = none)
    (hlt : n.key < (dummyNode i : Node A K).key) (hgt : s.Above cur (dummyNode i : Node A K).key) :
    Effect op s .none 0 ((s.putNode new { dummyNode i with next := ⟨cur, false⟩ }).setNext prev n (.ref new))
  | item (k : K) (v : V) (prev new va : A) (n : Node A K) (cur : Option A) (hop : op = .insert k v)
    (hn : s.nodes prev = some n) (hnext : n.next = ⟨cur, false⟩) (hfresh : s.nodes new = none)
    (hlt : n.key < orderKey hash k) (hgt : s.Above cur (orderKey hash k)) :
    Effect op s .link 1 (((s.putValue va v).putNode new
      { regularNode (hash k) k (some va) with next := ⟨cur, false⟩ }).setNext prev n (.ref new))
  | unlink (prev cur : A) (n : Node A K) (next : Option A) (hn : s.nodes prev = some n)
    (hnext : n.next = .ref cur) (hcur : s.Frozen cur next) :
    Effect op s .none (-1) ((s.setNext prev n ⟨next, false⟩).retire cur)
  | mark (k : K) (cur : A) (n : Node A K) (next : Option A) (hop : op = .delete k) (hn : s.nodes cur = some n)
    (hnext : n.next = ⟨next, false⟩) (hkey : n.key = orderKey hash k) :
    Effect op s (.mark cur) 0 (s.setNext cur n ⟨next, true⟩)
  | exchange (k : K) (v : V) (cur va : A) (n : Node A K) (p : Option A) (hop : op = .insert k v)
    (hn : s.nodes cur = some n) (hreg : n.regular = some (k, p)) :
    Effect op s .none 0 (((s.putValue va v).putNode cur { n with regular := some (k, some va) }).retireValue p)

section Lists

variable {l : List A} {prev cur new : A} {next : Option A} {n m : Node A K}

theorem holds_link (hl : Holds s.cells s.head l) (hn : s.nodes prev = some n) (hnext : n.next = ⟨o, false⟩)
    (hfresh : s.nodes new = none) (hm : m.next = ⟨o, false⟩) (hlt : n.key < m.key) (hgt : s.Above o m.key) :
    ∃ pre post, l = pre ++ prev :: post ∧
      Holds ((s.putNode new m).setNext prev n (.ref new)).cells s.head (pre ++ prev :: new :: post) := by
  have hptr : n.cell.next = o := by rw [Node.cell, hnext]
  have hcell : m.cell = ⟨m.key, n.cell.next, false⟩ := by rw [Node.cell, hm, hptr]
  have hprev : ({ n with next := .ref new } : Node A K).cell = { n.cell with next := some new } := by
    rw [Node.cell, Node.cell, hnext]
    rfl
  obtain ⟨pre, post, hsplit, h⟩ := hl.link (cells_eq hn) (by rw [Node.cell, hnext]) (cells_none hfresh) hlt
    fun a d ha hd => hgt.cells (hptr.symm.trans ha) hd
  refine ⟨pre, post, hsplit, ?_⟩
  rw [setNext, cells_putNode, cells_putNode, hcell, hprev]
  exact h

theorem holds_unlink (hl : Holds s.cells s.head l) (hn : s.nodes prev = some n) (hnext : n.next = .ref cur)
    (hcur : s.Frozen cur next) :
    ∃ pre post, l = pre ++ prev :: cur :: post ∧
      Holds (s.setNext prev n ⟨next, false⟩).cells s.head (pre ++ prev :: post) := by
  obtain ⟨m, hm, hfrozen⟩ := hcur
  have hprev : ({ n with next := ⟨next, false⟩ } : Node A K).cell = { n.cell with next := m.cell.next } := by
    rw [Node.cell, Node.cell, Node.cell, hnext, hfrozen]
    rfl
  rw [setNext, cells_putNode, hprev]
  apply hl.unlink (cells_eq hn) _ _ (cells_eq hm)
  · rw [Node.cell, hfrozen]
  · rw [Node.cell, hnext]
    rfl
  · rw [Node.cell, hnext]
    rfl

theorem holds_mark (hl : Holds s.cells s.head l) (hn : s.nodes cur = some n) (hnext : n.next = ⟨next, false⟩) :
    Holds (s.setNext cur n ⟨next, true⟩).cells s.head l := by
  have hcell : ({ n with next := ⟨next, true⟩ } : Node A K).cell = { n.cell with marked := true } := by
    rw [Node.cell, Node.cell, hnext]
    rfl
  rw [setNext, cells_putNode, hcell]
  exact hl.mark (cells_eq hn)

omit [LinearOrder K] in
theorem cells_exchange {k : K} {p : Option A} (v : V) (va : A) (hn : s.nodes cur = some n)
    (hreg : n.regular = some (k, p)) :
    (((s.putValue va v).putNode cur { n with regular := some (k, some va) }).retireValue p).cells = s.cells := by
  have hlater : n.Later { n with regular := some (k, some va) } := ⟨rfl, rfl, by rw [hreg]; rfl, fun _ => rfl⟩
  have hcell : ({ n with regular := some (k, some va) } : Node A K).cell = n.cell := by
    rw [Node.cell, hlater.key, Node.cell]
  change ((s.putValue va v).putNode cur _).cells = _
  rw [cells_putNode, hcell, ← cells_eq (s := s.putValue va v) hn, Function.update_eq_self]
  rfl

end Lists

namespace Effect

variable {hash} {op : Op K V} {x : Commit A} {δ : ℤ}

theorem grows (h : Effect hash op s x δ s') : Grows s s' := by
  cases h with
  | same => exact .refl s
  | countUp => exact ⟨(Grows.refl s).nodes, le_rfl⟩
  | countDown => exact ⟨(Grows.refl s).nodes, le_rfl⟩
  | grow => exact ⟨(Grows.refl s).nodes, Nat.le_succ _⟩
  | array path => exact ⟨(Grows.refl s).nodes, le_rfl⟩
  | bucket i head hi h => exact ⟨(Grows.refl s).nodes, le_rfl⟩
  | dummy i prev new n cur hi hn hnext hfresh hlt hgt =>
    apply (grows_putNew hfresh).trans
    apply grows_setNext
    · rw [nodes_putNode_ne (ne_of_fresh hn hfresh), hn]
    · rw [hnext]
  | item k v prev new va n cur hop hn hnext hfresh hlt hgt =>
    apply ((grows_putValue s va v).trans (grows_putNew hfresh)).trans
    apply grows_setNext
    · rw [nodes_putNode_ne (ne_of_fresh hn hfresh)]
      exact hn
    · rw [hnext]
  | unlink prev cur n next hn hnext hcur =>
    have hset : Grows s (s.setNext prev n ⟨next, false⟩) := grows_setNext hn (by rw [hnext]; rfl) _
    exact ⟨hset.nodes, hset.power⟩
  | mark k cur n next hop hn hnext hkey => exact grows_setNext hn (by rw [hnext]) _
  | exchange k v cur va n p hop hn hreg =>
    have hlater : n.Later { n with regular := some (k, some va) } := ⟨rfl, rfl, by rw [hreg]; rfl, fun _ => rfl⟩
    have hput := (grows_putValue s va v).trans (grows_putNode (s := s.putValue va v) hn hlater)
    exact ⟨hput.nodes, hput.power⟩

theorem nodes (hi : Inv hash s) (h : Effect hash op s x δ s') : ∀ a n, s'.nodes a = some n → WellFormed hash n := by
  cases h with
  | dummy i prev new n cur hi' hn hnext hfresh hlt hgt =>
    apply wellFormed_putNode
    · apply wellFormed_putNode hi.nodes
      exact wellFormed_dummy hi' cur
    · exact (hi.nodes prev n hn).setNext fun _ => rfl
  | item k v prev new va n cur hop hn hnext hfresh hlt hgt =>
    apply wellFormed_putNode
    · apply wellFormed_putNode
      · exact hi.nodes
      · exact wellFormed_regular rfl
    · exact (hi.nodes prev n hn).setNext fun _ => rfl
  | unlink prev cur n next hn hnext hcur =>
    have hset := wellFormed_putNode (s := s) (a := prev) hi.nodes ((hi.nodes prev n hn).setNext (l := ⟨next, false⟩)
      fun _ => rfl)
    exact hset
  | mark k cur n next hop hn hnext hkey =>
    apply wellFormed_putNode hi.nodes
    apply (hi.nodes cur n hn).setNext
    intro hr
    obtain ⟨p, hp⟩ := Node.regular_of_key hkey
    rw [hp] at hr
    cases hr
  | exchange k v cur va n p hop hn hreg =>
    have hput := wellFormed_putNode (s := s.putValue va v) (a := cur) hi.nodes
      (wellFormed_regular (a := va) (l := n.next) ((hi.nodes cur n hn).item k p hreg).1)
    exact hput
  | _ => exact hi.nodes

theorem list (h : Effect hash op s x δ s') {l : List A} (hl : Holds s.cells s.head l) (ho : s.Outside l) :
    ∃ l', Holds s'.cells s'.head l' ∧ s'.Outside l' := by
  have hg := h.grows
  cases h with
  | dummy i prev new n cur hi hn hnext hfresh hlt hgt =>
    obtain ⟨pre, post, rfl, hl'⟩ := holds_link (m := { dummyNode i with next := ⟨cur, false⟩ }) hl hn hnext hfresh rfl hlt hgt
    refine ⟨_, hl', ho.mono hg rfl fun a ha => ?_⟩
    simp only [List.mem_append, List.mem_cons] at ha ⊢
    rcases ha with ha | rfl | rfl | ha <;> simp_all
  | item k v prev new va n cur hop hn hnext hfresh hlt hgt =>
    obtain ⟨pre, post, rfl, hl'⟩ := holds_link (s := s.putValue va v)
      (m := { regularNode (hash k) k (some va) with next := ⟨cur, false⟩ }) hl hn hnext hfresh rfl hlt hgt
    refine ⟨_, hl', ho.mono hg rfl fun a ha => ?_⟩
    simp only [List.mem_append, List.mem_cons] at ha ⊢
    rcases ha with ha | rfl | rfl | ha <;> simp_all
  | unlink prev cur n next hn hnext hcur =>
    obtain ⟨pre, post, rfl, hl'⟩ := holds_unlink hl hn hnext hcur
    obtain ⟨m, hm, -⟩ := hcur
    refine ⟨_, hl', fun a ha => ?_⟩
    by_cases hac : a = cur
    · subst hac
      obtain ⟨m', hm', -⟩ := hg.nodes a m hm
      exact ⟨⟨m', hm'⟩, hl.not_mem_unlinked (cells_eq hm)⟩
    · simp only [retire, Function.update_of_ne hac] at ha
      obtain ⟨⟨m, hm⟩, hnot⟩ := ho a ha
      obtain ⟨m', hm', -⟩ := hg.nodes a m hm
      refine ⟨⟨m', hm'⟩, fun hmem => hnot ?_⟩
      simp only [List.mem_append, List.mem_cons] at hmem ⊢
      tauto
  | mark k cur n next hop hn hnext hkey => exact ⟨l, holds_mark hl hn hnext, ho.mono hg rfl fun a ha => .inl ha⟩
  | exchange k v cur va n p hop hn hreg =>
    refine ⟨l, ?_, ho.mono hg rfl fun a ha => .inl ha⟩
    rw [cells_exchange v va hn hreg]
    exact hl
  | _ => exact ⟨l, hl, ho.mono hg rfl fun a ha => .inl ha⟩

omit [LinearOrder K] [DecidableEq A] in
theorem route_injective {i j : UInt64} (hi : i.toNat < 2 ^ 24) (hj : j.toNat < 2 ^ 24)
    (h : route i 4 = route j 4) : i = j := by
  by_contra hne
  obtain ⟨d, hd, hdigit⟩ := Table.digits_ne hi hj hne
  apply hdigit
  have hsub := List.map_inj_left.mp h (3 - d) (List.mem_range.mpr (by omega))
  rwa [Nat.sub_sub_self (by omega)] at hsub

theorem inv (hi : Inv hash s) (h : Effect hash op s x δ s') : Inv hash s' := by
  obtain ⟨l, hl, ho⟩ := hi.list
  have hnodes := h.nodes hi
  have hlist := h.list hl ho
  have hheads := fun i hi' a ha => (hi.buckets i hi' a ha).mono (h.grows.spares [])
  cases h with
  | array path =>
    refine ⟨hlist, hnodes, hheads, hi.root, fun d hd => ?_⟩
    by_cases hp : route 0 (d + 1) = path
    · simp [hp]
    · simp [hp, hi.rootArrays d hd]
  | bucket i head hi' hhead =>
    refine ⟨hlist, hnodes, fun j hj a ha => ?_, ?_, hi.rootArrays⟩
    · by_cases hr : route j 4 = route i 4
      · obtain rfl := route_injective hj hi' hr
        simp only [Function.update_self, Option.some.injEq] at ha
        exact ha ▸ hhead
      · simp only [Function.update_of_ne hr] at ha
        exact hi.buckets j hj a ha
    · by_cases hr : route 0 4 = route i 4
      · simp [hr]
      · simp [hr, hi.root]
  | _ => exact ⟨hlist, hnodes, hheads, hi.root, hi.rootArrays⟩

end Effect

section Free

variable {hash}

omit [DecidableEq A] in
theorem Inv.retired (hi : Inv hash s) (ha : s.retired a = true) :
    ∃ n, s.nodes a = some n ∧ n.next.marked = true ∧ n.regular ≠ none := by
  obtain ⟨l, hl, ho⟩ := hi.list
  obtain ⟨⟨n, hn⟩, hnot⟩ := ho a ha
  have hm : n.next.marked = true := by
    by_contra hm
    exact hnot (hl.live a n.cell (cells_eq hn) (by simpa [Node.cell] using hm))
  refine ⟨n, hn, hm, fun hr => ?_⟩
  rw [((hi.nodes a n hn).dummy hr).2.2] at hm
  cases hm

theorem Inv.freeNode_spares (hi : Inv hash s) (ha : s.retired a = true) (hR : a ∉ R) : Spares R s (s.freeNode a) := by
  refine ⟨fun b n hn hb => ⟨n, ?_, .refl n⟩⟩
  rw [nodes_freeNode_ne, hn]
  rintro rfl
  obtain ⟨m, hm, -, hr⟩ := hi.retired ha
  rw [hn] at hm
  obtain rfl := Option.some.inj hm
  rcases hb with hb | hb
  · exact hR hb
  · exact hr hb

theorem Inv.freeNode (hi : Inv hash s) (ha : s.retired a = true) : Inv hash (s.freeNode a) := by
  obtain ⟨l, hl, ho⟩ := hi.list
  refine ⟨⟨l, ?_, fun b hb => ?_⟩, fun b n hn => ?_, fun i hi' b hb => ?_, hi.root, hi.rootArrays⟩
  · rw [cells_freeNode]
    exact hl.free (ho a ha).2
  · have hne : b ≠ a := by
      rintro rfl
      simp [Shared.freeNode] at hb
    simp only [Shared.freeNode, Function.update_of_ne hne] at hb
    obtain ⟨⟨n, hn⟩, hnot⟩ := ho b hb
    exact ⟨⟨n, (nodes_freeNode_ne hne).trans hn⟩, hnot⟩
  · by_cases hne : b = a
    · rw [hne, nodes_freeNode_self] at hn
      cases hn
    · rw [nodes_freeNode_ne hne] at hn
      exact hi.nodes b n hn
  · exact (hi.buckets i hi' b hb).mono (hi.freeNode_spares (R := []) ha (List.not_mem_nil))

theorem Inv.freeValue (hi : Inv hash s) (a : A) : Inv hash (s.freeValue a) :=
  ⟨hi.list, hi.nodes, hi.buckets, hi.root, hi.rootArrays⟩

end Free

end Shared

end MetadataService.CT
