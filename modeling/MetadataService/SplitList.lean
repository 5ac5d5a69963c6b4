import MetadataService.SplitTable
import Mathlib.Data.Prod.Lex
import Mathlib.Order.WithBot

namespace MetadataService.CT

open HeapCells

variable {A K V : Type}

@[simp] theorem ok_bind {α β : Type} (a : α) (f : α → Except Fault β) : (Except.ok a >>= f) = f a := rfl

@[simp] theorem pure_eq_ok {α : Type} (a : α) : (pure a : Except Fault α) = .ok a := rfl

namespace Node

variable [LinearOrder K]

def key (n : Node A K) : ℕ ×ₗ WithBot K :=
  toLex (n.reverseHash.toNat, n.regular.elim ⊥ fun e => (e.1 : WithBot K))

def Parity (n : Node A K) : Prop := n.reverseHash.toNat % 2 = if n.isDummy then 0 else 1

theorem less_iff {n₁ n₂ : Node A K} (h₁ : n₁.Parity) (h₂ : n₂.Parity) :
    less n₁ n₂ = true ↔ n₁.key < n₂.key := by
  obtain ⟨hash₁, rev₁, next₁, reg₁⟩ := n₁
  obtain ⟨hash₂, rev₂, next₂, reg₂⟩ := n₂
  rw [key, key, Prod.Lex.toLex_lt_toLex]
  by_cases hr : rev₁ = rev₂
  · subst hr
    cases reg₁ with
    | none =>
      cases reg₂ with
      | none => simp [less]
      | some e₂ =>
        simp only [Parity, isDummy, Option.isNone_none, Option.isNone_some, if_true] at h₁ h₂
        simp at h₂
        omega
    | some e₁ =>
      cases reg₂ with
      | none =>
        simp only [Parity, isDummy, Option.isNone_none, Option.isNone_some, if_true] at h₁ h₂
        simp at h₁
        omega
      | some e₂ => simp [less]
  · have hne : rev₁.toNat ≠ rev₂.toNat := fun h => hr (UInt64.toNat_inj.mp h)
    simp [less, hr, hne, UInt64.lt_iff_toNat_lt]

theorem equals_iff {n₁ n₂ : Node A K} (h₁ : n₁.Parity) (h₂ : n₂.Parity) :
    equals n₁ n₂ = true ↔ n₁.key = n₂.key := by
  rw [equals, Bool.and_eq_true, Bool.not_eq_true', Bool.not_eq_true', ← Bool.not_eq_true,
    ← Bool.not_eq_true, less_iff h₁ h₂, less_iff h₂ h₁, not_lt, not_lt]
  exact ⟨fun h => le_antisymm h.2 h.1, fun h => ⟨h.ge, h.le⟩⟩

end Node

def orderKey (hash : K → UInt64) (k : K) : ℕ ×ₗ WithBot K :=
  toLex ((regularKey (hash k)).toNat, (k : WithBot K))

inductive Entry (A K V : Type)
  | bucket (a : A) (b : UInt64)
  | item (a : A) (k : K) (va : A) (v : V)

namespace Entry

def addr : Entry A K V → A
  | bucket a _ => a
  | item a _ _ _ => a

def ref (x : Entry A K V) : Link A := .ref x.addr

def isItem : Entry A K V → Bool
  | bucket _ _ => false
  | item _ _ _ _ => true

def itemKey : Entry A K V → Option K
  | bucket _ _ => none
  | item _ k _ _ => some k

@[simp] theorem isItem_bucket (a : A) (b : UInt64) : (bucket a b : Entry A K V).isItem = false := rfl

@[simp] theorem isItem_item (a : A) (k : K) (va : A) (v : V) : (item a k va v).isItem = true := rfl

variable (hash : K → UInt64)

def node : Entry A K V → Link A → Node A K
  | bucket _ b, p => { dummyNode b with next := p }
  | item _ k va _, p => { regularNode (hash k) k (some va) with next := p }

def valueCells : Entry A K V → List (A × Obj A K V)
  | bucket _ _ => []
  | item _ _ va v => [(va, .value v)]

def cells (x : Entry A K V) (p : Link A) : List (A × Obj A K V) :=
  (x.addr, .node (x.node hash p)) :: x.valueCells

def key (x : Entry A K V) : ℕ ×ₗ WithBot K := (x.node hash .null).key

def Valid : Entry A K V → Prop
  | bucket _ b => b.toNat < 2 ^ 63
  | item _ _ _ _ => True

variable {hash} {x : Entry A K V}

@[simp] theorem node_next (x : Entry A K V) (p : Link A) : (x.node hash p).next = p := by
  cases x <;> rfl

theorem node_with_next (x : Entry A K V) (p q : Link A) :
    { x.node hash p with next := q } = x.node hash q := by
  cases x <;> rfl

@[simp] theorem node_key (x : Entry A K V) (p : Link A) : (x.node hash p).key = x.key hash := by
  cases x <;> rfl

theorem node_parity (hash : K → UInt64) (hx : x.Valid) (p : Link A) : (x.node hash p).Parity := by
  cases x with
  | bucket a b => exact dummyKey_even hx
  | item a k va v => exact regularKey_odd (hash k)

theorem eq_bucket_of_key {a : A} {b : UInt64} (hx : x.Valid) (hb : b.toNat < 2 ^ 63)
    (h : x.key hash = (bucket a b : Entry A K V).key hash) : x = bucket x.addr b := by
  have hrev := congrArg (fun q => (ofLex q).1) h
  cases x with
  | bucket a' b' =>
    have hkey : dummyKey b' = dummyKey b := UInt64.toNat_inj.mp hrev
    rw [reverse_injective hkey]
    rfl
  | item a' k va v =>
    have hodd := regularKey_odd (hash k)
    have heven := dummyKey_even hb
    have hkey : (regularKey (hash k)).toNat = (dummyKey b).toNat := hrev
    omega

theorem eq_item_of_key {k : K} (hx : x.Valid) (h : x.key hash = orderKey hash k) :
    ∃ a' va' v', x = item a' k va' v' := by
  cases x with
  | bucket a' b =>
    have hrev := congrArg (fun q => (ofLex q).1) h
    have hodd := regularKey_odd (hash k)
    have heven := dummyKey_even hx
    have hkey : (dummyKey b).toNat = (regularKey (hash k)).toNat := hrev
    omega
  | item a' k' va' v' =>
    have hsnd := congrArg (fun q => (ofLex q).2) h
    obtain rfl : k' = k := WithBot.coe_injective hsnd
    exact ⟨a', va', v', rfl⟩

theorem eq_item_of_itemKey {k : K} (h : x.itemKey = some k) : ∃ a va v, x = item a k va v := by
  cases x with
  | bucket a b => cases h
  | item a k' va v =>
    obtain rfl : k' = k := Option.some.inj h
    exact ⟨a, va, v, rfl⟩

theorem key_eq_of_itemKey {y : Entry A K V} {k : K} (hx : x.itemKey = some k) (hy : y.itemKey = some k) :
    x.key hash = y.key hash := by
  obtain ⟨a, va, v, rfl⟩ := eq_item_of_itemKey hx
  obtain ⟨a', va', v', rfl⟩ := eq_item_of_itemKey hy
  rfl

theorem length_itemKeys (l : List (Entry A K V)) :
    (l.filterMap itemKey).length = (l.filter isItem).length := by
  induction l with
  | nil => rfl
  | cons x l ih =>
    cases x with
    | bucket a b => exact ih
    | item a k va v => exact congrArg Nat.succ ih

variable [LinearOrder K]

theorem key_bucket_lt {a a' : A} {b b' : UInt64} (h : dummyKey b < dummyKey b') :
    (bucket a b : Entry A K V).key hash < (bucket a' b' : Entry A K V).key hash := by
  rw [key, key, Node.key, Node.key, Prod.Lex.toLex_lt_toLex]
  exact Or.inl (UInt64.lt_iff_toNat_lt.mp h)

theorem key_bucket_lt_item {a : A} {b : UInt64} {k : K} (h : dummyKey b < regularKey (hash k)) :
    (bucket a b : Entry A K V).key hash < orderKey hash k := by
  rw [key, orderKey, Node.key, Prod.Lex.toLex_lt_toLex]
  exact Or.inl (UInt64.lt_iff_toNat_lt.mp h)

end Entry

inductive Garbage (A K V : Type)
  | value (a : A) (v : V)
  | entry (x : Entry A K V) (p : Link A)

namespace Garbage

def waiting : Garbage A K V → A × DeleteFunc
  | value a _ => (a, .deleteValue)
  | entry x _ => (x.addr, .onDeleteNode)

def cells (hash : K → UInt64) : Garbage A K V → List (A × Obj A K V)
  | value a v => [(a, .value v)]
  | entry x p => x.cells hash p

end Garbage

def listCells (hash : K → UInt64) (l : List (Entry A K V)) (e : Link A) : List (A × Obj A K V) :=
  chainCells Entry.ref (Entry.cells hash) l e

abbrev headLink (l : List (Entry A K V)) : Link A := headRef Entry.ref l .null

theorem headLink_eq (l : List (Entry A K V)) : headLink l = ⟨l.head?.map Entry.addr, false⟩ := by
  cases l <;> rfl

theorem headLink_cons (x : Entry A K V) (l : List (Entry A K V)) : headLink (x :: l) = x.ref := rfl

theorem listCells_cons (hash : K → UInt64) (x : Entry A K V) (l : List (Entry A K V)) :
    listCells hash (x :: l) .null = x.cells hash (headLink l) ++ listCells hash l .null := rfl

theorem listCells_split (hash : K → UInt64) (pre : List (Entry A K V)) (x : Entry A K V)
    (post : List (Entry A K V)) :
    listCells hash (pre ++ x :: post) .null =
      listCells hash pre x.ref ++ (x.cells hash (headLink post) ++ listCells hash post .null) := by
  rw [listCells, chainCells_append]
  rfl

variable [LinearOrder K]

/-- The list `l`, the garbage `g` and the other cells `f` are all there is in use, and the reclaimer
waits for the garbage. -/
structure Listed [DecidableEq A] (hash : K → UInt64) (h : Heap A (Obj A K V))
    (waiting : List (A × DeleteFunc)) (l : List (Entry A K V)) (g : List (Garbage A K V))
    (f : List (A × Obj A K V)) : Prop where
  owns : Owns h (listCells hash l .null ++ (g.flatMap (Garbage.cells hash) ++ f))
  sorted : l.Pairwise fun x y => x.key hash < y.key hash
  valid : ∀ x ∈ l, x.Valid
  waits : waiting = g.map Garbage.waiting

variable [DecidableEq A] {hash : K → UInt64} {h : Heap A (Obj A K V)} {waiting : List (A × DeleteFunc)}
  {l pre post : List (Entry A K V)} {g : List (Garbage A K V)} {f : List (A × Obj A K V)}
  {x y : Entry A K V}

omit [LinearOrder K] in
theorem nodeAt_of_lookup {a : A} {n : Node A K} (hl : h.lookup a = some (.node n)) : nodeAt h a = .ok n := by
  rw [nodeAt, hl]

theorem Listed.nodeAt (w : Listed hash h waiting (pre ++ x :: post) g f) :
    nodeAt h x.addr = .ok (x.node hash (headLink post)) := by
  apply nodeAt_of_lookup
  apply w.owns.lookup
  rw [listCells_split]
  simp [Entry.cells]

theorem Listed.valueAt {a va : A} {k : K} {v : V}
    (w : Listed hash h waiting (pre ++ .item a k va v :: post) g f) : valueAt h va = .ok v := by
  have hlookup : h.lookup va = some (.value v) := by
    apply w.owns.lookup
    rw [listCells_split]
    simp [Entry.cells, Entry.valueCells]
  rw [CT.valueAt, hlookup]

def HandleOk (r : Reclaimer A DeleteFunc) (hp : HazardPointer) : Prop :=
  ∀ i, hp.index = some i → i < r.slots.length

omit [DecidableEq A] in
theorem handleOk_null (r : Reclaimer A DeleteFunc) : HandleOk r .null := by
  intro i hi
  cases hi

omit [DecidableEq A] in
theorem HandleOk.mono {r r' : Reclaimer A DeleteFunc} {hp : HazardPointer} (hok : HandleOk r hp)
    (hle : r.slots.length ≤ r'.slots.length) : HandleOk r' hp :=
  fun i hi => Nat.lt_of_lt_of_le (hok i hi) hle

def SameList (t t' : Table A K V) : Prop :=
  ∃ r, t' = { t with reclaimer := r } ∧ r.reclaimMap = t.reclaimer.reclaimMap

omit [DecidableEq A] [LinearOrder K] in
theorem SameList.heap {t t' : Table A K V} (hs : SameList t t') : t'.heap = t.heap := by
  obtain ⟨r, rfl, -⟩ := hs
  rfl

omit [DecidableEq A] [LinearOrder K] in
theorem SameList.refl (t : Table A K V) : SameList t t := ⟨t.reclaimer, rfl, rfl⟩

omit [DecidableEq A] [LinearOrder K] in
theorem SameList.trans {t t' t'' : Table A K V} (hs : SameList t t') (hs' : SameList t' t'') :
    SameList t t'' := by
  obtain ⟨r, rfl, hr⟩ := hs
  obtain ⟨r', rfl, hr'⟩ := hs'
  exact ⟨r', rfl, hr'.trans hr⟩

namespace Table

omit [DecidableEq A] [LinearOrder K] in
theorem unMark_ok {t : Table A K V} {hp : HazardPointer} (hok : HandleOk t.reclaimer hp) :
    ∃ t', t.unMark hp = .ok t' ∧ SameList t t' ∧
      t'.reclaimer.slots.length = t.reclaimer.slots.length := by
  obtain ⟨ix⟩ := hp
  cases ix with
  | none => exact ⟨t, rfl, .refl t, rfl⟩
  | some i =>
    refine ⟨{ t with reclaimer := t.reclaimer.storeAt i none }, ?_, ⟨_, rfl, by simp⟩, ?_⟩
    · simp [unMark, HazardPointer.unMark, Reclaimer.unMarkHazard_some (hok i rfl)]
    · simp [Reclaimer.storeAt_slots]

omit [DecidableEq A] [LinearOrder K] in
theorem release_ok {t : Table A K V} {prevHp curHp : HazardPointer} (hprev : HandleOk t.reclaimer prevHp)
    (hcur : HandleOk t.reclaimer curHp) : ∃ t', t.release prevHp curHp = .ok t' ∧ SameList t t' := by
  obtain ⟨u, hu, hsame, hlen⟩ := unMark_ok hcur
  obtain ⟨t', ht', hsame', -⟩ := unMark_ok (hprev.mono hlen.ge)
  exact ⟨t', by rw [release, hu, ok_bind, ht'], hsame.trans hsame'⟩

omit [LinearOrder K] [DecidableEq A] in
theorem release_of_slots {t u : Table A K V} {prevHp curHp : HazardPointer}
    (hslots : u.reclaimer.slots = t.reclaimer.slots) (hprev : HandleOk t.reclaimer prevHp)
    (hcur : HandleOk t.reclaimer curHp) :
    ∃ u', u.release prevHp curHp = .ok u' ∧ SameList u u' := by
  have hlen : t.reclaimer.slots.length ≤ u.reclaimer.slots.length := by rw [hslots]
  exact release_ok (hprev.mono hlen) (hcur.mono hlen)

end Table

omit [DecidableEq A] in
theorem mark_ok (r : Reclaimer A DeleteFunc) (p : Option A) :
    HandleOk (HazardPointer.mark r p).1 (HazardPointer.mark r p).2 ∧
      r.slots.length ≤ (HazardPointer.mark r p).1.slots.length := by
  cases p with
  | none => exact ⟨handleOk_null r, Nat.le_refl _⟩
  | some p =>
    obtain ⟨i, hi, ⟨hempty, hset⟩ | ⟨rfl, happ⟩⟩ := r.markHazard_slots p
    · have hlt := (List.getElem?_eq_some_iff.mp hempty).1
      constructor
      · intro j hj
        rw [HazardPointer.mark, hi, Option.some.injEq] at hj
        rw [HazardPointer.mark, hset, List.length_set, ← hj]
        exact hlt
      · rw [HazardPointer.mark, hset, List.length_set]
    · constructor
      · intro j hj
        rw [HazardPointer.mark, hi, Option.some.injEq] at hj
        rw [HazardPointer.mark, happ, ← hj]
        simp
      · rw [HazardPointer.mark, happ]
        simp

namespace Table.Cursor

structure At (t : Table A K V) (c : Cursor A K V) (x : Entry A K V) (l : List (Entry A K V)) : Prop where
  same : SameList t c.table
  prev : c.prev = x.addr
  cur : headLink l = ⟨c.cur, false⟩
  prevHp : HandleOk c.table.reclaimer c.prevHp
  curHp : HandleOk c.table.reclaimer c.curHp

variable {t : Table A K V} {c : Cursor A K V}

omit [LinearOrder K] [DecidableEq A] in
theorem At.mark (hat : At t c x l) : ∃ c', c.mark = .ok c' ∧ At t c' x l ∧ c'.cur = c.cur := by
  obtain ⟨u, hu, hsame, hlen⟩ := unMark_ok hat.curHp
  obtain ⟨hok, hle⟩ := mark_ok u.reclaimer c.cur
  let marked := HazardPointer.mark u.reclaimer c.cur
  refine ⟨{ c with table := { u with reclaimer := marked.1 }, curHp := marked.2 }, ?_,
    ⟨?_, hat.prev, hat.cur, ?_, hok⟩, rfl⟩
  · rw [Cursor.mark, hu]
    rfl
  · apply (hat.same.trans hsame).trans
    exact ⟨marked.1, rfl, Reclaimer.markHazard_reclaimMap ..⟩
  · exact hat.prevHp.mono (Nat.le_trans hlen.ge hle)

omit [LinearOrder K] in
theorem At.adjacent (hat : At t c x l) (hx : nodeAt t.heap x.addr = .ok (x.node hash (headLink l))) :
    c.adjacent = .ok true := by
  have hp : nodeAt c.table.heap c.prev = .ok (x.node hash (headLink l)) := by
    rw [hat.same.heap, hat.prev, hx]
  simp [Cursor.adjacent, hp, hat.cur]

theorem At.step_nil (head : A) (search : Node A K) (hat : At t c x [])
    (hx : nodeAt t.heap x.addr = .ok (x.node hash .null)) :
    ∃ c', c.step head search = .ok (.inr (c', false)) ∧ At t c' x [] := by
  obtain ⟨c', hmark, hat', -⟩ := hat.mark
  have hcur : c'.cur = none := (congrArg Link.ptr hat'.cur).symm
  refine ⟨c', ?_, hat'⟩
  simp [Cursor.step, hmark, hat'.adjacent hx, hcur]

theorem At.step_stop (head : A) {search : Node A K} (hat : At t c x (y :: l))
    (hx : nodeAt t.heap x.addr = .ok (x.node hash (headLink (y :: l))))
    (hy : nodeAt t.heap y.addr = .ok (y.node hash (headLink l)))
    (hless : (y.node hash (headLink l)).less search = false) :
    ∃ c', c.step head search = .ok (.inr (c', (y.node hash (headLink l)).equals search)) ∧
      At t c' x (y :: l) := by
  obtain ⟨c', hmark, hat', -⟩ := hat.mark
  have hcur : c'.cur = some y.addr := (congrArg Link.ptr hat'.cur).symm
  have hnode : nodeAt c'.table.heap y.addr = .ok (y.node hash (headLink l)) := by
    rw [hat'.same.heap, hy]
  have hunmarked : (headLink l).marked = false := by rw [headLink_eq]
  refine ⟨c', ?_, hat'⟩
  simp [Cursor.step, hmark, hat'.adjacent hx, hcur, hnode, hunmarked, Node.greaterOrEquals, hless]

theorem At.step_next (head : A) {search : Node A K} (hat : At t c x (y :: l))
    (hx : nodeAt t.heap x.addr = .ok (x.node hash (headLink (y :: l))))
    (hy : nodeAt t.heap y.addr = .ok (y.node hash (headLink l)))
    (hless : (y.node hash (headLink l)).less search = true) :
    ∃ c', c.step head search = .ok (.inl c') ∧ At t c' y l := by
  obtain ⟨c', hmark, hat', -⟩ := hat.mark
  have hcur : c'.cur = some y.addr := (congrArg Link.ptr hat'.cur).symm
  have hnode : nodeAt c'.table.heap y.addr = .ok (y.node hash (headLink l)) := by
    rw [hat'.same.heap, hy]
  have hunmarked : (headLink l).marked = false := by rw [headLink_eq]
  refine ⟨c'.advance y.addr (headLink l), ?_, ⟨hat'.same, rfl, ?_, hat'.curHp, hat'.prevHp⟩⟩
  · simp [Cursor.step, hmark, hat'.adjacent hx, hcur, hnode, hunmarked, Node.greaterOrEquals, hless]
  · rw [headLink_eq]
    rfl

structure Ends (t : Table A K V) (hash : K → UInt64) (k : ℕ ×ₗ WithBot K) (c : Cursor A K V) (found : Bool)
    (x : Entry A K V) (l : List (Entry A K V)) : Prop where
  here : At t c x l
  below : x.key hash < k
  hit : found = true → ∃ y post, l = y :: post ∧ y.key hash = k
  miss : found = false → ∀ y ∈ l.head?, k < y.key hash

theorem At.loop (head : A) {search : Node A K} (hs : search.Parity) (hat : At t c x l)
    (hnodes : ∀ pre y post, x :: l = pre ++ y :: post →
      y.Valid ∧ nodeAt t.heap y.addr = .ok (y.node hash (headLink post)))
    (hx : x.key hash < search.key) {fuel : ℕ} (hfuel : l.length < fuel) :
    ∃ c' found pre y post, x :: l = pre ++ y :: post ∧ c.loop head search fuel = .ok (c', found) ∧
      Ends t hash search.key c' found y post := by
  induction l generalizing c x fuel with
  | nil =>
    obtain ⟨fuel, rfl⟩ := Nat.exists_eq_add_one_of_ne_zero (Nat.ne_zero_of_lt hfuel)
    obtain ⟨c', hstep, hat'⟩ := hat.step_nil head search (hnodes [] x [] rfl).2
    refine ⟨c', false, [], x, [], rfl, ?_, hat', hx, ?_, ?_⟩
    · simp [Cursor.loop, hstep]
    · intro h
      cases h
    · intro _ y hy
      cases hy
  | cons y l ih =>
    obtain ⟨fuel, rfl⟩ := Nat.exists_eq_add_one_of_ne_zero (Nat.ne_zero_of_lt hfuel)
    have hxn := (hnodes [] x (y :: l) rfl).2
    obtain ⟨hvalid, hyn⟩ := hnodes [x] y l rfl
    have hparity := Entry.node_parity hash hvalid (headLink l)
    cases hless : (y.node hash (headLink l)).less search with
    | true =>
      obtain ⟨c', hstep, hat'⟩ := hat.step_next head hxn hyn hless
      have hy : y.key hash < search.key := by
        rw [← Entry.node_key y (headLink l)]
        exact (Node.less_iff hparity hs).mp hless
      have htail : ∀ pre z post, y :: l = pre ++ z :: post →
          z.Valid ∧ nodeAt t.heap z.addr = .ok (z.node hash (headLink post)) := by
        intro pre z post hsplit
        exact hnodes (x :: pre) z post (by rw [hsplit]; rfl)
      obtain ⟨c'', found, pre, z, post, hsplit, hloop, hend⟩ :=
        ih hat' htail hy (Nat.lt_of_succ_lt_succ hfuel)
      refine ⟨c'', found, x :: pre, z, post, by rw [hsplit]; rfl, ?_, hend⟩
      simp [Cursor.loop, hstep, hloop]
    | false =>
      obtain ⟨c', hstep, hat'⟩ := hat.step_stop head hxn hyn hless
      have hle : search.key ≤ y.key hash := by
        rw [← Entry.node_key y (headLink l), ← not_lt, ← Node.less_iff hparity hs, hless]
        exact Bool.false_ne_true
      have hequals := Node.equals_iff hparity hs
      rw [Entry.node_key] at hequals
      refine ⟨c', (y.node hash (headLink l)).equals search, [], x, y :: l, rfl, ?_, hat', hx, ?_, ?_⟩
      · simp only [Cursor.loop, hstep, ok_bind]
        rfl
      · intro hfound
        exact ⟨y, l, rfl, hequals.mp hfound⟩
      · intro hmissed z hz
        obtain rfl : y = z := Option.some.inj hz
        apply lt_of_le_of_ne hle
        intro heq
        rw [hequals.mpr heq.symm] at hmissed
        cases hmissed

end Table.Cursor

namespace Table

variable {t : Table A K V} {search : Node A K} {prevHp curHp : HazardPointer}

theorem searchNode_ends (w : Listed hash t.heap waiting (pre ++ x :: post) g f) (hs : search.Parity)
    (hx : x.key hash < search.key) (hprev : HandleOk t.reclaimer prevHp) (hcur : HandleOk t.reclaimer curHp)
    {fuel : ℕ} (hfuel : post.length < fuel) :
    ∃ c found pre' y post', pre ++ x :: post = pre' ++ y :: post' ∧
      t.searchNode fuel x.addr search prevHp curHp = .ok (c, found) ∧
      Cursor.Ends t hash search.key c found y post' := by
  have hunmarked : (headLink post).marked = false := by rw [headLink_eq]
  have hat : Cursor.At t ⟨t, x.addr, (headLink post).ptr, prevHp, curHp⟩ x post :=
    ⟨.refl t, rfl, by rw [headLink_eq], hprev, hcur⟩
  have hnodes : ∀ pre' y post', x :: post = pre' ++ y :: post' →
      y.Valid ∧ nodeAt t.heap y.addr = .ok (y.node hash (headLink post')) := by
    intro pre' y post' hsplit
    have w' := w
    rw [hsplit, ← List.append_assoc] at w'
    exact ⟨w'.valid y (by simp), w'.nodeAt⟩
  obtain ⟨c, found, pre', y, post', hsplit, hloop, hend⟩ := hat.loop x.addr hs hnodes hx hfuel
  refine ⟨c, found, pre ++ pre', y, post', by rw [hsplit, List.append_assoc], ?_, hend⟩
  rw [searchNode, Cursor.tryAgain]
  simp only [w.nodeAt, ok_bind, Entry.node_next, hunmarked]
  exact hloop

end Table

end MetadataService.CT
