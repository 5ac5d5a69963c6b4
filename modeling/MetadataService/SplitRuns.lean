import MetadataService.SplitItems
import Mathlib.Order.Lattice.Nat

namespace MetadataService.CT

open HeapCells

variable {A K V : Type} [LinearOrder K]

inductive Op (K V : Type)
  | insert (k : K) (v : V)
  | delete (k : K)
  | find (k : K)

/-- What `Insert` and `Delete` return, and the value that `Find` stores if it returns true. -/
inductive Answer (V : Type)
  | inserted (isNew : Bool)
  | deleted (wasThere : Bool)
  | found (v : Option V)
  deriving DecidableEq

namespace Contents

def apply (m : Contents K V) : Op K V → Contents K V
  | .insert k v => m.insert k v
  | .delete k => m.erase k
  | .find _ => m

def answer (m : Contents K V) : Op K V → Answer V
  | .insert k _ => .inserted (m.lookup k).isNone
  | .delete k => .deleted (m.lookup k).isSome
  | .find k => .found (m.lookup k)

def after (m : Contents K V) (ops : List (Op K V)) : Contents K V := ops.foldl apply m

def answers (m : Contents K V) : List (Op K V) → List (Answer V)
  | [] => []
  | op :: ops => m.answer op :: (m.apply op).answers ops

end Contents

namespace Table

variable [DecidableEq A] (alloc : Allocator A) (hash : K → UInt64)

def exec (fuel : ℕ) (t : Table A K V) : Op K V → Except Fault (Table A K V × Answer V)
  | .insert k v => do
    let (t, isNew) ← t.insert alloc hash fuel k v
    return (t, .inserted isNew)
  | .delete k => do
    let (t, wasThere) ← t.delete alloc hash fuel k
    return (t, .deleted wasThere)
  | .find k => do
    let (t, v) ← t.find alloc hash fuel k
    return (t, .found v)

def run (fuel : ℕ) (t : Table A K V) : List (Op K V) → Except Fault (Table A K V × List (Answer V))
  | [] => .ok (t, [])
  | op :: ops => do
    let (t, answer) ← t.exec alloc hash fuel op
    let (t, answers) ← run fuel t ops
    return (t, answer :: answers)

variable {hash} {t : Table A K V} {m : Contents K V} {l : List (Entry A K V)} {g : List (Garbage A K V)}

-- The node and its value are allocated before the bucket is looked for, so they are the frame meanwhile.
theorem insert_ok (r : t.Refines hash m l g []) (k : K) (v : V) {fuel : ℕ}
    (hfuel : l.length + kMaxBucketSize ≤ fuel) :
    (∃ t' l' g', t.insert alloc hash fuel k v = .ok (t', (m.lookup k).isNone) ∧
        t'.Refines hash (m.insert k v) l' g' [] ∧ l'.length ≤ l.length + (kMaxBucketSize + 1)) ∨
      (t.insert alloc hash fuel k v = .error .bucketSize ∧ 2 ^ 23 < (m.insert k v).keys.card) := by
  let na := alloc.pick t.heap.keys
  let h₁ := setNode t.heap na (regularNode (hash k) k none)
  let va := alloc.pick h₁.keys
  let h₂ := setNode (Finmap.insert va (.value v) h₁) na (regularNode (hash k) k (some va))
  have w₁ := r.inv.holds.alloc (alloc.fresh t.heap.keys) (.node (regularNode (hash k) k none))
  have w₂ := (w₁.alloc (alloc.fresh h₁.keys) (.value v)).frame_perm (List.Perm.swap ..)
  have w₃ : Listed hash h₂ t.reclaimer.reclaimMap l g ((Entry.item na k va v).cells hash .null ++ []) :=
    w₂.write (.node (regularNode (hash k) k (some va)))
  have r₃ : Refines { t with heap := h₂ } hash m l g ((Entry.item na k va v).cells hash .null ++ []) :=
    r.congr w₃ ⟨rfl, rfl, rfl⟩
  obtain ⟨t₁, a, d, l₁, hhead, r₁, hmem, hlt, hlen⟩ := r₃.head alloc k hfuel
  have hinsert : t.insert alloc hash fuel k v = t₁.insertRegularNode fuel a na := by
    rw [insert]
    simp only [h₂, va, h₁, na] at hhead ⊢
    rw [hhead]
    rfl
  rw [hinsert]
  obtain ⟨t', l', g', hrun, r', hlen'⟩ | herror :=
    insertRegularNode_ok r₁ hmem hlt (by omega : l₁.length ≤ fuel)
  · exact Or.inl ⟨t', l', g', hrun, r', by omega⟩
  · exact Or.inr herror

theorem delete_ok (r : t.Refines hash m l g []) (k : K) {fuel : ℕ}
    (hfuel : l.length + kMaxBucketSize ≤ fuel) :
    ∃ t' l' g', t.delete alloc hash fuel k = .ok (t', (m.lookup k).isSome) ∧
      t'.Refines hash (m.erase k) l' g' [] ∧ l'.length ≤ l.length + (kMaxBucketSize + 1) := by
  obtain ⟨t₁, a, d, l₁, hhead, r₁, hmem, hlt, hlen⟩ := r.head alloc k hfuel
  obtain ⟨t', l', g', hrun, r', hlen'⟩ := deleteNode_ok r₁ hmem hlt (by omega : l₁.length ≤ fuel)
  refine ⟨t', l', g', ?_, r', by omega⟩
  rw [delete, hhead]
  exact hrun

theorem find_ok (r : t.Refines hash m l g []) (k : K) {fuel : ℕ}
    (hfuel : l.length + kMaxBucketSize ≤ fuel) :
    ∃ t' l' g', t.find alloc hash fuel k = .ok (t', m.lookup k) ∧
      t'.Refines hash m l' g' [] ∧ l'.length ≤ l.length + (kMaxBucketSize + 1) := by
  obtain ⟨t₁, a, d, l₁, hhead, r₁, hmem, hlt, hlen⟩ := r.head alloc k hfuel
  obtain ⟨t', g', hrun, r'⟩ := findNode_ok r₁ hmem hlt (by omega : l₁.length ≤ fuel)
  refine ⟨t', l₁, g', ?_, r', by omega⟩
  rw [find, hhead]
  exact hrun

theorem exec_ok (r : t.Refines hash m l g []) (op : Op K V) {fuel : ℕ}
    (hfuel : l.length + kMaxBucketSize ≤ fuel) :
    (∃ t' l' g', t.exec alloc hash fuel op = .ok (t', m.answer op) ∧
        t'.Refines hash (m.apply op) l' g' [] ∧ l'.length ≤ l.length + (kMaxBucketSize + 1)) ∨
      (t.exec alloc hash fuel op = .error .bucketSize ∧ 2 ^ 23 < (m.apply op).keys.card) := by
  cases op with
  | insert k v =>
    obtain ⟨t', l', g', hrun, r', hlen⟩ | ⟨hrun, hcard⟩ := insert_ok alloc r k v hfuel
    · exact Or.inl ⟨t', l', g', by rw [exec, hrun]; rfl, r', hlen⟩
    · exact Or.inr ⟨by rw [exec, hrun]; rfl, hcard⟩
  | delete k =>
    obtain ⟨t', l', g', hrun, r', hlen⟩ := delete_ok alloc r k hfuel
    exact Or.inl ⟨t', l', g', by rw [exec, hrun]; rfl, r', hlen⟩
  | find k =>
    obtain ⟨t', l', g', hrun, r', hlen⟩ := find_ok alloc r k hfuel
    exact Or.inl ⟨t', l', g', by rw [exec, hrun]; rfl, r', hlen⟩

-- By induction on the calls: each makes the list longer by at most all buckets and one item, which
-- bounds the rounds of every search.
theorem run_ok (r : t.Refines hash m l g []) (ops : List (Op K V)) {fuel : ℕ}
    (hfuel : l.length + (ops.length + 1) * (kMaxBucketSize + 1) ≤ fuel) :
    (∃ t' l' g', t.run alloc hash fuel ops = .ok (t', m.answers ops) ∧
        t'.Refines hash (m.after ops) l' g' []) ∨
      (t.run alloc hash fuel ops = .error .bucketSize ∧
        ∃ pre, pre <+: ops ∧ 2 ^ 23 < (m.after pre).keys.card) := by
  induction ops generalizing t m l g with
  | nil => exact Or.inl ⟨t, l, g, rfl, r⟩
  | cons op ops ih =>
    rw [List.length_cons, Nat.succ_mul] at hfuel
    obtain ⟨t₁, l₁, g₁, hexec, r₁, hlen⟩ | ⟨hexec, hcard⟩ := exec_ok alloc r op (by omega : _ ≤ fuel)
    · obtain ⟨t', l', g', hrun, r'⟩ | ⟨hrun, pre, hpre, hcard⟩ := ih r₁ (by omega)
      · left
        refine ⟨t', l', g', ?_, r'⟩
        rw [run, hexec, ok_bind]
        dsimp only
        rw [hrun]
        rfl
      · right
        refine ⟨?_, op :: pre, List.cons_prefix_cons.mpr ⟨rfl, hpre⟩, hcard⟩
        rw [run, hexec, ok_bind]
        dsimp only
        rw [hrun]
        rfl
    · right
      refine ⟨?_, [op], List.cons_prefix_cons.mpr ⟨rfl, List.nil_prefix⟩, hcard⟩
      rw [run, hexec]
      rfl

theorem new_refines (cells : List (InternalHazardPointer A)) (globalSize : ℕ) :
    (new alloc (Reclaimer.new cells globalSize) : Table A K V).Refines hash ∅
      [.bucket (alloc.pick ∅) 0] [] [] := by
  let head := alloc.pick ∅
  let top : RadixTree 64 A 4 := some fun _ => RadixTree.null 3
  have hget : ∀ b : UInt64, b.toNat < kMaxBucketSize → b ≠ 0 →
      (new alloc (Reclaimer.new cells globalSize) : Table A K V).getBucketHeadByIndex b = none := by
    intro b hb hne
    calc RadixTree.get 4 (RadixTree.set 4 (RadixTree.alloc 4 top (digits 0)) (digits 0) head) (digits b)
      _ = RadixTree.get 4 (RadixTree.alloc 4 top (digits 0)) (digits b) :=
        RadixTree.get_set_ne 4 _ (digits_ne hb (by decide) hne) head
      _ = RadixTree.get 4 top (digits b) := RadixTree.get_alloc 4 top (digits 0) (digits b)
      _ = none := RadixTree.get_null 3 (digits b)
  have hroot : (new alloc (Reclaimer.new cells globalSize) : Table A K V).getBucketHeadByIndex 0 = some head :=
    RadixTree.get_set_alloc 4 top (digits 0) head
  refine ⟨⟨⟨?_, List.pairwise_singleton .., ?_, rfl⟩, ?_, ⟨head, hroot⟩⟩, ?_, rfl,
    ⟨le_refl 1, Nat.le_add_left 1 23⟩, Nat.zero_le _⟩
  · exact (Owns.nil ∅).alloc (Finset.notMem_empty head) (Obj.node (dummyNode 0))
  · intro x hx
    rw [List.mem_singleton] at hx
    subst hx
    exact (by decide : (0 : UInt64).toNat < 2 ^ 63)
  · intro b a hb ha
    by_cases hne : b = 0
    · subst hne
      rw [hroot, Option.some.injEq] at ha
      exact ha ▸ List.mem_singleton_self _
    · rw [hget b hb hne] at ha
      cases ha
  · intro k v
    rw [Finmap.lookup_empty]
    constructor
    · intro h
      cases h
    · rintro ⟨a, va, hmem⟩
      cases List.mem_singleton.mp hmem

theorem run_refines (cells : List (InternalHazardPointer A)) (globalSize : ℕ) (ops : List (Op K V)) :
    ∃ rounds, ∀ fuel ≥ rounds,
      (∃ t, (new alloc (Reclaimer.new cells globalSize)).run alloc hash fuel ops =
          .ok (t, Contents.answers ∅ ops) ∧
        t.size = (Contents.after ∅ ops).keys.card ∧ t.bucketSize ≤ kMaxBucketSize) ∨
      ((new alloc (Reclaimer.new cells globalSize)).run alloc hash fuel ops = .error .bucketSize ∧
        ∃ pre, pre <+: ops ∧ 2 ^ 23 < (Contents.after ∅ pre).keys.card) := by
  refine ⟨1 + (ops.length + 1) * (kMaxBucketSize + 1), ?_⟩
  intro fuel hfuel
  obtain ⟨t, l, g, hrun, r⟩ | herror := run_ok alloc (new_refines alloc cells globalSize) ops hfuel
  · left
    refine ⟨t, hrun, r.size, ?_⟩
    have hpow : 2 ^ t.powerOf2 ≤ 2 ^ 24 := Nat.pow_le_pow_right (by decide) r.power.2
    exact hpow
  · exact Or.inr herror

def counting : Allocator ℕ where
  pick s := s.sup id + 1
  fresh _ h := Nat.not_succ_le_self _ (Finset.le_sup (f := id) h)

example : ((new counting (Reclaimer.new [] 0) : Table ℕ ℕ ℕ).run counting Nat.toUInt64 40
    [.insert 3 5, .insert 1 1, .insert 2 8, .insert 3 6, .find 3, .delete 3, .find 3]).toOption.map Prod.snd =
      some [.inserted true, .inserted true, .inserted true, .inserted false, .found (some 6),
        .deleted true, .found none] := by
  decide +kernel

end Table

end MetadataService.CT
