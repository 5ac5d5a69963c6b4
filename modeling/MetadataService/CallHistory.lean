import MetadataService.SlotContents

namespace MetadataService.MemStore

open ByteMemory LinkedChain Loops

/-- What a call leaves under a key of a table, given what was there; `val` says what a call leaves under
its own key. -/
def Op.after {α : Type} (val : Op → Option α) (op : Op) (i : ℕ) (key : UInt64) (old : Option α) : Option α :=
  if op.target = some (i, key) then val op else old

def latest {α : Type} (val : Op → Option α) (h : List (Op × Reply)) (i : ℕ) (key : UInt64) : Option α :=
  h.foldl (fun old e => e.1.after val i key old) none

variable {α : Type} {val : Op → Option α} {g : DataItem → α}

theorem Op.after_other {op : Op} {i : ℕ} {key : UInt64} (h : op.target ≠ some (i, key)) (old : Option α) :
    op.after val i key old = old :=
  if_neg h

theorem latest_append (h : List (Op × Reply)) (op : Op) (r : Reply) (i : ℕ) (key : UInt64) :
    latest val (h ++ [(op, r)]) i key = op.after val i key (latest val h i key) := by
  rw [latest, List.foldl_append]
  rfl

namespace MemoryNode

variable {n n' : MemoryNode} {C C' : UInt64 → List UInt64} {s : HashStore} {h : List (Op × Reply)}
  {op : Op} {r : Reply} {i : ℕ} {p key : UInt64} {e : DataItem}

structure Agrees (val : Op → Option α) (g : DataItem → α) (h : List (Op × Reply)) (n : MemoryNode)
    (C : UInt64 → List UInt64) : Prop where
  item : ∀ i s key, n.table i = .ok s →
    (lookup n.mem (C (s.bucket (s.getHash key))) key).map (fun p => g (itemAt n.mem p)) =
      latest val h i key
  beyond : ∀ i key, n.tables.length ≤ i → latest val h i key = none

def Tracks (val : Op → Option α) (g : DataItem → α) (n : MemoryNode) : Op → Prop
  | .build _ _ => True
  | .insert i key d => val (.insert i key d) = some (g { d with valid := 1 })
  | .put i key d => d.valid = 1 ∧ val (.put i key d) = some (g d)
  | .load i key v stack => ∀ s p, n.table i = .ok s →
    val (.load i key v stack) = some (g (s.loadedItem p s.tableId v key stack))
  | .delete i key => val (.delete i key) = none

theorem Agrees.lookup_none (A : Agrees val g h n C) (hs : n.table i = .ok s)
    (hl : latest val h i key = none) :
    lookup n.mem (C (s.bucket (s.getHash key))) key = none := by
  have hi := A.item i s key hs
  rw [hl] at hi
  exact Option.map_eq_none_iff.mp hi

theorem SameShapes.length_eq (h : SameShapes n n') : n'.tables.length = n.tables.length := by
  have hl := congrArg List.length h
  simpa only [List.length_map] using hl

theorem table_lt (hs : n.table i = .ok s) : i < n.tables.length :=
  (List.getElem?_eq_some_iff.mp (table_ok.mp hs)).1

theorem Layout.home_ne (L : Layout n C) {j : ℕ} {t : HashStore} {k : UInt64} (ht : n.table j = .ok t)
    (hs : n.table i = .ok s) (hne : (j, k) ≠ (i, key)) :
    t.bucket (t.getHash k) = s.bucket (s.getHash key) → k ≠ key := by
  intro heq hk
  have hb := HashStore.getHash_lt (L.area t (table_mem ht)).pos k
  have hc := HashStore.getHash_lt (L.area s (table_mem hs)).pos key
  exact hne (by rw [(L.bucket_index ht hs hb hc heq).1, hk])

theorem Agrees.stored (A : Agrees val g h n C) (L : Layout n C) (L' : Layout n' C') (hs : n.table i = .ok s)
    (S : Stored n n' C C' (s.bucket (s.getHash key)) p e)
    (W : Writes n C (s.bucket (s.getHash key)) p key e) (ht : op.target = some (i, key))
    (hv : val op = if e.valid = 0 then none else some (g e)) :
    Agrees val g (h ++ [(op, r)]) n' C' := by
  have ha := L.root_mem (table_mem hs) key
  constructor
  · intro j t' k ht'
    obtain ⟨t, htj, he⟩ := S.shapes.symm.table ht'
    rw [latest_append, ← HashStore.bucket_shape he, ← HashStore.getHash_shape he]
    by_cases hjk : (j, k) = (i, key)
    · obtain ⟨rfl, rfl⟩ := Prod.mk.inj hjk
      obtain rfl := Except.ok.inj (htj.symm.trans hs)
      rw [S.lookup_self W ha, Op.after, if_pos ht, hv]
      split_ifs
      · rfl
      · rw [Option.map_some, S.item]
    · have hne := L.home_ne htj hs hjk
      have hb := L.root_mem (table_mem htj) k
      have hother : op.target ≠ some (j, k) := by
        rw [ht]
        exact fun h => hjk (Option.some.inj h).symm
      rw [Op.after_other hother, ← A.item j t k htj, S.lookup_other L' W.before W.after ha hb hne]
      exact Option.map_congr fun q hq => congrArg g (S.item_other L' W.before ha hb hne hq)
  · intro j k hj
    rw [S.shapes.length_eq] at hj
    have hother : op.target ≠ some (j, k) := by
      rw [ht]
      intro h
      obtain ⟨rfl, -⟩ := Prod.mk.inj (Option.some.inj h)
      exact absurd (table_lt hs) (Nat.not_lt.mpr hj)
    rw [latest_append, Op.after_other hother]
    exact A.beyond j k hj

theorem Agrees.built (A : Agrees val g h n C) (L : Layout n C) (B : Built n n' C C' s)
    (ht : ∀ i key, op.target ≠ some (i, key)) : Agrees val g (h ++ [(op, r)]) n' C' := by
  constructor
  · intro j t k htj
    rw [latest_append, Op.after_other (ht j k)]
    have hmem := table_ok.mp htj
    rw [B.tables] at hmem
    rcases Nat.lt_or_ge j n.tables.length with hj | hj
    · rw [List.getElem?_append_left hj] at hmem
      have htj := table_ok.mpr hmem
      have hb := L.root_mem (table_mem htj) k
      rw [← A.item j t k htj, B.kept _ hb]
      have hl : lookup n'.mem (C (t.bucket (t.getHash k))) k =
          lookup n.mem (C (t.bucket (t.getHash k))) k := by
        apply List.find?_congr
        intro q hq
        rw [B.item _ hb q hq]
      rw [hl]
      exact Option.map_congr fun q hq => congrArg g (B.item _ hb q (lookup_some hq).1)
    · rw [A.beyond j k hj]
      have hlen : j < n.tables.length + 1 := by
        obtain ⟨hlt, -⟩ := List.getElem?_eq_some_iff.mp hmem
        simpa only [List.length_append, List.length_singleton] using hlt
      obtain rfl : j = n.tables.length := by omega
      rw [List.getElem?_concat_length] at hmem
      obtain rfl := Option.some.inj hmem
      apply Option.map_eq_none_iff.mpr
      apply List.find?_eq_none.mpr
      intro q hq
      have hh : s.bucket (s.getHash k) ∈ s.heads := ⟨_, HashStore.getHash_lt B.pos k, rfl⟩
      rw [B.head _ hh, slots, List.flatMap_singleton] at hq
      rw [holds_of_invalid (B.empty _ hh q hq)]
      exact Bool.false_ne_true
  · intro j k hj
    rw [B.tables, List.length_append, List.length_singleton] at hj
    rw [latest_append, Op.after_other (ht j k)]
    exact A.beyond j k (by omega)

theorem valid_one {d : DataItem} (h : d.valid = 1) : { d with valid := 1 } = d := by
  rw [← h]

theorem Agrees.step (A : Agrees val g h n C) (K : Keyed n C) (L : Layout n C) (L' : Layout n' C')
    (hp : Proper n C op) (ht : Tracks val g n op) (hE : Effect n n' C C' op r) :
    Agrees val g (h ++ [(op, r)]) n' C' := by
  cases hE with
  | build _ hB => exact A.built L hB fun _ _ h => by cases h
  | insert hs hS hfree => exact A.stored L L' hs hS (writes_new (hp.2 _ hs) hfree hp.1) rfl ht
  | putOld hs hl hS =>
    have W := K.writes_old (L.root_mem (table_mem hs) _) hl fun _ => hp
    apply A.stored L L' hs hS W rfl
    rw [ht.1]
    exact ht.2
  | putNew hs hl hS hfree =>
    rw [valid_one ht.1] at hS
    apply A.stored L L' hs hS (writes_new hl hfree hp) rfl
    rw [ht.1]
    exact ht.2
  | load hs hS hfree => exact A.stored L L' hs hS (writes_new (hp _ hs) hfree rfl) rfl (ht _ _ hs)
  | deleteOld hs hl hS =>
    exact A.stored L L' hs hS (K.writes_delete (L.root_mem (table_mem hs) _) hl) rfl ht
  | @deleteNone i key s hs hl hn hC =>
    subst hn hC
    have hnone : latest val h i key = none := by rw [← A.item i s key hs, hl]; rfl
    have hsame (j : ℕ) (k : UInt64) : latest val (h ++ [(.delete i key, .deleted false)]) j k =
        latest val h j k := by
      rw [latest_append, Op.after]
      split_ifs with hjk
      · obtain ⟨rfl, rfl⟩ := Prod.mk.inj (Option.some.inj hjk)
        rw [hnone]
        exact ht
      · rfl
    refine ⟨fun j t k htj => ?_, fun j k hj => ?_⟩
    · rw [A.item j t k htj, hsame]
    · rw [hsame]
      exact A.beyond j k hj

theorem Fresh.table_ne (hf : Fresh n) (i : ℕ) (s : HashStore) : n.table i ≠ .ok s := by
  intro hs
  have hmem := table_mem hs
  rw [hf.tables] at hmem
  exact List.not_mem_nil hmem

theorem Fresh.keyed (hf : Fresh n) (C : UInt64 → List UInt64) : Keyed n C := by
  constructor
  · intro s hs
    obtain ⟨i, hi⟩ := table_of_mem hs
    exact absurd hi (hf.table_ne i s)
  · rintro a ⟨s, hs, -⟩
    obtain ⟨i, hi⟩ := table_of_mem hs
    exact absurd hi (hf.table_ne i s)

theorem Fresh.agrees (hf : Fresh n) (C : UInt64 → List UInt64) : Agrees val g [] n C :=
  ⟨fun i s _ hs => absurd hs (hf.table_ne i s), fun _ _ _ => rfl⟩

end MemoryNode

end MetadataService.MemStore
