import MetadataService.SplitAtomicity
import Mathlib.Data.Int.ModEq
import Mathlib.Data.Set.Card

namespace MetadataService.CT.Shared

open MarkedList Threads

variable {A K V : Type}

def Marked (s : Shared A K V) (a : A) : Prop := ∃ n, s.nodes a = some n ∧ n.next.marked = true

def itemKey (s : Shared A K V) (a : A) : Option K := (s.nodes a).bind fun n => n.regular.map Prod.fst

def itemKeys (s : Shared A K V) (l : List A) : List K := l.filterMap s.itemKey

variable {hash : K → UInt64} {op : Op K V} {s s' : Shared A K V} {l l' : List A}
  {a b : A} {n : Node A K} {x : Commit A} {δ : ℤ}

theorem itemKey_eq (hn : s.nodes a = some n) : s.itemKey a = n.regular.map Prod.fst := by
  rw [itemKey, hn]
  rfl

theorem itemKeys_later (g : Spares l s s') (h : ∀ a ∈ l, s.Stored a) : s'.itemKeys l = s.itemKeys l := by
  apply List.filterMap_congr
  intro a ha
  obtain ⟨n, hn⟩ := h a ha
  obtain ⟨n', hn', hl⟩ := g.nodes a n hn (.inl ha)
  rw [itemKey_eq hn, itemKey_eq hn', hl.regular]

variable [LinearOrder K]

omit [LinearOrder K] in
theorem stored_of_holds [LinearOrder K] (h : Holds s.cells s.head l) : ∀ a ∈ l, s.Stored a := by
  intro a ha
  obtain ⟨c, hc⟩ := h.threaded.stored ha
  obtain ⟨n, hn, -⟩ := of_cells hc
  exact ⟨n, hn⟩

variable [DecidableEq A]

omit [LinearOrder K] in
theorem marked_putNode (h : (s.putNode b n).Marked a) : (a = b ∧ n.next.marked = true) ∨ s.Marked a := by
  obtain ⟨m, hm, hmark⟩ := h
  by_cases hab : a = b
  · subst hab
    simp only [putNode, Function.update_self, Option.some.injEq] at hm
    exact .inl ⟨rfl, hm ▸ hmark⟩
  · rw [nodes_putNode_ne hab] at hm
    exact .inr ⟨m, hm, hmark⟩

omit [LinearOrder K] in
theorem marked_setNext {m : Link A} (h : (s.setNext b n m).Marked a) (hm : m.marked = false) : s.Marked a := by
  rcases marked_putNode h with ⟨-, hmark⟩ | h
  · rw [hm] at hmark
    cases hmark
  · exact h

theorem marked_link {prev new : A} {m : Node A K} {o : Option A} (hl : Holds s.cells s.head l)
    (hn : s.nodes prev = some n) (hnext : n.next = ⟨o, false⟩) (hfresh : s.nodes new = none)
    (hm : m.next = ⟨o, false⟩) (hlt : n.key < m.key) (hgt : s.Above o m.key)
    (hl' : Holds ((s.putNode new m).setNext prev n (.ref new)).cells s.head l') (ha : a ∈ l')
    (hmark : ((s.putNode new m).setNext prev n (.ref new)).Marked a) : a ∈ l ∧ s.Marked a := by
  obtain ⟨pre, post, rfl, hlink⟩ := holds_link hl hn hnext hfresh hm hlt hgt
  obtain rfl := hl'.threaded.unique hlink.threaded
  have hold : s.Marked a := by
    rcases marked_putNode (marked_setNext hmark rfl) with ⟨-, hnew⟩ | hold
    · rw [hm] at hnew
      cases hnew
    · exact hold
  refine ⟨?_, hold⟩
  have hne : a ≠ new := by
    obtain ⟨e, he, -⟩ := hold
    exact ne_of_fresh he hfresh
  simp only [List.mem_append, List.mem_cons] at ha ⊢
  tauto

theorem Effect.marked (h : Effect hash op s x δ s') (hl : Holds s.cells s.head l) (hl' : Holds s'.cells s'.head l')
    (ha : a ∈ l') (hm : s'.Marked a) : (a ∈ l ∧ s.Marked a) ∨ x = .mark a := by
  cases h with
  | dummy i prev new n cur hi hn hnext hfresh hlt hgt =>
    exact .inl (marked_link (m := { dummyNode i with next := ⟨cur, false⟩ }) hl hn hnext hfresh rfl hlt hgt hl' ha hm)
  | item k v prev new va n cur hop hn hnext hfresh hlt hgt =>
    exact .inl (marked_link (s := s.putValue va v)
      (m := { regularNode (hash k) k (some va) with next := ⟨cur, false⟩ }) hl hn hnext hfresh rfl hlt hgt hl' ha hm)
  | unlink prev cur n next hn hnext hcur =>
    obtain ⟨pre, post, rfl, hunlink⟩ := holds_unlink hl hn hnext hcur
    obtain rfl := hl'.threaded.unique hunlink.threaded
    have hm : (s.setNext prev n ⟨next, false⟩).Marked a := hm
    refine .inl ⟨?_, marked_setNext hm rfl⟩
    simp only [List.mem_append, List.mem_cons] at ha ⊢
    tauto
  | mark k cur n next hop hn hnext hkey =>
    obtain rfl := hl'.threaded.unique (holds_mark hl hn hnext).threaded
    rcases marked_putNode hm with ⟨rfl, -⟩ | hold
    · exact .inr rfl
    · exact .inl ⟨ha, hold⟩
  | exchange k v cur va n p hop hn hreg =>
    rw [cells_exchange v va hn hreg] at hl'
    obtain rfl := hl.threaded.unique hl'.threaded
    refine .inl ⟨ha, ?_⟩
    have hm : ((s.putValue va v).putNode cur { n with regular := some (k, some va) }).Marked a := hm
    rcases marked_putNode hm with ⟨rfl, hmark⟩ | hold
    · exact ⟨n, hn, hmark⟩
    · exact hold
  | _ =>
    obtain rfl := hl.threaded.unique hl'.threaded
    exact .inl ⟨ha, hm⟩

section Counting

omit [LinearOrder K] [DecidableEq A] in
theorem length_itemKeys (s : Shared A K V) (pre post : List A) (a : A) :
    (s.itemKeys (pre ++ a :: post)).length = (s.itemKeys (pre ++ post)).length + (s.itemKey a).toList.length := by
  cases h : s.itemKey a with
  | none => simp [itemKeys, h]
  | some k =>
    simp [itemKeys, h]
    omega

theorem length_itemKeys_link {prev new : A} {m : Node A K} {o : Option A} (hl : Holds s.cells s.head l)
    (hn : s.nodes prev = some n) (hnext : n.next = ⟨o, false⟩) (hfresh : s.nodes new = none)
    (hm : m.next = ⟨o, false⟩) (hlt : n.key < m.key) (hgt : s.Above o m.key)
    (hl' : Holds ((s.putNode new m).setNext prev n (.ref new)).cells s.head l') :
    (((s.putNode new m).setNext prev n (.ref new)).itemKeys l').length =
      (s.itemKeys l).length + (m.regular.map Prod.fst).toList.length := by
  have hstored := stored_of_holds hl
  obtain ⟨pre, post, rfl, hlink⟩ := holds_link hl hn hnext hfresh hm hlt hgt
  obtain rfl := hl'.threaded.unique hlink.threaded
  have hprev : (s.putNode new m).nodes prev = some n := by
    rw [nodes_putNode_ne (ne_of_fresh hn hfresh), hn]
  have g : Grows s ((s.putNode new m).setNext prev n (.ref new)) :=
    (grows_putNew hfresh).trans (grows_setNext hprev (by rw [hnext]) _)
  have hnew : ((s.putNode new m).setNext prev n (.ref new)).nodes new = some m := by
    rw [setNext, nodes_putNode_ne (ne_of_fresh hn hfresh).symm]
    simp [putNode]
  rw [List.append_cons, length_itemKeys, ← List.append_cons, itemKeys_later (g.spares _) hstored, itemKey_eq hnew]

theorem length_itemKeys_unlink {prev cur : A} {next : Option A} (hi : Inv hash s)
    (hl : Holds s.cells s.head l) (hn : s.nodes prev = some n) (hnext : n.next = .ref cur)
    (hcur : s.Frozen cur next) (hl' : Holds (s.setNext prev n ⟨next, false⟩).cells s.head l') :
    (s.itemKeys l).length = (((s.setNext prev n ⟨next, false⟩).retire cur).itemKeys l').length + 1 := by
  have hstored := stored_of_holds hl
  obtain ⟨pre, post, rfl, hunlink⟩ := holds_unlink hl hn hnext hcur
  obtain rfl := hl'.threaded.unique hunlink.threaded
  obtain ⟨m, hm, hfrozen⟩ := hcur
  obtain ⟨k, hk⟩ : ∃ k, s.itemKey cur = some k := by
    rw [itemKey_eq hm]
    cases hr : m.regular with
    | none =>
      have hmark := ((hi.nodes cur m hm).dummy hr).2.2
      rw [hfrozen] at hmark
      cases hmark
    | some e => exact ⟨e.1, rfl⟩
  have hset : Grows s (s.setNext prev n ⟨next, false⟩) := grows_setNext hn (by rw [hnext]; rfl) _
  have g : Grows s ((s.setNext prev n ⟨next, false⟩).retire cur) := ⟨hset.nodes, hset.power⟩
  rw [List.append_cons, length_itemKeys, ← List.append_cons, hk, itemKeys_later (g.spares _)]
  · rfl
  · intro a ha
    apply hstored
    simp only [List.mem_append, List.mem_cons] at ha ⊢
    tauto

theorem toNat_succ_modEq (x : UInt64) : ((x + 1).toNat : ℤ) ≡ x.toNat + 1 [ZMOD 2 ^ 64] := by
  rw [UInt64.toNat_add]
  push_cast
  exact Int.mod_modEq _ _

theorem Effect.balance (hi : Inv hash s) (h : Effect hash op s x δ s') (hl : Holds s.cells s.head l)
    (hl' : Holds s'.cells s'.head l') :
    ((s'.itemKeys l').length : ℤ) - s'.size.toNat ≡ (s.itemKeys l).length - s.size.toNat + δ [ZMOD 2 ^ 64] := by
  cases h with
  | countUp =>
    obtain rfl := hl.threaded.unique hl'.threaded
    have hsize := (toNat_succ_modEq s.size).sub_left (s.itemKeys l).length
    rw [← sub_sub, sub_eq_add_neg _ (1 : ℤ)] at hsize
    exact hsize
  | countDown =>
    obtain rfl := hl.threaded.unique hl'.threaded
    have hsize := (toNat_succ_modEq (s.size - 1)).sub_left ((s.itemKeys l).length + 1)
    rw [sub_add_cancel, add_sub_add_right_eq_sub, add_sub_right_comm] at hsize
    exact hsize.symm
  | dummy i prev new n cur hi hn hnext hfresh hlt hgt =>
    have hlen := length_itemKeys_link (m := { dummyNode i with next := ⟨cur, false⟩ }) hl hn hnext hfresh rfl hlt hgt hl'
    rw [hlen, add_zero]
    rfl
  | item k v prev new va n cur hop hn hnext hfresh hlt hgt =>
    have hlen := length_itemKeys_link (s := s.putValue va v)
      (m := { regularNode (hash k) k (some va) with next := ⟨cur, false⟩ }) hl hn hnext hfresh rfl hlt hgt hl'
    rw [hlen, Nat.cast_add, add_sub_right_comm]
    rfl
  | unlink prev cur n next hn hnext hcur =>
    rw [length_itemKeys_unlink hi hl hn hnext hcur hl', Nat.cast_add, add_sub_right_comm, Nat.cast_one,
      add_neg_cancel_right]
    rfl
  | mark k cur n next hop hn hnext hkey =>
    obtain rfl := hl'.threaded.unique (holds_mark hl hn hnext).threaded
    rw [itemKeys_later ((grows_setNext hn (by rw [hnext]) _).spares _) (stored_of_holds hl), add_zero]
    rfl
  | exchange k v cur va n p hop hn hreg =>
    have heffect : Effect hash op s .none 0 _ := .exchange k v cur va n p hop hn hreg
    rw [cells_exchange v va hn hreg] at hl'
    obtain rfl := hl.threaded.unique hl'.threaded
    rw [itemKeys_later (heffect.grows.spares _) (stored_of_holds hl), add_zero]
    rfl
  | _ =>
    have hsame (z : ℤ) : z ≡ z + 0 [ZMOD 2 ^ 64] := by rw [add_zero]
    obtain rfl := hl.threaded.unique hl'.threaded
    exact hsame _

end Counting

section Owners

variable {ch : Choice A V}

omit [DecidableEq A] in
theorem not_mem_passed {prev : A} {o : Option A} {κ : ℕ ×ₗ WithBot K} (hl : Holds s.cells s.head l)
    (hk : s.HasKey a κ) (hn : s.nodes prev = some n) (hlt : n.key < κ) (hnext : n.next = ⟨o, false⟩)
    (ho : ∀ b, o = some b → b ≠ a ∧ ∃ m, s.nodes b = some m ∧ κ ≤ m.key) : a ∉ l := by
  obtain ⟨m, hm, hkey⟩ := hk
  apply hl.not_mem_between (cells_eq hn) _ (cells_eq hm) _
  · intro b e hb he
    obtain ⟨hne, m', hm', hle⟩ := ho b (by rw [← hb, Node.cell, hnext])
    rw [cells_eq hm'] at he
    rw [← Option.some.inj he]
    exact ⟨hkey.trans_le hle, hne⟩
  · rw [Node.cell, hnext]
  · exact hlt.trans_eq hkey.symm

def SearchPoint.HasSeen (a : A) : SearchPoint A → Prop
  | .revalidate _ cur _ => cur = a
  | _ => False

variable (hash) in
/-- The calls that have to see the marked node `a` unlinked: the one that is about to unlink it, and the
searches for its key that `DeleteNode` makes when it did not succeed. A search that has seen `a` before it
was marked is not one of them. -/
inductive Owes (s : Shared A K V) (a : A) : Control A K V → Prop
  | unlink (op : Op K V) (head prev : A) (next : Option A) : Owes s a (.running op (.unlink head prev a next))
  | cleanup (op : Op K V) (head : A) (q : SearchPoint A) (hk : s.HasKey a (orderKey hash (opKey op)))
    (hq : ¬ q.HasSeen a) : Owes s a (.running op (.search (.cleanup head) q))

omit [LinearOrder K] [DecidableEq A] in
theorem Owes.mono {c : Control A K V} (h : Owes hash s a c) (g : Spares [a] s s') : Owes hash s' a c := by
  cases h with
  | unlink op head prev next => exact .unlink op head prev next
  | cleanup op head q hk hq => exact .cleanup op head q (hk.mono List.mem_cons_self g) hq

theorem searchStep_owes (hi : Inv hash s) {head : A} {q : SearchPoint A} (ht : s.TaskOk hash op (.cleanup head))
    (hs : s.SearchOk (searchNode hash op (.cleanup head)).key q) (hl : Holds s.cells s.head l) (ha : a ∈ l)
    (hm : s.Marked a) (hk : s.HasKey a (orderKey hash (opKey op))) (hq : ¬ q.HasSeen a) :
    Owes hash (s.searchStep hash op (.cleanup head) q).1 a
      (.running op (s.searchStep hash op (.cleanup head) q).2) := by
  have hagain : Owes hash s a (.running op (.search (.cleanup head) .tryAgain)) :=
    .cleanup op head _ hk id
  have hg := (searchStep_outcome hi ht hs).effect.grows
  cases q with
  | tryAgain =>
    obtain ⟨i, ⟨n, hn, -⟩, -⟩ := ht.isHead
    simp only [searchStep, hn]
    exact .cleanup op head _ hk id
  | validate prev cur =>
    obtain ⟨⟨n, hn, hlt⟩, hc⟩ := hs
    obtain ⟨o, marked⟩ := cur
    obtain rfl : marked = false := hc
    simp only [searchStep, hn]
    split
    · exact hagain
    · rename_i hnext
      cases o with
      | none =>
        have hleft := not_mem_passed hl hk hn hlt (not_not.mp hnext) fun b hb => by cases hb
        exact absurd ha hleft
      | some b => exact .cleanup op head _ hk id
  | readNext prev cur =>
    obtain ⟨-, n, hn⟩ := hs
    simp only [searchStep, hn]
    split
    · exact .cleanup op head _ hk id
    · rename_i hmark
      refine .cleanup op head _ hk ?_
      rintro rfl
      obtain ⟨m, hm, hmarked⟩ := hm
      rw [hn] at hm
      obtain rfl := Option.some.inj hm
      exact hmark hmarked
  | unlink prev cur next =>
    obtain ⟨⟨n, hn, -⟩, -⟩ := hs
    simp only [searchStep, hn] at hg ⊢
    split
    · rename_i hnext
      rw [if_pos hnext] at hg
      exact .cleanup op head _ (hk.mono List.mem_cons_self (hg.spares [a])) id
    · exact hagain
  | countDown prev next => exact .cleanup op head _ hk id
  | revalidate prev cur next =>
    obtain ⟨⟨n, hn, hlt⟩, m, hcur⟩ := hs
    have hless := Node.less_iff (hi.nodes cur m hcur).parity ht.parity
    simp only [searchStep, hn, hcur]
    split
    · exact hagain
    · rename_i hnext
      split
      · rename_i hge
        have hle : orderKey hash (opKey op) ≤ m.key := by
          rw [← not_lt]
          intro hlt
          rw [Node.greaterOrEquals, hless.mpr hlt] at hge
          cases hge
        refine absurd ha (not_mem_passed hl hk hn hlt (not_not.mp hnext) ?_)
        rintro b ⟨⟩
        exact ⟨hq, m, hcur, hle⟩
      · exact .cleanup op head _ hk id

theorem exec_owes (hi : Inv hash s) {p : Point A V} (hp : s.Local hash op p) (hl : Holds s.cells s.head l)
    (ha : a ∈ l) (hm : s.Marked a) (ho : Owes hash s a (.running op p))
    (hl' : Holds (s.exec hash ch op p).1.cells (s.exec hash ch op p).1.head l') (ha' : a ∈ l') :
    Owes hash (s.exec hash ch op p).1 a (.running op (s.exec hash ch op p).2) := by
  cases ho with
  | unlink _ head prev next =>
    obtain ⟨ht, ⟨n, hn, -⟩, hfrozen, hk⟩ := hp
    simp only [exec, hn] at hl' ⊢
    split
    · rename_i hnext
      rw [if_pos hnext] at hl'
      obtain ⟨pre, post, rfl, hunlink⟩ := holds_unlink hl hn hnext hfrozen
      obtain rfl := hl'.threaded.unique hunlink.threaded
      obtain ⟨m, hcur, -⟩ := hfrozen
      exact absurd ha' (hl.not_mem_unlinked (cells_eq hcur))
    · exact .cleanup op head _ hk id
  | cleanup _ head q hk hq => exact searchStep_owes hi hp.1 hp.2 hl ha hm hk hq

end Owners

section Runs

def Control.owed : Control A K V → ℤ
  | .idle _ => 0
  | .running _ p => p.owed

variable {c c' : Control A K V}

omit [LinearOrder K] in
theorem freeNode_spares_list [LinearOrder K] (hi : Inv hash s) (hl : Holds s.cells s.head l) (hr : s.retired a = true) :
    Spares l s (s.freeNode a) := by
  obtain ⟨l₀, hl₀, ho⟩ := hi.list
  obtain rfl := hl.threaded.unique hl₀.threaded
  exact hi.freeNode_spares hr (ho a hr).2

theorem freeNode_list (hi : Inv hash s) (hl : Holds s.cells s.head l) (hr : s.retired a = true)
    (hl' : Holds (s.freeNode a).cells (s.freeNode a).head l') : l = l' := by
  obtain ⟨l₀, hl₀, ho⟩ := hi.list
  obtain rfl := hl.threaded.unique hl₀.threaded
  have hfree := hl.free (ho a hr).2
  rw [← cells_freeNode] at hfree
  exact hfree.threaded.unique hl'.threaded

theorem Step.balance (hi : Inv hash s) (hpow : s.powerOf2 ≤ 24) (ha : s.Asserts hash c)
    (h : Step hash (s, c) (s', c')) (hl : Holds s.cells s.head l) (hl' : Holds s'.cells s'.head l') :
    ((s'.itemKeys l').length : ℤ) - s'.size.toNat ≡
      (s.itemKeys l).length - s.size.toNat + (c'.owed - c.owed) [ZMOD 2 ^ 64] := by
  have hsame (z δ : ℤ) : z ≡ z + (δ - δ) [ZMOD 2 ^ 64] := by rw [sub_self, add_zero]
  cases h with
  | call _ last op =>
    obtain rfl := hl.threaded.unique hl'.threaded
    exact hsame _ 0
  | exec _ op p ch hf => exact (exec_outcome hi hpow ha hf).effect.balance hi hl hl'
  | answer _ op a =>
    obtain rfl := hl.threaded.unique hl'.threaded
    exact hsame _ 0
  | freeNode _ _ a hr =>
    obtain rfl := freeNode_list hi hl hr hl'
    rw [itemKeys_later (freeNode_spares_list hi hl hr) (stored_of_holds hl)]
    exact hsame _ _
  | freeValue _ _ a hr =>
    obtain rfl := hl.threaded.unique hl'.threaded
    exact hsame _ _

omit [LinearOrder K] [DecidableEq A] in
theorem Point.marked_of_commit {p q : Point A V} (h : p.commit q = .mark a) : q.marked = some a := by
  rw [commit] at h
  split at h
  · cases h
  · split at h
    · rename_i b hb
      cases h
      exact hb
    · cases h

omit [LinearOrder K] [DecidableEq A] in
theorem owes_of_marked {p : Point A V} (h : p.marked = some a) : Owes hash s a (.running op p) := by
  cases p with
  | unlink head prev cur next =>
    obtain rfl : cur = a := Option.some.inj h
    exact .unlink op head prev next
  | _ => cases h

theorem Step.owners (hi : Inv hash s) (hpow : s.powerOf2 ≤ 24) (hc : s.Asserts hash c)
    (h : Step hash (s, c) (s', c')) (hl : Holds s.cells s.head l) (hl' : Holds s'.cells s'.head l')
    (ha : a ∈ l') (hm : s'.Marked a) :
    Owes hash s' a c' ∨ (a ∈ l ∧ s.Marked a ∧ ¬ Owes hash s a c ∧ Spares [a] s s') := by
  cases h with
  | call _ last op =>
    obtain rfl := hl.threaded.unique hl'.threaded
    exact .inr ⟨ha, hm, nofun, (Grows.refl s).spares _⟩
  | exec _ op p ch hf =>
    have heffect := (exec_outcome hi hpow hc hf).effect
    rcases heffect.marked hl hl' ha hm with ⟨hmem, hold⟩ | hx
    · by_cases ho : Owes hash s a (.running op p)
      · exact .inl (exec_owes hi hc hl hmem hold ho hl' ha)
      · exact .inr ⟨hmem, hold, ho, heffect.grows.spares _⟩
    · exact .inl (owes_of_marked (Point.marked_of_commit hx))
  | answer _ op r =>
    obtain rfl := hl.threaded.unique hl'.threaded
    exact .inr ⟨ha, hm, nofun, (Grows.refl s).spares _⟩
  | freeNode _ _ b hr =>
    obtain rfl := freeNode_list hi hl hr hl'
    have hspares := freeNode_spares_list hi hl hr
    have hone : Spares [a] s (s.freeNode b) :=
      ⟨fun x n hn hx => hspares.nodes x n hn (hx.imp_left fun hx => by rwa [List.mem_singleton.mp hx])⟩
    have hold : s.Marked a := by
      obtain ⟨n, hn, hmark⟩ := hm
      obtain ⟨m, hm⟩ := stored_of_holds hl a ha
      obtain ⟨m', hm', -⟩ := hone.nodes a m hm (.inl List.mem_cons_self)
      have hne : a ≠ b := by
        rintro rfl
        rw [nodes_freeNode_self] at hn
        cases hn
      rw [nodes_freeNode_ne hne] at hn
      exact ⟨n, hn, hmark⟩
    by_cases ho : Owes hash s a c
    · exact .inl (ho.mono hone)
    · exact .inr ⟨ha, hold, ho, hone⟩
  | freeValue _ _ b hr =>
    obtain rfl := hl.threaded.unique hl'.threaded
    have hsame : Spares [a] s (s.freeValue b) := ⟨fun x n hn _ => ⟨n, hn, .refl n⟩⟩
    by_cases ho : Owes hash s a c
    · exact .inl (ho.mono hsame)
    · exact .inr ⟨ha, hm, ho, hsame⟩

variable {T : Type*} [DecidableEq T] {head : A} {d : Threads T (Shared A K V) (Control A K V)}

theorem Run.balance [Fintype T] (h : Run hash head d) (hpow : d.shared.powerOf2 ≤ 24)
    (hl : Holds d.shared.cells d.shared.head l) :
    ((d.shared.itemKeys l).length : ℤ) - d.shared.size.toNat ≡ ∑ t, (d.point t).owed [ZMOD 2 ^ 64] := by
  induction h generalizing l with
  | refl =>
    obtain rfl := hl.threaded.unique (new_holds head).threaded
    have hitem : (new head : Shared A K V).itemKeys [head] = [] := by simp [itemKeys, itemKey, new, dummyNode]
    have howed : ∑ t : T, ((start (new head) (.idle none) : Threads T (Shared A K V) (Control A K V)).point t).owed = 0 :=
      Finset.sum_eq_zero fun _ _ => rfl
    rw [howed]
    change (((new head : Shared A K V).itemKeys [head]).length : ℤ) - (0 : UInt64).toNat ≡ 0 [ZMOD 2 ^ 64]
    rw [hitem]
    rfl
  | @tail d e hd hm ih =>
    obtain ⟨⟨t, s, c, hp, rfl⟩, -⟩ := hm
    have hle : d.shared.powerOf2 ≤ 24 := le_trans hp.powerOf2 hpow
    obtain ⟨hi, ha⟩ := Run.spec hd hle
    obtain ⟨l₀, hl₀, -⟩ := hi.list
    rw [sum_set]
    exact (hp.balance hi hle (ha t) hl₀ hl).trans ((ih hle hl₀).add_right _)

theorem Run.owners (h : Run hash head d) (hpow : d.shared.powerOf2 ≤ 24)
    (hl : Holds d.shared.cells d.shared.head l) (ha : a ∈ l) (hm : d.shared.Marked a) :
    ∃ t, Owes hash d.shared a (d.point t) := by
  induction h generalizing l with
  | refl =>
    obtain ⟨n, hn, hmark⟩ := hm
    obtain ⟨-, rfl⟩ := new_nodes hn
    cases hmark
  | @tail d e hd hmove ih =>
    obtain ⟨⟨t, s, c, hp, rfl⟩, -⟩ := hmove
    have hle : d.shared.powerOf2 ≤ 24 := le_trans hp.powerOf2 hpow
    obtain ⟨hi, hassert⟩ := Run.spec hd hle
    obtain ⟨l₀, hl₀, -⟩ := hi.list
    rcases hp.owners hi hle (hassert t) hl₀ hl ha hm with ho | ⟨hmem, hold, hne, hspares⟩
    · exact ⟨t, by rw [set_point_self]; exact ho⟩
    · obtain ⟨u, hu⟩ := ih hle hl₀ hmem hold
      have hut : u ≠ t := by
        rintro rfl
        exact hne hu
      exact ⟨u, by rw [set_point_ne _ hut]; exact hu.mono hspares⟩

def Control.Stuck : Control A K V → Prop
  | .running _ .checkBucketSize => True
  | .running _ .fault => True
  | _ => False

theorem exec_stuck {ch : Choice A V} {p : Point A V} (hpow : 24 < (s.exec hash ch op p).1.powerOf2) :
    Control.Stuck (.running op (s.exec hash ch op p).2 : Control A K V) ∨
      (24 < s.powerOf2 ∧ ¬ Control.Stuck (.running op p : Control A K V)) := by
  by_cases hp : ∀ power, p ≠ .grow power
  · rw [exec_powerOf2 s ch op hp] at hpow
    cases p with
    | checkBucketSize =>
      have hlarge : ¬ 2 ^ s.powerOf2 ≤ kMaxBucketSize := not_le.mpr (Nat.pow_lt_pow_right one_lt_two hpow)
      simp only [exec, if_neg hlarge]
      exact .inl trivial
    | fault => exact .inl trivial
    | _ => exact .inr ⟨hpow, id⟩
  · push Not at hp
    obtain ⟨power, rfl⟩ := hp
    by_cases hp : s.powerOf2 = power
    · simp only [exec, if_pos hp]
      exact .inl trivial
    · simp only [exec, if_neg hp] at hpow
      exact .inr ⟨hpow, id⟩

theorem Step.stuck (h : Step hash (s, c) (s', c')) (hpow : 24 < s'.powerOf2) :
    c'.Stuck ∨ (24 < s.powerOf2 ∧ ¬ c.Stuck) := by
  cases h with
  | call _ last op => exact .inr ⟨hpow, id⟩
  | exec _ op p ch hf => exact exec_stuck hpow
  | answer _ op a => exact .inr ⟨hpow, id⟩
  | freeNode _ _ a hr => exact (em _).imp_right fun hc => ⟨hpow, hc⟩
  | freeValue _ _ a hr => exact (em _).imp_right fun hc => ⟨hpow, hc⟩

theorem Run.stuck (h : Run hash head d) (hpow : 24 < d.shared.powerOf2) : ∃ t, (d.point t).Stuck := by
  induction h with
  | refl => exact absurd hpow (by decide : ¬ 24 < 1)
  | @tail d e hd hmove ih =>
    obtain ⟨⟨t, s, c, hp, rfl⟩, -⟩ := hmove
    rcases hp.stuck hpow with hc | ⟨hold, hne⟩
    · exact ⟨t, by rw [set_point_self]; exact hc⟩
    · obtain ⟨u, hu⟩ := ih hold
      have hut : u ≠ t := by
        rintro rfl
        exact hne hu
      exact ⟨u, by rw [set_point_ne _ hut]; exact hu⟩

omit [DecidableEq A] in
theorem itemKeys_nodup (hi : Inv hash s) (hl : Holds s.cells s.head l) : (s.itemKeys l).Nodup := by
  rw [itemKeys, List.Nodup, List.pairwise_filterMap]
  apply List.Pairwise.imp _ hl.sorted
  intro a b hlt k ha k' hb
  obtain ⟨n, hn, hk⟩ := Option.bind_eq_some_iff.mp ha
  obtain ⟨n', hn', hk'⟩ := Option.bind_eq_some_iff.mp hb
  obtain ⟨⟨k, p⟩, hr, rfl⟩ := Option.map_eq_some_iff.mp hk
  obtain ⟨⟨k', p'⟩, hr', rfl⟩ := Option.map_eq_some_iff.mp hk'
  have hkeys := hlt _ _ (cells_eq hn) (cells_eq hn')
  rintro rfl
  apply hkeys.ne
  exact (orderKey_of_regular (hi.nodes a n hn) hr).trans (orderKey_of_regular (hi.nodes b n' hn') hr').symm

omit [DecidableEq A] in
theorem mem_itemKeys (hl : Holds s.cells s.head l) (hlive : ∀ a ∈ l, ¬ s.Marked a) (k : K) :
    k ∈ s.itemKeys l ↔ k ∈ s.keys := by
  rw [itemKeys, List.mem_filterMap]
  constructor
  · rintro ⟨a, ha, hk⟩
    obtain ⟨n, hn, hk⟩ := Option.bind_eq_some_iff.mp hk
    refine ⟨a, n, hn, ?_, hk⟩
    by_contra hm
    exact hlive a ha ⟨n, hn, by simpa using hm⟩
  · rintro ⟨a, n, hn, hm, hk⟩
    exact ⟨a, hl.live a n.cell (cells_eq hn) hm, (itemKey_eq hn).trans hk⟩

omit [DecidableEq A] in
theorem keys_ncard (hi : Inv hash s) (hl : Holds s.cells s.head l) (hlive : ∀ a ∈ l, ¬ s.Marked a) :
    s.keys.ncard = (s.itemKeys l).length := by
  have hset : s.keys = ((s.itemKeys l).toFinset : Set K) := by
    ext k
    rw [List.coe_toFinset, Set.mem_ofPred_eq, mem_itemKeys hl hlive]
  rw [hset, Set.ncard_coe_finset, List.toFinset_card_of_nodup (itemKeys_nodup hi hl)]

theorem Run.quiescent [Fintype T] (h : Run hash head d) (hidle : ∀ t, ∃ last, d.point t = .idle last) :
    (∃ l, Holds d.shared.cells d.shared.head l ∧ ∀ a ∈ l, ¬ d.shared.Marked a) ∧
      d.shared.size.toNat = d.shared.keys.ncard % 2 ^ 64 := by
  have hpow : d.shared.powerOf2 ≤ 24 := by
    by_contra hpow
    obtain ⟨t, ht⟩ := h.stuck (not_le.mp hpow)
    obtain ⟨last, hlast⟩ := hidle t
    rw [hlast] at ht
    exact ht
  obtain ⟨hi, -⟩ := Run.spec h hpow
  obtain ⟨l, hl, -⟩ := hi.list
  have hlive : ∀ a ∈ l, ¬ d.shared.Marked a := by
    intro a ha hm
    obtain ⟨t, ht⟩ := h.owners hpow hl ha hm
    obtain ⟨last, hlast⟩ := hidle t
    rw [hlast] at ht
    cases ht
  have howed : ∑ t, (d.point t).owed = 0 := by
    apply Finset.sum_eq_zero
    intro t _
    obtain ⟨last, hlast⟩ := hidle t
    rw [hlast]
    rfl
  refine ⟨⟨l, hl, hlive⟩, ?_⟩
  have hbalance := h.balance hpow hl
  rw [howed, ← keys_ncard hi hl hlive] at hbalance
  have hmod : d.shared.size.toNat ≡ d.shared.keys.ncard [MOD 2 ^ 64] := by
    apply Int.natCast_modEq_iff.mp
    have hsum := hbalance.add_right d.shared.size.toNat
    rw [sub_add_cancel, zero_add] at hsum
    rw [Nat.cast_pow]
    exact hsum.symm
  have hlt : d.shared.size.toNat < 2 ^ 64 := d.shared.size.toNat_lt
  rw [← hmod, Nat.mod_eq_of_lt hlt]

-- Thread `false` deletes the key it inserted, and its node is freed, while thread `true` inserts another.
theorem Run.quiescent_after_delete : ∃ d : Threads Bool (Shared ℕ ℕ ℕ) (Control ℕ ℕ ℕ),
    d.shared.size = 1 ∧ d.shared.nodes 107 = none ∧
      (∃ l, Holds d.shared.cells d.shared.head l ∧ ∀ a ∈ l, ¬ d.shared.Marked a) ∧
      d.shared.size.toNat = d.shared.keys.ncard % 2 ^ 64 := by
  have hreplay : (replay (act UInt64.ofNat) sparing (fun _ => true) true
      (steps false (.insert 4 7) 100 40 ++ (false, .answer) :: steps true (.insert 6 9) 300 6 ++
        steps false (.delete 4) 200 40 ++ [(false, .answer), (false, .freeNode 107)] ++
        (List.range' 306 40).map (fun a => (true, .exec ⟨a, a, false, 0⟩)) ++ [(true, .answer)])
      (start (new 0) (.idle none) : Threads Bool (Shared ℕ ℕ ℕ) (Control ℕ ℕ ℕ))).any (fun d =>
        decide ((d.point false = .idle (some (.deleted true)) ∧ d.point true = .idle (some (.inserted true))) ∧
          d.shared.size = 1 ∧ (d.shared.nodes 107).isNone)) = true := by
    decide +kernel
  obtain ⟨d, hd, hend⟩ := (Option.any_eq_true ..).mp hreplay
  obtain ⟨⟨hfalse, htrue⟩, hsize, hfreed⟩ := of_decide_eq_true hend
  have hidle : ∀ t, ∃ last, d.point t = .idle last
    | false => ⟨_, hfalse⟩
    | true => ⟨_, htrue⟩
  exact ⟨d, hsize, Option.isNone_iff_eq_none.mp hfreed, Run.quiescent (run_of_replay hd) hidle⟩

end Runs

end MetadataService.CT.Shared
