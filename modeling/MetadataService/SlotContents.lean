import MetadataService.NodeRuns
import Mathlib.Data.List.Find

namespace MetadataService.MemStore

open ByteMemory LinkedChain Loops

namespace MemoryNode

variable {n n' : MemoryNode} {C C' : UInt64 → List UInt64} {s : HashStore} {a b p q key : UInt64}
  {d e : DataItem}

theorem holds_iff : holds key d = true ↔ d.valid ≠ 0 ∧ d.key = key := by
  simp only [holds, Bool.and_eq_true, bne_iff_ne, beq_iff_eq]

theorem holds_of_invalid (h : d.valid = 0) : holds key d = false := by
  simp [holds, h]

theorem lookup_none {m : Memory} {ns : List UInt64} (h : lookup m ns key = none) (hq : q ∈ slots ns) :
    holds key (itemAt m q) = false := by
  have hn := List.find?_eq_none.mp h q hq
  simpa only [Bool.not_eq_true] using hn

theorem lookup_eq_some {m : Memory} {ns : List UInt64} (hp : p ∈ slots ns)
    (hk : holds key (itemAt m p) = true)
    (hu : ∀ q ∈ slots ns, q ≠ p → holds key (itemAt m q) = false) : lookup m ns key = some p := by
  cases hl : lookup m ns key with
  | none =>
    rw [lookup_none hl hp] at hk
    cases hk
  | some q =>
    by_contra hne
    obtain ⟨hq, hh⟩ := lookup_some hl
    have hf := hu q hq fun h => hne (h ▸ rfl)
    rw [holds_iff.mpr hh] at hf
    cases hf

def Holds (P : HashStore → UInt64 → UInt64 → DataItem → Prop) (n : MemoryNode)
    (C : UInt64 → List UInt64) : Prop :=
  ∀ s ∈ n.tables, ∀ b < s.bucketNum, ∀ p ∈ slots (C (s.bucket b)), (itemAt n.mem p).valid ≠ 0 →
    P s b p (itemAt n.mem p)

structure Keyed (n : MemoryNode) (C : UInt64 → List UInt64) : Prop where
  home : Holds (fun s b _ d => s.getHash d.key = b) n C
  once : ∀ a ∈ n.roots, ∀ p ∈ slots (C a), ∀ q ∈ slots (C a), (itemAt n.mem p).valid ≠ 0 →
    (itemAt n.mem q).valid ≠ 0 → (itemAt n.mem p).key = (itemAt n.mem q).key → p = q

structure Writes (n : MemoryNode) (C : UInt64 → List UInt64) (a p key : UInt64) (e : DataItem) : Prop where
  before : p ∈ slots (C a) → (itemAt n.mem p).valid ≠ 0 → (itemAt n.mem p).key = key
  alone : ∀ q ∈ slots (C a), q ≠ p → holds key (itemAt n.mem q) = false
  after : e.valid ≠ 0 → e.key = key

theorem Keyed.writes_old (K : Keyed n C) (ha : a ∈ n.roots) (hl : lookup n.mem (C a) key = some p)
    (he : e.valid ≠ 0 → e.key = key) : Writes n C a p key e := by
  obtain ⟨hp, hv, hk⟩ := lookup_some hl
  refine ⟨fun _ _ => hk, ?_, he⟩
  intro q hq hne
  by_contra hh
  rw [Bool.not_eq_false, holds_iff] at hh
  exact hne (K.once a ha q hq p hp hh.1 hv (hh.2.trans hk.symm))

theorem Keyed.writes_delete (K : Keyed n C) (ha : a ∈ n.roots) (hl : lookup n.mem (C a) key = some p) :
    Writes n C a p key { itemAt n.mem p with valid := 0 } :=
  K.writes_old ha hl fun hv => absurd rfl hv

theorem writes_new (hl : lookup n.mem (C a) key = none)
    (hfree : p ∈ slots (C a) → (itemAt n.mem p).valid = 0) (he : e.key = key) :
    Writes n C a p key e :=
  ⟨fun hp hv => absurd (hfree hp) hv, fun _ hq _ => lookup_none hl hq, fun _ => he⟩

section Store

variable (S : Stored n n' C C' a p e)

include S

theorem Stored.slots_split (hq : q ∈ slots (C' a)) :
    q ∈ slots (C a) ∨ q ∉ slots (C a) ∧ (q = p ∨ (itemAt n'.mem q).valid = 0) := by
  by_cases hin : q ∈ slots (C a)
  · exact Or.inl hin
  · refine Or.inr ⟨hin, ?_⟩
    by_cases hqp : q = p
    · exact Or.inl hqp
    · exact Or.inr (S.fresh q hq hin hqp)

theorem Stored.slots_other (hb : b ∈ n.roots) (hba : b ≠ a) : slots (C' b) = slots (C b) := by
  rw [S.other b hb hba]

theorem Stored.not_slot_other (L' : Layout n' C') (ha : a ∈ n.roots) (hb : b ∈ n.roots) (hba : b ≠ a)
    (hq : q ∈ slots (C b)) : q ≠ p := by
  rintro rfl
  rw [← S.slots_other hb hba] at hq
  have hroots := S.shapes.roots_eq
  exact hba (L'.slot_root (hroots ▸ hb) (hroots ▸ ha) hq S.slot)

theorem Stored.lookup_other (L' : Layout n' C')
    (hbefore : p ∈ slots (C a) → (itemAt n.mem p).valid ≠ 0 → (itemAt n.mem p).key = key)
    (hafter : e.valid ≠ 0 → e.key = key) (ha : a ∈ n.roots) (hb : b ∈ n.roots) {k : UInt64}
    (hne : b = a → k ≠ key) :
    lookup n'.mem (C' b) k = lookup n.mem (C b) k := by
  by_cases hba : b = a
  · subst hba
    have hk := hne rfl
    have hp : holds k (itemAt n'.mem p) = false := by
      rw [S.item, ← Bool.not_eq_true, holds_iff]
      rintro ⟨hv, hkey⟩
      exact hk (hkey.symm.trans (hafter hv))
    obtain ⟨ys, hys⟩ := S.chain
    have hsplit : slots (C' b) = slots (C b) ++ slots ys := by
      rw [← hys, slots, List.flatMap_append]
      rfl
    have hold : ∀ q ∈ slots (C b), holds k (itemAt n'.mem q) = holds k (itemAt n.mem q) := by
      intro q hq
      by_cases hqp : q = p
      · subst hqp
        rw [hp, eq_comm, ← Bool.not_eq_true, holds_iff]
        rintro ⟨hv, hkey⟩
        exact hk (hkey.symm.trans (hbefore hq hv))
      · rw [S.kept b hb q hq hqp]
    have hnew : (slots ys).find? (fun q => holds k (itemAt n'.mem q)) = none ∨
        (slots (C b)).find? (fun q => holds k (itemAt n'.mem q)) ≠ none := by
      by_cases hfound : (slots (C b)).find? (fun q => holds k (itemAt n'.mem q)) = none
      · left
        rw [List.find?_eq_none] at hfound ⊢
        intro q hq
        rcases S.slots_split (hsplit ▸ List.mem_append_right _ hq) with hin | ⟨-, rfl | hv⟩
        · exact hfound q hin
        · simp [hp]
        · simp [holds_of_invalid hv]
      · exact Or.inr hfound
    rw [lookup, lookup, hsplit, List.find?_append, ← List.find?_congr hold]
    rcases hnew with hnone | hsome
    · rw [hnone, Option.or_none]
    · obtain ⟨r, hr⟩ := Option.ne_none_iff_exists'.mp hsome
      rw [hr, Option.some_or]
  · rw [lookup, lookup, S.slots_other hb hba]
    apply List.find?_congr
    intro q hq
    rw [S.kept b hb q hq (S.not_slot_other L' ha hb hba hq)]

theorem Stored.alone_after (W : Writes n C a p key e) (ha : a ∈ n.roots) (hq : q ∈ slots (C' a))
    (hne : q ≠ p) : holds key (itemAt n'.mem q) = false := by
  rcases S.slots_split hq with hin | ⟨-, hqp | hv⟩
  · rw [S.kept a ha q hin hne]
    exact W.alone q hin hne
  · exact absurd hqp hne
  · exact holds_of_invalid hv

theorem Stored.lookup_self (W : Writes n C a p key e) (ha : a ∈ n.roots) :
    lookup n'.mem (C' a) key = if e.valid = 0 then none else some p := by
  split_ifs with hv
  · rw [lookup, List.find?_eq_none]
    intro q hq
    by_cases hqp : q = p
    · rw [hqp, S.item, holds_of_invalid hv]
      exact Bool.false_ne_true
    · rw [S.alone_after W ha hq hqp]
      exact Bool.false_ne_true
  · apply lookup_eq_some S.slot
    · rw [S.item]
      exact holds_iff.mpr ⟨hv, W.after hv⟩
    · intro q hq hqp
      exact S.alone_after W ha hq hqp

theorem Stored.item_other (L' : Layout n' C')
    (hbefore : p ∈ slots (C a) → (itemAt n.mem p).valid ≠ 0 → (itemAt n.mem p).key = key)
    (ha : a ∈ n.roots) (hb : b ∈ n.roots) {k : UInt64} (hne : b = a → k ≠ key)
    (hl : lookup n.mem (C b) k = some q) :
    itemAt n'.mem q = itemAt n.mem q := by
  obtain ⟨hq, hv, hk⟩ := lookup_some hl
  apply S.kept b hb q hq
  by_cases hba : b = a
  · rintro rfl
    exact hne hba (hk.symm.trans (hbefore (hba ▸ hq) hv))
  · exact S.not_slot_other L' ha hb hba hq

end Store

theorem table_of_mem (hs : s ∈ n.tables) : ∃ i, n.table i = .ok s := by
  obtain ⟨i, hi⟩ := List.mem_iff_getElem?.mp hs
  exact ⟨i, table_ok.mpr hi⟩

theorem Holds.stored {P : HashStore → UInt64 → UInt64 → DataItem → Prop} (H : Holds P n C)
    (hP : ∀ s t b p d, s.shape = t.shape → P s b p d → P t b p d) (L : Layout n C) (L' : Layout n' C')
    {i : ℕ} (hs : n.table i = .ok s) (S : Stored n n' C C' (s.bucket (s.getHash key)) p e)
    (he : e.valid ≠ 0 → P s (s.getHash key) p e) : Holds P n' C' := by
  have ha := L.root_mem (table_mem hs) key
  intro t' ht' b hb q hq hv
  obtain ⟨t, ht, hsh⟩ := S.shapes.mem ht'
  rw [← HashStore.bucketNum_shape hsh] at hb
  rw [← HashStore.bucket_shape hsh] at hq
  apply hP t t' b q _ hsh
  have hr : t.bucket b ∈ n.roots := ⟨t, ht, b, hb, rfl⟩
  by_cases hba : t.bucket b = s.bucket (s.getHash key)
  · by_cases hqp : q = p
    · obtain ⟨j, hj⟩ := table_of_mem ht
      have hlt := HashStore.getHash_lt (L.area s (table_mem hs)).pos key
      obtain ⟨hji, hbk⟩ := L.bucket_index hj hs hb hlt hba
      have hts : t = s := Except.ok.inj (hj.symm.trans (hji ▸ hs))
      rw [hqp, S.item] at hv ⊢
      rw [hts, hbk]
      exact he hv
    · rw [hba] at hq
      rcases S.slots_split hq with hin | ⟨-, h | h⟩
      · rw [S.kept _ ha q hin hqp] at hv ⊢
        rw [← hba] at hin
        exact H t ht b hb q hin hv
      · exact absurd h hqp
      · exact absurd h hv
  · rw [S.slots_other hr hba] at hq
    rw [S.kept _ hr q hq (S.not_slot_other L' ha hr hba hq)] at hv ⊢
    exact H t ht b hb q hq hv

theorem Keyed.stored (K : Keyed n C) (L : Layout n C) (L' : Layout n' C') {i : ℕ} (hs : n.table i = .ok s)
    (S : Stored n n' C C' (s.bucket (s.getHash key)) p e)
    (W : Writes n C (s.bucket (s.getHash key)) p key e) : Keyed n' C' := by
  have ha := L.root_mem (table_mem hs) key
  have hroots := S.shapes.roots_eq
  constructor
  · apply K.home.stored _ L L' hs S
    · intro hv
      rw [W.after hv]
    · intro s t b p d hsh h
      rw [← HashStore.getHash_shape hsh]
      exact h
  · intro b hb q hq r hr hvq hvr hkey
    rw [hroots] at hb
    by_cases hba : b = s.bucket (s.getHash key)
    · subst hba
      by_contra hne
      -- one of the two is not the slot written; no such slot holds the key of the call
      have other (x y : UInt64) (hx : x ∈ slots (C' (s.bucket (s.getHash key)))) (hxp : x = p)
          (hy : y ∈ slots (C' (s.bucket (s.getHash key)))) (hyp : y ≠ p) (hvx : (itemAt n'.mem x).valid ≠ 0)
          (hvy : (itemAt n'.mem y).valid ≠ 0)
          (hk : (itemAt n'.mem y).key = (itemAt n'.mem x).key) : False := by
        have hf := S.alone_after W ha hy hyp
        rw [hxp, S.item] at hvx hk
        rw [holds_iff.mpr ⟨hvy, hk.trans (W.after hvx)⟩] at hf
        cases hf
      by_cases hqp : q = p
      · exact other q r hq hqp hr (fun h => hne (hqp.trans h.symm)) hvq hvr hkey.symm
      · by_cases hrp : r = p
        · exact other r q hr hrp hq hqp hvr hvq hkey
        · have old (x : UInt64) (hx : x ∈ slots (C' (s.bucket (s.getHash key)))) (hxp : x ≠ p)
              (hv : (itemAt n'.mem x).valid ≠ 0) : x ∈ slots (C (s.bucket (s.getHash key))) := by
            rcases S.slots_split hx with hin | ⟨-, h | h⟩
            · exact hin
            · exact absurd h hxp
            · exact absurd h hv
          have hq' := old q hq hqp hvq
          have hr' := old r hr hrp hvr
          rw [S.kept _ ha q hq' hqp] at hvq hkey
          rw [S.kept _ ha r hr' hrp] at hvr hkey
          exact hne (K.once _ ha q hq' r hr' hvq hvr hkey)
    · have hq' := S.slots_other hb hba ▸ hq
      have hr' := S.slots_other hb hba ▸ hr
      rw [S.kept _ hb q hq' (S.not_slot_other L' ha hb hba hq')] at hvq hkey
      rw [S.kept _ hb r hr' (S.not_slot_other L' ha hb hba hr')] at hvr hkey
      exact K.once b hb q hq' r hr' hvq hvr hkey

theorem Built.slot_cases (B : Built n n' C C' s) (ha : a ∈ n'.roots) (hq : q ∈ slots (C' a)) :
    a ∈ n.roots ∧ q ∈ slots (C a) ∧ itemAt n'.mem q = itemAt n.mem q ∨ (itemAt n'.mem q).valid = 0 := by
  rw [B.roots] at ha
  rcases ha with ha | ha
  · rw [B.kept a ha] at hq
    exact Or.inl ⟨ha, hq, B.item a ha q hq⟩
  · rw [B.head a ha, slots, List.flatMap_singleton] at hq
    exact Or.inr (B.empty a ha q hq)

theorem Holds.built {P : HashStore → UInt64 → UInt64 → DataItem → Prop} (H : Holds P n C)
    (B : Built n n' C C' s) : Holds P n' C' := by
  intro t ht b hb q hq hv
  rcases B.slot_cases ⟨t, ht, b, hb, rfl⟩ hq with ⟨hr, hq', hi⟩ | h
  · rw [B.tables, List.mem_append, List.mem_singleton] at ht
    rcases ht with ht | rfl
    · rw [hi] at hv ⊢
      exact H t ht b hb q hq' hv
    · exact absurd hr (B.apart _ ⟨b, hb, rfl⟩)
  · exact absurd h hv

theorem Keyed.built (K : Keyed n C) (B : Built n n' C C' s) : Keyed n' C' := by
  refine ⟨K.home.built B, ?_⟩
  intro a ha q hq r hr hvq hvr hkey
  rcases B.slot_cases ha hq with ⟨ha', hq', hi⟩ | h
  · rcases B.slot_cases ha hr with ⟨-, hr', hj⟩ | h
    · rw [hi] at hvq hkey
      rw [hj] at hvr hkey
      exact K.once a ha' q hq' r hr' hvq hvr hkey
    · exact absurd h hvr
  · exact absurd h hvq

def Proper (n : MemoryNode) (C : UInt64 → List UInt64) : Op → Prop
  | .insert i key d => d.key = key ∧
    ∀ s, n.table i = .ok s → lookup n.mem (C (s.bucket (s.getHash key))) key = none
  | .put _ key d => d.key = key
  | .load i key _ _ =>
    ∀ s, n.table i = .ok s → lookup n.mem (C (s.bucket (s.getHash key))) key = none
  | _ => True

theorem Effect.written {op : Op} {r : Reply} (hE : Effect n n' C C' op r) (K : Keyed n C) (L : Layout n C)
    (hp : Proper n C op) :
    (∃ s, op.target = none ∧ Built n n' C C' s) ∨
    (∃ i s key p e, op.target = some (i, key) ∧ n.table i = .ok s ∧
      Stored n n' C C' (s.bucket (s.getHash key)) p e ∧
      Writes n C (s.bucket (s.getHash key)) p key e) ∨ n' = n ∧ C' = C := by
  cases hE with
  | build _ h => exact Or.inl ⟨_, rfl, h⟩
  | insert hs h hfree =>
    exact Or.inr (Or.inl ⟨_, _, _, _, _, rfl, hs, h, writes_new (hp.2 _ hs) hfree hp.1⟩)
  | putOld hs hl h =>
    have W := K.writes_old (L.root_mem (table_mem hs) _) hl fun _ => hp
    exact Or.inr (Or.inl ⟨_, _, _, _, _, rfl, hs, h, W⟩)
  | putNew hs hl h hfree =>
    exact Or.inr (Or.inl ⟨_, _, _, _, _, rfl, hs, h, writes_new hl hfree hp⟩)
  | load hs h hfree =>
    exact Or.inr (Or.inl ⟨_, _, _, _, _, rfl, hs, h, writes_new (hp _ hs) hfree rfl⟩)
  | deleteOld hs hl h =>
    have W := K.writes_delete (L.root_mem (table_mem hs) _) hl
    exact Or.inr (Or.inl ⟨_, _, _, _, _, rfl, hs, h, W⟩)
  | deleteNone _ _ hn hC => exact Or.inr (Or.inr ⟨hn, hC⟩)

theorem Keyed.step (K : Keyed n C) (L : Layout n C) (L' : Layout n' C') {op : Op} {r : Reply}
    (hp : Proper n C op) (hE : Effect n n' C C' op r) : Keyed n' C' := by
  rcases hE.written K L hp with ⟨s, -, hB⟩ | ⟨i, s, key, p, e, -, hs, S, W⟩ | ⟨rfl, rfl⟩
  · exact K.built hB
  · exact K.stored L L' hs S W
  · exact K

end MemoryNode

end MetadataService.MemStore
