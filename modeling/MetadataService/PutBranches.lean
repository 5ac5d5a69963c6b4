import MetadataService.MapRefinement

namespace MetadataService.MemStore

open ByteMemory LinkedChain Loops

namespace MemoryNode

variable {n n' : MemoryNode} {C C' : UInt64 → List UInt64} {s : HashStore} {h : List (Op × Reply)}
  {i : ℕ} {a p key : UInt64} {d e : DataItem}

theorem Stored.lookup_found (S : Stored n n' C C' a p e) (ha : a ∈ n.roots)
    (hl : lookup n.mem (C a) key = some p) (he : holds key e = true) :
    lookup n'.mem (C' a) key = some p := by
  obtain ⟨hp, pre, post, hsplit, hpre⟩ := List.find?_eq_some_iff_append.mp hl
  obtain ⟨ys, hys⟩ := S.chain
  have hslots : slots (C' a) = pre ++ p :: (post ++ slots ys) := by
    rw [← hys, slots, List.flatMap_append]
    change slots (C a) ++ slots ys = _
    rw [hsplit, List.append_assoc, List.cons_append]
  refine List.find?_eq_some_iff_append.mpr ⟨?_, pre, _, hslots, ?_⟩
  · rw [S.item]
    exact he
  · intro q hq
    have hne : q ≠ p := by
      rintro rfl
      have hmiss := hpre q hq
      rw [hp] at hmiss
      cases hmiss
    have hin : q ∈ slots (C a) := hsplit ▸ List.mem_append_left _ hq
    rw [S.kept a ha q hin hne]
    exact hpre q hq

structure PutStores (n n' : MemoryNode) (i : ℕ) (d : DataItem) (p : UInt64) : Prop where
  get : ∃ s fuel, n'.table i = .ok s ∧ s.localGet n'.mem d.key fuel = .ok (some p)
  valid : (itemAt n'.mem p).valid ≠ 0
  fields : itemAt n'.mem p = { d with valid := (itemAt n'.mem p).valid }
  others : ∀ j t k, n.table j = .ok t → (j, k) ≠ (i, d.key) →
    ∃ t' res fuel, n'.table j = .ok t' ∧ t.localGet n.mem k fuel = .ok res ∧
      t'.localGet n'.mem k fuel = .ok res ∧ ∀ q, res = some q → itemAt n'.mem q = itemAt n.mem q

theorem Stored.putStores (S : Stored n n' C C' (s.bucket (s.getHash d.key)) p e) (L : Layout n C)
    (L' : Layout n' C') (hs : n.table i = .ok s)
    (hfound : lookup n'.mem (C' (s.bucket (s.getHash d.key))) d.key = some p)
    (hbefore : p ∈ slots (C (s.bucket (s.getHash d.key))) → (itemAt n.mem p).valid ≠ 0 →
      (itemAt n.mem p).key = d.key)
    (hv : e.valid ≠ 0) (he : e = { d with valid := e.valid }) : PutStores n n' i d p := by
  refine ⟨?_, ?_, ?_, ?_⟩
  · obtain ⟨s', hs', hshape⟩ := S.shapes.table hs
    obtain ⟨fuel, hget⟩ := L'.localGet_eq (table_mem hs') d.key
    rw [HashStore.bucket_shape hshape, HashStore.getHash_shape hshape, hfound] at hget
    exact ⟨s', fuel, hs', hget⟩
  · rw [S.item]
    exact hv
  · rw [S.item]
    exact he
  · intro j t k ht hne
    have hkey : e.key = d.key := by rw [he]
    obtain ⟨t', ht', hshape, hl, hitem⟩ := S.frame L L' hs hbefore (fun _ => hkey) ht hne
    obtain ⟨fuel, hget, hget'⟩ := L.localGet_kept L' (table_mem ht) (table_mem ht') hshape hl
    exact ⟨t', _, fuel, ht', hget, hget', hitem⟩

theorem run_put_stores_iff {n₀ : MemoryNode} (hf : Fresh n₀) (hrun : Run AnyCall n₀ h n)
    (hkey : d.key = key) (hstep : n.Step (.put i key d) n' (.item p)) :
    PutStores n n' i d p ↔
      (∃ s fuel, n.table i = .ok s ∧ s.localGet n.mem key fuel = .ok none) ∨ d.valid ≠ 0 := by
  subst hkey
  obtain ⟨C, L⟩ := hrun.layout hf
  obtain ⟨C', L', hE⟩ := L.step hstep
  cases hE with
  | @putOld _ _ _ _ s hs hl S =>
    have ha := L.root_mem (table_mem hs) d.key
    obtain ⟨-, -, hkey⟩ := lookup_some hl
    constructor
    · intro P
      have hv := P.valid
      rw [S.item] at hv
      exact Or.inr hv
    · rintro (⟨t, fuel, ht, hget⟩ | hv)
      · obtain rfl := Except.ok.inj (ht.symm.trans hs)
        obtain ⟨fuel', hget'⟩ := L.localGet_eq (table_mem ht) d.key
        have h1 := localGet_stable hget (Nat.le_max_left fuel fuel')
        have h2 := localGet_stable hget' (Nat.le_max_right fuel fuel')
        rw [hl, h1] at h2
        cases h2
      · have hfound := S.lookup_found ha hl (holds_iff.mpr ⟨hv, rfl⟩)
        exact S.putStores L L' hs hfound (fun _ _ => hkey) hv rfl
  | @putNew _ _ _ _ s hs hl S hfree =>
    have ha := L.root_mem (table_mem hs) d.key
    have hone : (1 : UInt8) ≠ 0 := by decide
    have W := writes_new hl hfree (e := { d with valid := 1 }) rfl
    have hfound := S.lookup_self W ha
    rw [if_neg hone] at hfound
    obtain ⟨fuel, hget⟩ := L.localGet_eq (table_mem hs) d.key
    rw [hl] at hget
    constructor
    · intro _
      exact Or.inl ⟨s, fuel, hs, hget⟩
    · intro _
      exact S.putStores L L' hs hfound W.before hone rfl

def itemReply (P : UInt64 → Bool) : Reply → Bool
  | .item p => P p
  | .built | .deleted _ => false

theorem itemReply_ok {P : UInt64 → Bool} {r : Reply} (h : itemReply P r = true) :
    ∃ p, r = .item p ∧ P p = true := by
  cases r with
  | item p => exact ⟨p, rfl, h⟩
  | built => cases h
  | deleted b => cases h

theorem run_put_stores_update :
    ∃ h n n' p, Run AnyCall smallNode h n ∧ n.Step (.put 0 5 (smallItem 1 5)) n' (.item p) ∧
      PutStores n n' 0 (smallItem 1 5) p := by
  obtain ⟨h, n, hrun, hn⟩ := replay_any AnyCall 3 smallNode [.build 1 2, .insert 0 5 (smallItem 1 5)]
    (fun _ n => n.steps 3 (.put 0 5 (smallItem 1 5)) fun _ => itemReply fun _ => true) (by decide +kernel)
  obtain ⟨n', r, hstep, hr⟩ := steps_ok hn
  obtain ⟨p, rfl, -⟩ := itemReply_ok hr
  refine ⟨h, n, n', p, hrun, hstep, ?_⟩
  have hv : (smallItem 1 5).valid ≠ 0 := by decide
  have hkey : (smallItem 1 5).key = 5 := rfl
  exact (run_put_stores_iff smallNode_fresh hrun hkey hstep).mpr (Or.inr hv)

theorem put_invalid_item_deletes :
    ∃ h n n' p, Run AnyCall smallNode h n ∧
      n.Step (.put 0 5 { smallItem 1 5 with valid := 0 }) n' (.item p) ∧
      ¬ PutStores n n' 0 { smallItem 1 5 with valid := 0 } p := by
  obtain ⟨h, n, hrun, hn⟩ := replay_any AnyCall 3 smallNode [.build 1 2, .insert 0 5 (smallItem 1 5)]
    (fun _ n => n.steps 3 (.put 0 5 { smallItem 1 5 with valid := 0 })
      fun n' => itemReply fun p => (itemAt n'.mem p).valid == 0) (by decide +kernel)
  obtain ⟨n', r, hstep, hr⟩ := steps_ok hn
  obtain ⟨p, rfl, hp⟩ := itemReply_ok hr
  exact ⟨h, n, n', p, hrun, hstep, fun P => P.valid (beq_iff_eq.mp hp)⟩

end MemoryNode

end MetadataService.MemStore
