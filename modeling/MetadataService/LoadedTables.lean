import MetadataService.CallHistory

namespace MetadataService.MemStore

open ByteMemory LinkedChain Loops

def Op.present : Op → Option Unit
  | .insert _ _ _ => some ()
  | .put _ _ _ => some ()
  | .load _ _ _ _ => some ()
  | .delete _ _ => none
  | .build _ _ => none

def tableIds (h : List (Op × Reply)) : List UInt64 :=
  h.filterMap fun e => match e.1 with
    | .build tableId _ => some tableId
    | _ => none

def LoadCall (h : List (Op × Reply)) : Op → Prop
  | .build _ _ => True
  | .insert i key d =>
    d.key = key ∧ (tableIds h)[i]? = some d.tableId ∧ latest Op.present h i key = none
  | .put _ _ _ => False
  | .load i key _ _ => latest Op.present h i key = none
  | .delete _ _ => True

instance (h : List (Op × Reply)) (op : Op) : Decidable (LoadCall h op) :=
  match op with
  | .build _ _ => inferInstanceAs (Decidable True)
  | .insert i key d => inferInstanceAs (Decidable
    (d.key = key ∧ (tableIds h)[i]? = some d.tableId ∧ latest Op.present h i key = none))
  | .put _ _ _ => inferInstanceAs (Decidable False)
  | .load i key _ _ => inferInstanceAs (Decidable (latest Op.present h i key = none))
  | .delete _ _ => inferInstanceAs (Decidable True)

namespace MemoryNode

variable {n n' : MemoryNode} {C C' : UInt64 → List UInt64} {s : HashStore} {h : List (Op × Reply)}
  {op : Op} {r : Reply}

def Owned (s : HashStore) (_ _ : UInt64) (d : DataItem) : Prop := d.tableId = s.tableId

theorem Owned.of_shape {s t : HashStore} {b p : UInt64} {d : DataItem} (he : s.shape = t.shape)
    (h : Owned s b p d) : Owned t b p d := by
  have ht := congrArg HashStore.tableId he
  exact Eq.trans h ht

structure Loaded (h : List (Op × Reply)) (n : MemoryNode) (C : UInt64 → List UInt64) : Prop where
  keyed : Keyed n C
  agrees : Agrees Op.present (fun _ => ()) h n C
  owned : Holds Owned n C
  ids : n.tables.map HashStore.tableId = tableIds h

theorem Loaded.proper (H : Loaded h n C) (hok : LoadCall h op) : Proper n C op := by
  cases op with
  | build _ _ => trivial
  | insert i key d => exact ⟨hok.1, fun s hs => H.agrees.lookup_none hs hok.2.2⟩
  | put _ _ _ => exact hok.elim
  | load i key v stack => exact fun s hs => H.agrees.lookup_none hs hok
  | delete _ _ => trivial

theorem LoadCall.tracks (hok : LoadCall h op) : Tracks Op.present (fun _ => ()) n op := by
  cases op with
  | build _ _ => trivial
  | insert i key d => rfl
  | put _ _ _ => exact hok.elim
  | load i key v stack => exact fun _ _ _ => rfl
  | delete _ _ => rfl

theorem SameShapes.tableIds_eq (hs : SameShapes n n') :
    n'.tables.map HashStore.tableId = n.tables.map HashStore.tableId := by
  have hm := congrArg (List.map HashStore.tableId) hs
  rw [List.map_map, List.map_map] at hm
  exact hm

theorem Loaded.ids_step (H : Loaded h n C) (hE : Effect n n' C C' op r) :
    n'.tables.map HashStore.tableId = tableIds (h ++ [(op, r)]) := by
  rw [tableIds, List.filterMap_append, ← tableIds, ← H.ids]
  cases hE with
  | build hK hB =>
    rw [hB.tables, List.map_append, List.map_singleton, hK.tableId_eq]
    rfl
  | insert _ S _ => exact S.shapes.tableIds_eq.trans (List.append_nil _).symm
  | putOld _ _ S => exact S.shapes.tableIds_eq.trans (List.append_nil _).symm
  | putNew _ _ S _ => exact S.shapes.tableIds_eq.trans (List.append_nil _).symm
  | load _ S _ => exact S.shapes.tableIds_eq.trans (List.append_nil _).symm
  | deleteOld _ _ S => exact S.shapes.tableIds_eq.trans (List.append_nil _).symm
  | deleteNone _ _ hn _ =>
    rw [hn]
    exact (List.append_nil _).symm

theorem Loaded.owned_step (H : Loaded h n C) (L : Layout n C) (L' : Layout n' C') (hok : LoadCall h op)
    (hE : Effect n n' C C' op r) : Holds Owned n' C' := by
  have shape := fun (s t : HashStore) (b p : UInt64) (d : DataItem) => @Owned.of_shape s t b p d
  cases hE with
  | build _ hB => exact H.owned.built hB
  | insert hs S _ =>
    apply H.owned.stored shape L L' hs S
    intro _
    have hid := hok.2.1
    rw [← H.ids, List.getElem?_map, table_ok.mp hs] at hid
    exact (Option.some.inj hid).symm
  | putOld _ _ _ => exact hok.elim
  | putNew _ _ _ _ => exact hok.elim
  | load hs S _ => exact H.owned.stored shape L L' hs S fun _ => rfl
  | deleteOld hs hl S => exact H.owned.stored shape L L' hs S fun hv => absurd rfl hv
  | deleteNone _ _ hn hC => exact hn ▸ hC ▸ H.owned

theorem Run.loaded {n₀ : MemoryNode} (hf : Fresh n₀) (hrun : Run LoadCall n₀ h n) :
    ∃ C, Layout n C ∧ Loaded h n C := by
  apply hrun.invariant hf
  · intro C
    refine ⟨hf.keyed C, hf.agrees C, ?_, ?_⟩
    · intro s hs
      obtain ⟨i, hi⟩ := table_of_mem hs
      exact absurd hi (hf.table_ne i s)
    · rw [hf.tables]
      rfl
  · intro h n n' C C' op r hok L L' hE H
    have hp := H.proper hok
    exact ⟨H.keyed.step L L' hp hE, H.agrees.step H.keyed L L' hp (LoadCall.tracks hok) hE,
      H.owned_step L L' hok hE, H.ids_step hE⟩

end MemoryNode

end MetadataService.MemStore
