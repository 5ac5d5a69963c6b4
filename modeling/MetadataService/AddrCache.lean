import Mathlib.Data.List.Induction
import MetadataService.RemoteReader

namespace MetadataService.Dmc

namespace CuckooMap

variable {V : Type}

def upsert (m : UInt64 → Option V) (key : UInt64) (fn : V → V) (val : V) : UInt64 → Option V :=
  match m key with
  | some v => Function.update m key (some (fn v))
  | none => Function.update m key (some val)

def insert (m : UInt64 → Option V) (key : UInt64) (val : V) : UInt64 → Option V := upsert m key id val

def erase (m : UInt64 → Option V) (key : UInt64) : UInt64 → Option V := Function.update m key none

theorem insert_apply (m : UInt64 → Option V) (key k : UInt64) (val : V) :
    insert m key val k = if k = key then some ((m key).getD val) else m k := by
  unfold insert upsert
  cases m key with
  | some v => exact Function.update_apply m key (some v) k
  | none => exact Function.update_apply m key (some val) k

theorem erase_apply (m : UInt64 → Option V) (key k : UInt64) :
    erase m key k = if k = key then none else m k :=
  Function.update_apply m key none k

end CuckooMap

namespace AddrCache

def empty : AddrCache := fun _ _ => none

def insert (c : AddrCache) (remoteNodeId : Int32) (key : UInt64) (inode : InodeCacheItem) : AddrCache :=
  Function.update c remoteNodeId (CuckooMap.insert (c remoteNodeId) key inode)

def remove (c : AddrCache) (remoteNodeId : Int32) (key : UInt64) : AddrCache :=
  Function.update c remoteNodeId (CuckooMap.erase (c remoteNodeId) key)

def search (c : AddrCache) (remoteNodeId : Int32) (key : UInt64) : Option InodeCacheItem :=
  c remoteNodeId key

theorem search_insert (c : AddrCache) (n m : Int32) (k l : UInt64) (x : InodeCacheItem) :
    (c.insert n k x).search m l =
      if m = n ∧ l = k then some ((c.search n k).getD x) else c.search m l := by
  rw [search, insert, Function.update_apply]
  by_cases hm : m = n
  · rw [if_pos hm, CuckooMap.insert_apply, hm]
    simp only [true_and, search]
  · rw [if_neg hm, if_neg fun h => hm h.1, search]

theorem search_remove (c : AddrCache) (n m : Int32) (k l : UInt64) :
    (c.remove n k).search m l = if m = n ∧ l = k then none else c.search m l := by
  rw [search, remove, Function.update_apply]
  by_cases hm : m = n
  · rw [if_pos hm, CuckooMap.erase_apply, hm]
    simp only [true_and, search]
  · rw [if_neg hm, if_neg fun h => hm h.1, search]

inductive Call
  | insert (node : Int32) (key : UInt64) (inode : InodeCacheItem)
  | remove (node : Int32) (key : UInt64)
  | search (node : Int32) (key : UInt64)

def call (c : AddrCache) : Call → AddrCache
  | .insert n k x => c.insert n k x
  | .remove n k => c.remove n k
  | .search _ _ => c

def after (c : AddrCache) (calls : List Call) : AddrCache := calls.foldl call c

/-- The inode of the latest insertion of a key that no later removal cancelled. -/
def latest (calls : List Call) (node : Int32) (key : UInt64) : Option InodeCacheItem :=
  calls.foldl (fun old op => match op with
    | .insert n k x => if node = n ∧ key = k then some x else old
    | .remove n k => if node = n ∧ key = k then none else old
    | .search _ _ => old) none

theorem after_append (c : AddrCache) (calls : List Call) (op : Call) :
    c.after (calls ++ [op]) = (c.after calls).call op := by
  rw [after, List.foldl_append]
  rfl

theorem latest_append (calls : List Call) (op : Call) (n : Int32) (k : UInt64) :
    latest (calls ++ [op]) n k = match op with
      | .insert m l x => if n = m ∧ k = l then some x else latest calls n k
      | .remove m l => if n = m ∧ k = l then none else latest calls n k
      | .search _ _ => latest calls n k := by
  rw [latest, List.foldl_append]
  rfl

def Call.Inserts (node : Int32) (key : UInt64) : Call → Prop
  | .insert n k _ => node = n ∧ key = k
  | .remove _ _ => False
  | .search _ _ => False

theorem search_after_none {c : AddrCache} {n : Int32} {k : UInt64} (hc : c.search n k = none)
    {calls : List Call} (h : ∀ op ∈ calls, ¬ op.Inserts n k) : (c.after calls).search n k = none := by
  induction calls using List.reverseRecOn with
  | nil => exact hc
  | append_singleton calls op ih =>
    have hold := ih fun op' hop => h op' (List.mem_append_left _ hop)
    have hop := h op (List.mem_append_right _ List.mem_cons_self)
    rw [after_append]
    cases op with
    | insert m l x =>
      have hne : ¬ (n = m ∧ k = l) := hop
      rw [call, search_insert, if_neg hne]
      exact hold
    | remove m l =>
      rw [call, search_remove]
      split_ifs
      · rfl
      · exact hold
    | search m l => exact hold

def Agrees (calls : List Call) : Prop :=
  ∀ node key, (empty.after calls).search node key = latest calls node key

/-- The call is no insertion of a key that is cached with another inode. -/
def Fresh (calls : List Call) : Call → Prop
  | .insert node key inode => latest calls node key = none ∨ latest calls node key = some inode
  | .remove _ _ => True
  | .search _ _ => True

theorem Agrees.call_iff {calls : List Call} (h : Agrees calls) (op : Call) :
    Agrees (calls ++ [op]) ↔ Fresh calls op := by
  unfold Agrees
  simp only [after_append, latest_append]
  cases op with
  | insert n k x =>
    simp only [call, search_insert, h _ _, Fresh]
    constructor
    · intro hall
      have hnk := hall n k
      rw [if_pos ⟨rfl, rfl⟩, if_pos ⟨rfl, rfl⟩, Option.some.injEq] at hnk
      cases hl : latest calls n k with
      | none => exact Or.inl rfl
      | some y =>
        rw [hl, Option.getD_some] at hnk
        exact Or.inr (congrArg some hnk)
    · intro hfresh m l
      split_ifs
      · rcases hfresh with hl | hl <;> rw [hl] <;> rfl
      · rfl
  | remove n k => simp only [call, search_remove, h _ _, Fresh, implies_true]
  | search n k => simp only [call, h _ _, Fresh, implies_true]

theorem agrees_prefixes_iff (calls : List Call) :
    (∀ pre, pre <+: calls → Agrees pre) ↔ ∀ pre op, pre ++ [op] <+: calls → Fresh pre op := by
  constructor
  · intro h pre op hpre
    have hold := h pre ((List.prefix_append pre [op]).trans hpre)
    exact (hold.call_iff op).mp (h _ hpre)
  · intro h pre
    induction pre using List.reverseRecOn with
    | nil => exact fun _ _ _ => rfl
    | append_singleton pre op ih =>
      intro hpre
      have hold := ih ((List.prefix_append pre [op]).trans hpre)
      exact (hold.call_iff op).mpr (h pre op hpre)

theorem reinsert_keeps_stale_inode :
    ¬ ∀ calls pre, pre <+: calls → Agrees pre := by
  intro h
  have hsearch := h [.insert 0 7 ⟨100, ⟨0, 0, 0, 0, false⟩⟩, .insert 0 7 ⟨200, ⟨0, 0, 0, 0, false⟩⟩] _
    List.prefix_rfl 0 7
  exact absurd (congrArg (Option.map InodeCacheItem.addr) hsearch) (by decide)

end AddrCache

end MetadataService.Dmc
