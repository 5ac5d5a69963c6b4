import MetadataService.SplitSafety

namespace MetadataService.CT.Shared

open MarkedList Threads

variable {A K V : Type}

def keys (s : Shared A K V) : Set K :=
  {k | ∃ a n, s.nodes a = some n ∧ n.next.marked = false ∧ n.regular.map Prod.fst = some k}

variable {hash : K → UInt64} {op : Op K V} {s s' : Shared A K V} {k : K} {δ : ℤ}

theorem orderKey_of_regular {n : Node A K} {p : Option A} (hn : WellFormed hash n) (hr : n.regular = some (k, p)) : n.key = orderKey hash k := by
  rw [Node.key, orderKey, hr, (hn.item k p hr).1]
  rfl

variable [LinearOrder K]

variable [DecidableEq A]

namespace Effect

def answer : Op K V → Answer V
  | .insert _ _ => .inserted true
  | .delete _ => .deleted true
  | .find _ => .found none

end Effect

section Claims

omit [LinearOrder K] [DecidableEq A]

def Present : Op K V → Answer V → Prop
  | .insert _ _, .inserted isNew => isNew = false
  | .find _, .found value => value.isSome
  | _, _ => False

variable {r : Answer V} {p : Point A V}

end Claims

section Calls

variable {r : Answer V} {p : Point A V} {ch : Choice A V}

end Calls

section Runs

variable {l l' : Control A K V}

def InCall (op : Op K V) (l : Control A K V) : Prop := ∃ p, l = .running op p

instance [DecidableEq K] [DecidableEq V] (op : Op K V) (l : Control A K V) : Decidable (InCall op l) :=
  match l with
  | .idle _ => isFalse (by rintro ⟨p, ⟨⟩⟩)
  | .running op' p => decidable_of_iff (op' = op) ⟨fun h => ⟨p, by rw [h]⟩, by rintro ⟨p, ⟨⟩⟩; rfl⟩

variable {T : Type*} [DecidableEq T]

end Runs

end MetadataService.CT.Shared
