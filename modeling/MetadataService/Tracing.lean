import Mathlib.Data.List.Basic

namespace MetadataService.Tracing

structure Traced (ε ω α : Type) where
  log : List ω
  result : Except ε α

namespace Traced

variable {ε ω α β : Type}

instance : Monad (Traced ε ω) where
  pure a := ⟨[], .ok a⟩
  bind x f := match x.result with
    | .ok a => ⟨x.log ++ (f a).log, (f a).result⟩
    | .error e => ⟨x.log, .error e⟩

def fail (e : ε) : Traced ε ω α := ⟨[], .error e⟩

def touch (a : ω) (r : Except ε α) : Traced ε ω α := ⟨[a], r⟩

@[simp] theorem pure_log (a : α) : (pure a : Traced ε ω α).log = [] := rfl

@[simp] theorem pure_result (a : α) : (pure a : Traced ε ω α).result = .ok a := rfl

@[simp] theorem fail_log (e : ε) : (fail e : Traced ε ω α).log = [] := rfl

@[simp] theorem fail_result (e : ε) : (fail e : Traced ε ω α).result = .error e := rfl

@[simp] theorem touch_log (a : ω) (r : Except ε α) : (touch a r).log = [a] := rfl

@[simp] theorem touch_result (a : ω) (r : Except ε α) : (touch a r).result = r := rfl

theorem bind_eq (x : Traced ε ω α) (f : α → Traced ε ω β) :
    x >>= f = match x.result with
      | .ok a => ⟨x.log ++ (f a).log, (f a).result⟩
      | .error e => ⟨x.log, .error e⟩ := rfl

theorem bind_of_ok {x : Traced ε ω α} {a : α} (h : x.result = .ok a) (f : α → Traced ε ω β) :
    x >>= f = ⟨x.log ++ (f a).log, (f a).result⟩ := by
  rw [bind_eq, h]

@[simp] theorem bind_result (x : Traced ε ω α) (f : α → Traced ε ω β) :
    (x >>= f).result = x.result >>= fun a => (f a).result := by
  rw [bind_eq]
  cases x.result <;> rfl

theorem bind_congr {x : Traced ε ω α} {f g : α → Traced ε ω β} (h : ∀ a, x.result = .ok a → f a = g a) :
    x >>= f = x >>= g := by
  rw [bind_eq, bind_eq]
  cases hx : x.result with
  | error e => rfl
  | ok a =>
    dsimp only
    rw [h a hx]

theorem forall_bind_log {x : Traced ε ω α} {f : α → Traced ε ω β} {P : ω → Prop} :
    (∀ e ∈ (x >>= f).log, P e) ↔
      (∀ e ∈ x.log, P e) ∧ ∀ a, x.result = .ok a → ∀ e ∈ (f a).log, P e := by
  rw [bind_eq]
  cases x.result with
  | error e => simp
  | ok a => simp [or_imp, forall_and]

end Traced

end MetadataService.Tracing
