import Mathlib.Data.List.Basic

namespace MetadataService.Loops

variable {σ ρ : Type}

def run (body : σ → σ ⊕ ρ) : ℕ → σ → σ ⊕ ρ
  | 0, s => .inl s
  | n + 1, s =>
    match body s with
    | .inl t => run body n t
    | .inr r => .inr r

def visited (body : σ → σ ⊕ ρ) : ℕ → σ → List σ
  | 0, _ => []
  | n + 1, s =>
    match body s with
    | .inl t => s :: visited body n t
    | .inr _ => [s]

def Returns (body : σ → σ ⊕ ρ) (s : σ) (r : ρ) : Prop := ∃ n, run body n s = .inr r

def Diverges (body : σ → σ ⊕ ρ) (s : σ) : Prop := ∀ n, ∃ t, run body n s = .inl t

theorem run_next {body : σ → σ ⊕ ρ} {s t : σ} (h : body s = .inl t) (n : ℕ) :
    run body (n + 1) s = run body n t := by
  simp only [run, h]

theorem run_exit {body : σ → σ ⊕ ρ} {s : σ} {r : ρ} (h : body s = .inr r) (n : ℕ) :
    run body (n + 1) s = .inr r := by
  simp only [run, h]

theorem run_add (body : σ → σ ⊕ ρ) (m n : ℕ) (s : σ) :
    run body (m + n) s = match run body m s with
      | .inl t => run body n t
      | .inr r => .inr r := by
  induction m generalizing s with
  | zero => simp only [Nat.zero_add, run]
  | succ m ih =>
    rw [Nat.succ_add]
    cases h : body s with
    | inl t => simp only [run, h, ih]
    | inr r => simp only [run, h]

theorem run_stable {body : σ → σ ⊕ ρ} {m n : ℕ} {s : σ} {r : ρ} (h : run body m s = .inr r)
    (hmn : m ≤ n) : run body n s = .inr r := by
  obtain ⟨k, rfl⟩ := Nat.exists_eq_add_of_le hmn
  simp only [run_add, h]

theorem diverges_not_returns {body : σ → σ ⊕ ρ} {s : σ} (h : Diverges body s) (r : ρ) :
    ¬ Returns body s r := by
  rintro ⟨n, hn⟩
  obtain ⟨t, ht⟩ := h n
  rw [ht] at hn
  cases hn

theorem run_inv {body : σ → σ ⊕ ρ} {I : σ → Prop} (hI : ∀ s t, I s → body s = .inl t → I t)
    {n : ℕ} {s t : σ} (hs : I s) (h : run body n s = .inl t) : I t := by
  induction n generalizing s with
  | zero => cases h; exact hs
  | succ n ih =>
    cases hb : body s with
    | inl u =>
      rw [run_next hb] at h
      exact ih (hI s u hs hb) h
    | inr r => rw [run_exit hb] at h; cases h

theorem run_post {body : σ → σ ⊕ ρ} {I : σ → Prop} {Q : ρ → Prop}
    (hI : ∀ s t, I s → body s = .inl t → I t) (hQ : ∀ s r, I s → body s = .inr r → Q r)
    {n : ℕ} {s : σ} {r : ρ} (hs : I s) (h : run body n s = .inr r) : Q r := by
  induction n generalizing s with
  | zero => cases h
  | succ n ih =>
    cases hb : body s with
    | inl u =>
      rw [run_next hb] at h
      exact ih (hI s u hs hb) h
    | inr q =>
      rw [run_exit hb] at h
      exact Sum.inr.inj h ▸ hQ s q hs hb

theorem diverges_of_inv {body : σ → σ ⊕ ρ} {I : σ → Prop}
    (hI : ∀ s, I s → ∃ t, body s = .inl t ∧ I t) {s : σ} (hs : I s) : Diverges body s := by
  intro n
  induction n generalizing s with
  | zero => exact ⟨s, rfl⟩
  | succ n ih =>
    obtain ⟨t, hb, ht⟩ := hI s hs
    rw [run_next hb]
    exact ih ht

theorem returns_of_run {body : σ → σ ⊕ ρ} {m : ℕ} {s t : σ} {r : ρ} (h : run body m s = .inl t)
    (ht : Returns body t r) : Returns body s r := by
  obtain ⟨n, hn⟩ := ht
  refine ⟨m + n, ?_⟩
  simp only [run_add, h, hn]

theorem diverges_of_run {body : σ → σ ⊕ ρ} {m : ℕ} {s t : σ} (h : run body m s = .inl t)
    (ht : Diverges body t) : Diverges body s := by
  intro n
  rcases Nat.le_total n m with hn | hn
  · cases hr : run body n s with
    | inl u => exact ⟨u, rfl⟩
    | inr r => rw [run_stable hr hn] at h; cases h
  · obtain ⟨k, rfl⟩ := Nat.exists_eq_add_of_le hn
    simp only [run_add, h]
    exact ht k

end MetadataService.Loops
