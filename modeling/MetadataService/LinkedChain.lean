import Mathlib.Data.List.Nodup
import Mathlib.Data.Set.Basic
import Mathlib.Logic.Function.Basic
import MetadataService.Loops

namespace MetadataService.LinkedChain

open Loops

variable {A ρ : Type}

inductive Chain (next : A → A) (null : A) : A → List A → Prop
  | nil : Chain next null null []
  | cons {a : A} {ns : List A} (ha : a ≠ null) (ht : Chain next null (next a) ns) :
      Chain next null a (a :: ns)

inductive Reach (next : A → A) (null : A) : A → A → Prop
  | here {a : A} (ha : a ≠ null) : Reach next null a a
  | step {a x : A} (ha : a ≠ null) (h : Reach next null (next a) x) : Reach next null a x

section Chains

variable {next next' : A → A} {null a x l : A} {ns ms pre : List A}

theorem Chain.unique (h : Chain next null a ns) (h' : Chain next null a ms) : ns = ms := by
  induction h generalizing ms with
  | nil =>
    cases h' with
    | nil => rfl
    | cons ha ht => exact absurd rfl ha
  | cons ha ht ih =>
    cases h' with
    | nil => exact absurd rfl ha
    | cons ha' ht' => rw [ih ht']

theorem Chain.ne_null (h : Chain next null a ns) (hx : x ∈ ns) : x ≠ null := by
  induction h with
  | nil => cases hx
  | cons ha ht ih =>
    rcases List.mem_cons.mp hx with rfl | hx
    · exact ha
    · exact ih hx

theorem Chain.head_mem (h : Chain next null a ns) (ha : a ≠ null) : a ∈ ns := by
  cases h with
  | nil => exact absurd rfl ha
  | cons => exact List.mem_cons_self

theorem Chain.ne_nil (h : Chain next null a ns) (ha : a ≠ null) : ns ≠ [] :=
  List.ne_nil_of_mem (h.head_mem ha)

theorem Chain.eq_cons (h : Chain next null a ns) (hne : ns ≠ []) :
    ∃ tail, ns = a :: tail ∧ Chain next null (next a) tail := by
  cases h with
  | nil => exact absurd rfl hne
  | cons ha ht => exact ⟨_, rfl, ht⟩

theorem Chain.suffix (h : Chain next null a (pre ++ x :: ms)) : Chain next null x (x :: ms) := by
  induction pre generalizing a with
  | nil =>
    cases h with
    | cons ha ht => exact .cons ha ht
  | cons y pre ih =>
    cases h with
    | cons ha ht => exact ih ht

theorem Chain.next_eq (h : Chain next null a (pre ++ x :: l :: ms)) : next x = l := by
  have hs := h.suffix
  cases hs with
  | cons ha ht =>
    cases ht with
    | cons => rfl

theorem Chain.next_last (h : Chain next null a (pre ++ [l])) : next l = null := by
  have hs := h.suffix
  cases hs with
  | cons ha ht =>
    cases ht with
    | nil => rfl

theorem Chain.nodup (h : Chain next null a ns) : ns.Nodup := by
  induction h with
  | nil => exact List.nodup_nil
  | @cons a ns ha ht ih =>
    refine List.nodup_cons.mpr ⟨fun hmem => ?_, ih⟩
    -- a cell met twice would have two chains of different lengths
    obtain ⟨pre, post, rfl⟩ := List.append_of_mem hmem
    have he := ht.suffix.unique (.cons ha ht)
    have hl := congrArg List.length he
    simp only [List.length_cons, List.length_append] at hl
    omega

theorem Chain.congr (h : Chain next null a ns) (hn : ∀ y ∈ ns, next' y = next y) :
    Chain next' null a ns := by
  induction h with
  | nil => exact .nil
  | cons ha ht ih =>
    refine .cons ha ?_
    rw [hn _ List.mem_cons_self]
    exact ih fun y hy => hn y (List.mem_cons_of_mem _ hy)

theorem Chain.link (h : Chain next null a (pre ++ [l])) (hpre : ∀ y ∈ pre, next' y = next y)
    (hl : next' l = x) (hx : next' x = null) (hne : x ≠ null) :
    Chain next' null a (pre ++ [l, x]) := by
  induction pre generalizing a with
  | nil =>
    cases h with
    | cons ha ht =>
      refine .cons ha ?_
      rw [hl]
      refine .cons hne ?_
      rw [hx]
      exact .nil
  | cons y pre ih =>
    cases h with
    | cons ha ht =>
      refine .cons ha ?_
      rw [hpre y List.mem_cons_self]
      exact ih ht fun z hz => hpre z (List.mem_cons_of_mem _ hz)

theorem Chain.mem_iff_reach (h : Chain next null a ns) : x ∈ ns ↔ Reach next null a x := by
  constructor
  · intro hx
    induction h with
    | nil => cases hx
    | cons ha ht ih =>
      rcases List.mem_cons.mp hx with rfl | hx
      · exact .here ha
      · exact .step ha (ih hx)
  · intro hr
    induction hr generalizing ns with
    | here ha => exact h.head_mem ha
    | step ha hr ih =>
      cases h with
      | nil => exact absurd rfl ha
      | cons _ ht => exact List.mem_cons_of_mem _ (ih ht)

end Chains

section Walks

variable [DecidableEq A]

def walkBody (next : A → A) (null : A) (f : A → Option ρ) (miss : ρ) (a : A) : A ⊕ ρ :=
  if a = null then .inr miss
  else match f a with
    | some r => .inr r
    | none => .inl (next a)

def tailBody (next : A → A) (null : A) (f : A → Option ρ) (a : A) : A ⊕ (ρ ⊕ A) :=
  if a = null then .inr (.inr a)
  else match f a with
    | some r => .inr (.inl r)
    | none => if next a = null then .inr (.inr a) else .inl (next a)

def upTo (f : A → Option ρ) : List A → List A
  | [] => []
  | a :: ns => if (f a).isSome then [a] else a :: upTo f ns

variable {next : A → A} {null a : A} {ns : List A} {f : A → Option ρ} {miss : ρ}

theorem walkBody_null : walkBody next null f miss null = .inr miss := if_pos rfl

theorem walkBody_hit {r : ρ} (ha : a ≠ null) (hf : f a = some r) :
    walkBody next null f miss a = .inr r := by
  simp only [walkBody, if_neg ha, hf]

theorem walkBody_miss (ha : a ≠ null) (hf : f a = none) :
    walkBody next null f miss a = .inl (next a) := by
  simp only [walkBody, if_neg ha, hf]

theorem walk_run (h : Chain next null a ns) :
    run (walkBody next null f miss) (ns.length + 1) a = .inr ((ns.findSome? f).getD miss) := by
  induction h with
  | nil => exact run_exit walkBody_null 0
  | @cons a ns ha ht ih =>
    cases hf : f a with
    | some r =>
      rw [run_exit (walkBody_hit ha hf)]
      simp only [List.findSome?_cons, hf, Option.getD_some]
    | none =>
      rw [run_next (walkBody_miss ha hf), List.length_cons, ih]
      simp only [List.findSome?_cons, hf]

theorem walk_visited (h : Chain next null a ns) :
    (visited (walkBody next null f miss) (ns.length + 1) a).filter (· ≠ null) = upTo f ns := by
  induction h with
  | nil => simp [visited, walkBody, upTo]
  | @cons a ns ha ht ih =>
    cases hf : f a with
    | some r => simp [visited, walkBody, upTo, hf, ha]
    | none =>
      rw [visited]
      simp only [walkBody, if_neg ha, hf, List.length_cons, upTo]
      simpa [ha] using ih

omit [DecidableEq A] in
theorem prefix_upTo (pre : List A) (x : A) (post : List A) (h : ∀ y ∈ pre, f y = none) :
    pre ++ [x] <+: upTo f (pre ++ x :: post) := by
  induction pre with
  | nil =>
    simp only [List.nil_append, upTo]
    split_ifs <;> simp
  | cons a pre ih =>
    have hf : f a = none := h a List.mem_cons_self
    simp only [List.cons_append, upTo, hf, Option.isSome_none]
    exact (List.prefix_cons_inj a).mpr (ih fun y hy => h y (List.mem_cons_of_mem a hy))

theorem tail_run (h : Chain next null a ns) (hne : ns ≠ []) :
    run (tailBody next null f) ns.length a =
      .inr (match ns.findSome? f with
        | some r => .inl r
        | none => .inr (ns.getLast hne)) := by
  induction h with
  | nil => exact absurd rfl hne
  | @cons a ns ha ht ih =>
    rw [List.length_cons]
    cases hf : f a with
    | some r =>
      have hb : tailBody next null f a = .inr (.inl r) := by simp only [tailBody, if_neg ha, hf]
      rw [run_exit hb]
      simp only [List.findSome?_cons, hf]
    | none =>
      by_cases hn : next a = null
      · have hb : tailBody next null f a = .inr (.inr a) := by
          simp only [tailBody, if_neg ha, hf, if_pos hn]
        obtain rfl : ns = [] := (hn ▸ ht).unique .nil
        rw [run_exit hb]
        simp only [List.findSome?_cons, hf, List.findSome?_nil, List.getLast_singleton]
      · have hb : tailBody next null f a = .inl (next a) := by
          simp only [tailBody, if_neg ha, hf, if_neg hn]
        have hns := ht.ne_nil hn
        rw [run_next hb, ih hns]
        simp only [List.findSome?_cons, hf, List.getLast_cons hns]

end Walks

structure Forest (next : A → A) (null : A) (roots : Set A) (C : A → List A) : Prop where
  chain : ∀ a ∈ roots, Chain next null a (C a)
  apart : ∀ a ∈ roots, ∀ b ∈ roots, a ≠ b → (C a).Disjoint (C b)

namespace Forest

variable {next next' : A → A} {null : A} {roots : Set A} {C : A → List A}

theorem root_eq (F : Forest next null roots C) {a b x : A} (ha : a ∈ roots) (hb : b ∈ roots)
    (hxa : x ∈ C a) (hxb : x ∈ C b) : a = b := by
  by_contra hne
  exact F.apart a ha b hb hne hxa hxb

theorem congr (F : Forest next null roots C)
    (hn : ∀ a ∈ roots, ∀ y ∈ C a, next' y = next y) : Forest next' null roots C :=
  ⟨fun a ha => (F.chain a ha).congr (hn a ha), F.apart⟩

theorem link [DecidableEq A] (F : Forest next null roots C) {a l x : A} {pre : List A}
    (ha : a ∈ roots) (hC : C a = pre ++ [l]) (hfresh : ∀ b ∈ roots, x ∉ C b) (hx0 : x ≠ null)
    (hn : ∀ b ∈ roots, ∀ y ∈ C b, y ≠ l → next' y = next y) (hl : next' l = x)
    (hx : next' x = null) : Forest next' null roots (Function.update C a (C a ++ [x])) := by
  have hchain := F.chain a ha
  rw [hC] at hchain
  have hlpre : l ∉ pre := by
    have := hchain.nodup
    simp only [List.nodup_append, List.mem_singleton] at this
    exact fun h => this.2.2 l h l rfl rfl
  refine ⟨fun b hb => ?_, fun b hb c hc hbc => ?_⟩
  · by_cases hba : b = a
    · subst hba
      rw [Function.update_self, hC, List.append_assoc]
      exact hchain.link (fun y hy => hn b hb y (by simp [hC, hy]) (by rintro rfl; exact hlpre hy)) hl hx hx0
    · rw [Function.update_of_ne hba]
      refine (F.chain b hb).congr fun y hy => hn b hb y hy ?_
      rintro rfl
      exact hba (F.root_eq hb ha hy (by simp [hC]))
  · by_cases hba : b = a
    · subst hba
      rw [Function.update_self, Function.update_of_ne (Ne.symm hbc)]
      intro y hy hyc
      rcases List.mem_append.mp hy with hy | hy
      · exact F.apart b hb c hc hbc hy hyc
      · rw [List.mem_singleton] at hy
        exact hfresh c hc (hy ▸ hyc)
    · rw [Function.update_of_ne hba]
      by_cases hca : c = a
      · subst hca
        rw [Function.update_self]
        intro y hyb hy
        rcases List.mem_append.mp hy with hy | hy
        · exact F.apart b hb c hc hbc hyb hy
        · rw [List.mem_singleton] at hy
          exact hfresh b hb (hy ▸ hyb)
      · rw [Function.update_of_ne hca]
        exact F.apart b hb c hc hbc

open scoped Classical in
theorem grow (F : Forest next null roots C) {new : Set A} (h0 : ∀ a ∈ new, a ≠ null)
    (hnext : ∀ a ∈ new, next a = null) (hfresh : ∀ a ∈ new, ∀ b ∈ roots, a ∉ C b) :
    Forest next null (roots ∪ new) (fun a => if a ∈ new then [a] else C a) := by
  refine ⟨fun a ha => ?_, fun a ha b hb hab => ?_⟩
  · by_cases hn : a ∈ new
    · simp only [if_pos hn]
      refine .cons (h0 a hn) ?_
      rw [hnext a hn]
      exact .nil
    · simp only [if_neg hn]
      exact F.chain a (ha.resolve_right hn)
  · by_cases hna : a ∈ new <;> by_cases hnb : b ∈ new
    · simpa only [if_pos hna, if_pos hnb, List.singleton_disjoint, List.mem_singleton] using hab
    · simp only [if_pos hna, if_neg hnb, List.singleton_disjoint]
      exact hfresh a hna b (hb.resolve_right hnb)
    · simp only [if_neg hna, if_pos hnb, List.disjoint_singleton]
      exact hfresh b hnb a (ha.resolve_right hna)
    · simp only [if_neg hna, if_neg hnb]
      exact F.apart a (ha.resolve_right hna) b (hb.resolve_right hnb) hab

end Forest

end MetadataService.LinkedChain
