import Mathlib.Data.Finset.Sort
import Mathlib.Logic.Function.Basic

namespace MetadataService.MarkedList

structure Cell (κ A : Type*) where
  key : κ
  next : Option A
  marked : Bool

variable {κ A : Type*} [LinearOrder κ] {m m' : A → Option (Cell κ A)} {root a b p q new : A}
  {c d : Cell κ A} {k : κ} {l pre post : List A} {o cur : Option A}

def Threaded (m : A → Option (Cell κ A)) : Option A → List A → Prop
  | none, l => l = []
  | some _, [] => False
  | some a, b :: l => a = b ∧ ∃ c, m a = some c ∧ Threaded m c.next l

def Sorted (m : A → Option (Cell κ A)) (l : List A) : Prop :=
  l.Pairwise fun a b => ∀ c d, m a = some c → m b = some d → c.key < d.key

structure Holds (m : A → Option (Cell κ A)) (root : A) (l : List A) : Prop where
  threaded : Threaded m (some root) l
  sorted : Sorted m l
  live : ∀ a c, m a = some c → c.marked = false → a ∈ l

def keys (m : A → Option (Cell κ A)) : Set κ := {k | ∃ a c, m a = some c ∧ c.marked = false ∧ c.key = k}

omit [LinearOrder κ] in
theorem Threaded.split (h : Threaded m o (pre ++ p :: post)) :
    ∃ c, m p = some c ∧ Threaded m c.next post := by
  induction pre generalizing o with
  | nil =>
    cases o with
    | none => cases h
    | some a =>
      obtain ⟨rfl, c, hc, ht⟩ := h
      exact ⟨c, hc, ht⟩
  | cons x pre ih =>
    cases o with
    | none => cases h
    | some a =>
      obtain ⟨-, c, -, ht⟩ := h
      exact ih ht

omit [LinearOrder κ] in
theorem Threaded.unique {l' : List A} (h : Threaded m o l) (h' : Threaded m o l') : l = l' := by
  induction l generalizing o l' with
  | nil =>
    cases o with
    | none =>
      cases l' with
      | nil => rfl
      | cons y l' => cases h'
    | some a => exact absurd h id
  | cons x l ih =>
    cases o with
    | none => cases h
    | some a =>
      cases l' with
      | nil => exact absurd h' id
      | cons y l' =>
        obtain ⟨rfl, c, hc, ht⟩ := h
        obtain ⟨rfl, c', hc', ht'⟩ := h'
        rw [hc] at hc'
        obtain rfl := Option.some.inj hc'
        rw [ih ht ht']

omit [LinearOrder κ] in
theorem Threaded.stored (h : Threaded m o l) (ha : a ∈ l) : ∃ c, m a = some c := by
  obtain ⟨pre, post, rfl⟩ := List.append_of_mem ha
  obtain ⟨c, hc, -⟩ := h.split
  exact ⟨c, hc⟩

omit [LinearOrder κ] in
theorem Threaded.congr (h : Threaded m o l)
    (hm : ∀ a ∈ l, ∀ c, m a = some c → ∃ c', m' a = some c' ∧ c'.next = c.next) : Threaded m' o l := by
  induction l generalizing o with
  | nil =>
    cases o with
    | none => rfl
    | some a => exact h
  | cons x l ih =>
    cases o with
    | none => exact h
    | some a =>
      obtain ⟨rfl, c, hc, ht⟩ := h
      obtain ⟨c', hc', hn⟩ := hm a List.mem_cons_self c hc
      refine ⟨rfl, c', hc', ?_⟩
      rw [hn]
      exact ih ht fun b hb => hm b (List.mem_cons_of_mem a hb)

omit [LinearOrder κ] in
theorem Threaded.redirect (h : Threaded m o (pre ++ p :: post)) {post' : List A}
    (hpre : ∀ a ∈ pre, ∀ c, m a = some c → ∃ c', m' a = some c' ∧ c'.next = c.next)
    (hp : ∃ c, m' p = some c ∧ Threaded m' c.next post') : Threaded m' o (pre ++ p :: post') := by
  induction pre generalizing o with
  | nil =>
    cases o with
    | none => cases h
    | some a =>
      obtain ⟨rfl, -⟩ := h
      exact ⟨rfl, hp⟩
  | cons x pre ih =>
    cases o with
    | none => cases h
    | some a =>
      obtain ⟨rfl, c, hc, ht⟩ := h
      obtain ⟨c', hc', hn⟩ := hpre a List.mem_cons_self c hc
      refine ⟨rfl, c', hc', ?_⟩
      rw [hn]
      exact ih ht fun b hb => hpre b (List.mem_cons_of_mem a hb)

theorem Sorted.congr (h : Sorted m l)
    (hm : ∀ a ∈ l, ∀ c', m' a = some c' → ∃ c, m a = some c ∧ c.key = c'.key) : Sorted m' l := by
  apply List.Pairwise.imp_of_mem _ h
  intro a b ha hb hlt c' d' hc' hd'
  obtain ⟨c, hc, hk⟩ := hm a ha c' hc'
  obtain ⟨d, hd, hk'⟩ := hm b hb d' hd'
  rw [← hk, ← hk']
  exact hlt c d hc hd

theorem Sorted.insert (h : Sorted m (pre ++ p :: post)) (hp : m p = some c) (hnew : m new = some d)
    (hk : c.key < d.key) (hafter : ∀ b ∈ post, ∀ e, m b = some e → d.key < e.key) :
    Sorted m (pre ++ p :: new :: post) := by
  obtain ⟨hpre, hrest, hcross⟩ := List.pairwise_append.mp h
  obtain ⟨hppost, hpost⟩ := List.pairwise_cons.mp hrest
  refine List.pairwise_append.mpr ⟨hpre, List.pairwise_cons.mpr ⟨?_, List.pairwise_cons.mpr ⟨?_, hpost⟩⟩, ?_⟩
  · intro b hb e f he hf
    rcases List.mem_cons.mp hb with rfl | hb
    · rw [hp] at he
      rw [hnew] at hf
      rw [← Option.some.inj he, ← Option.some.inj hf]
      exact hk
    · exact hppost b hb e f he hf
  · intro b hb e f he hf
    rw [hnew] at he
    rw [← Option.some.inj he]
    exact hafter b hb f hf
  · intro a ha b hb e f he hf
    rcases List.mem_cons.mp hb with rfl | hb
    · exact hcross a ha b List.mem_cons_self e f he hf
    · rcases List.mem_cons.mp hb with rfl | hb
      · rw [hnew] at hf
        rw [← Option.some.inj hf]
        exact (hcross a ha p List.mem_cons_self e c he hp).trans hk
      · exact hcross a ha b (List.mem_cons_of_mem p hb) e f he hf

section Updates

variable [DecidableEq A]

theorem Sorted.update (h : Sorted m l) (hp : m p = some c) (hk : d.key = c.key) :
    Sorted (Function.update m p (some d)) l := by
  apply h.congr
  intro a _ e he
  by_cases hap : a = p
  · subst hap
    rw [Function.update_self] at he
    exact ⟨c, hp, hk.symm.trans (congrArg Cell.key (Option.some.inj he))⟩
  · rw [Function.update_of_ne hap] at he
    exact ⟨e, he, rfl⟩

end Updates

namespace Holds

theorem lt (h : Holds m root (pre ++ p :: post)) (hp : m p = some c) (hb : b ∈ post) (hd : m b = some d) :
    c.key < d.key :=
  (List.pairwise_cons.mp (List.pairwise_append.mp h.sorted).2.1).1 b hb c d hp hd

theorem lt_of_mem_pre (h : Holds m root (pre ++ p :: post)) (hp : m p = some c) (hb : b ∈ pre)
    (hd : m b = some d) : d.key < c.key :=
  (List.pairwise_append.mp h.sorted).2.2 b hb p List.mem_cons_self d c hd hp

theorem ne_of_mem_pre (h : Holds m root (pre ++ p :: post)) (hp : m p = some c) (hb : b ∈ pre) : b ≠ p := by
  rintro rfl
  exact lt_irrefl _ (h.lt_of_mem_pre hp hb hp)

theorem ne_of_mem_post (h : Holds m root (pre ++ p :: post)) (hp : m p = some c) (hb : b ∈ post) : b ≠ p := by
  rintro rfl
  exact lt_irrefl _ (h.lt hp hb hp)

theorem not_mem_unlinked (h : Holds m root (pre ++ p :: q :: post)) (hq : m q = some d) : q ∉ pre ++ p :: post := by
  rw [List.append_cons] at h ⊢
  intro hmem
  rcases List.mem_append.mp hmem with hmem | hmem
  · exact h.ne_of_mem_pre hq hmem rfl
  · exact h.ne_of_mem_post hq hmem rfl

theorem split_next (h : Holds m root l) (hp : m p = some c) (hlive : c.marked = false)
    (hnext : c.next = some q) : ∃ pre post, l = pre ++ p :: q :: post := by
  obtain ⟨pre, post, rfl⟩ := List.append_of_mem (h.live p c hp hlive)
  obtain ⟨e, he, ht⟩ := h.threaded.split
  rw [hp] at he
  obtain rfl := Option.some.inj he
  rw [hnext] at ht
  cases post with
  | nil => exact absurd ht id
  | cons x post =>
    obtain ⟨rfl, -⟩ := ht
    exact ⟨pre, post, rfl⟩

theorem next_nil (h : Holds m root (pre ++ p :: post)) (hp : m p = some c) (hnext : c.next = none) : post = [] := by
  obtain ⟨e, he, ht⟩ := h.threaded.split
  rw [hp] at he
  obtain rfl := Option.some.inj he
  rw [hnext] at ht
  cases post with
  | nil => rfl
  | cons x post => cases ht

theorem next_le (h : Holds m root (pre ++ p :: post)) (hp : m p = some c) (hb : b ∈ post) (hd : m b = some d) :
    ∃ a e, c.next = some a ∧ m a = some e ∧ (a = b ∨ e.key < d.key) := by
  obtain ⟨e, he, ht⟩ := h.threaded.split
  rw [hp] at he
  obtain rfl := Option.some.inj he
  cases hn : c.next with
  | none =>
    obtain rfl := h.next_nil hp hn
    cases hb
  | some a =>
    rw [hn] at ht
    cases post with
    | nil => cases hb
    | cons x post =>
      obtain ⟨rfl, e, he, -⟩ := ht
      refine ⟨a, e, rfl, he, ?_⟩
      rcases List.mem_cons.mp hb with rfl | hb
      · exact .inl rfl
      · right
        rw [List.append_cons] at h
        exact h.lt he hb hd

theorem not_mem_between (h : Holds m root l) (hp : m p = some c) (hlive : c.marked = false) (hq : m q = some d)
    (hlt : c.key < d.key) (hnext : ∀ a e, c.next = some a → m a = some e → d.key ≤ e.key ∧ a ≠ q) : q ∉ l := by
  intro hmem
  obtain ⟨pre, post, rfl⟩ := List.append_of_mem (h.live p c hp hlive)
  rcases List.mem_append.mp hmem with hmem | hmem
  · exact lt_asymm hlt (h.lt_of_mem_pre hp hmem hq)
  · rcases List.mem_cons.mp hmem with rfl | hmem
    · rw [hp] at hq
      rw [Option.some.inj hq] at hlt
      exact lt_irrefl _ hlt
    · obtain ⟨a, e, ha, he, hcase⟩ := h.next_le hp hmem hq
      obtain ⟨hle, hne⟩ := hnext a e ha he
      rcases hcase with rfl | hek
      · exact hne rfl
      · exact not_lt_of_ge hle hek

variable [DecidableEq A]

theorem link (h : Holds m root l) (hp : m p = some c) (hlive : c.marked = false) (hnew : m new = none)
    (hk : c.key < k) (hnext : ∀ a d, c.next = some a → m a = some d → k < d.key) :
    ∃ pre post, l = pre ++ p :: post ∧
      Holds (Function.update (Function.update m new (some ⟨k, c.next, false⟩)) p
        (some { c with next := some new })) root (pre ++ p :: new :: post) := by
  obtain ⟨pre, post, rfl⟩ := List.append_of_mem (h.live p c hp hlive)
  refine ⟨pre, post, rfl, ?_⟩
  have hne : new ≠ p := by
    rintro rfl
    rw [hp] at hnew
    cases hnew
  have hpm : Function.update m new (some ⟨k, c.next, false⟩) p = some c := by
    rw [Function.update_of_ne hne.symm, hp]
  have hout {a : A} (ha : a ∈ pre ++ p :: post) : a ≠ new := by
    rintro rfl
    obtain ⟨e, he⟩ := h.threaded.stored ha
    rw [hnew] at he
    cases he
  have hkeep {a : A} (ha : a ∈ pre ++ p :: post) (hap : a ≠ p) :
      Function.update (Function.update m new (some ⟨k, c.next, false⟩)) p
        (some { c with next := some new }) a = m a := by
    rw [Function.update_of_ne hap, Function.update_of_ne (hout ha)]
  constructor
  · apply h.threaded.redirect
    · intro a ha e he
      refine ⟨e, ?_, rfl⟩
      rw [hkeep (List.mem_append_left _ ha) (h.ne_of_mem_pre hp ha), he]
    · refine ⟨_, Function.update_self .., rfl, ⟨k, c.next, false⟩, ?_, ?_⟩
      · rw [Function.update_of_ne hne, Function.update_self]
      · obtain ⟨e, he, ht⟩ := h.threaded.split
        rw [hp] at he
        obtain rfl := Option.some.inj he
        apply ht.congr
        intro a ha e he
        refine ⟨e, ?_, rfl⟩
        rw [hkeep (List.mem_append_right _ (List.mem_cons_of_mem p ha)) (h.ne_of_mem_post hp ha), he]
  · -- the new cell stands behind `p` and before all that was behind it
    have hold : Sorted (Function.update (Function.update m new (some ⟨k, c.next, false⟩)) p
        (some { c with next := some new })) (pre ++ p :: post) := by
      refine Sorted.update ?_ hpm rfl
      apply h.sorted.congr
      intro a ha e he
      rw [Function.update_of_ne (hout ha)] at he
      exact ⟨e, he, rfl⟩
    have hself : Function.update (Function.update m new (some ⟨k, c.next, false⟩)) p
        (some { c with next := some new }) new = some ⟨k, c.next, false⟩ := by
      rw [Function.update_of_ne hne, Function.update_self]
    have hafter {b : A} {d : Cell κ A} (hb : b ∈ post) (hd : m b = some d) : k < d.key := by
      obtain ⟨a, e, ha, he, rfl | hlt⟩ := h.next_le hp hb hd
      · exact hnext a d ha hd
      · exact (hnext a e ha he).trans hlt
    refine hold.insert (Function.update_self ..) hself hk ?_
    intro b hb d hd
    rw [hkeep (List.mem_append_right _ (List.mem_cons_of_mem p hb)) (h.ne_of_mem_post hp hb)] at hd
    exact hafter hb hd
  · intro a e he hu
    by_cases hap : a = p
    · simp [hap]
    · rw [Function.update_of_ne hap] at he
      by_cases han : a = new
      · simp [han]
      · rw [Function.update_of_ne han] at he
        have hmem := h.live a e he hu
        simp only [List.mem_append, List.mem_cons] at hmem ⊢
        tauto

theorem unlink (h : Holds m root l) (hp : m p = some c) (hlive : c.marked = false) (hnext : c.next = some q)
    (hq : m q = some d) (hmarked : d.marked = true) :
    ∃ pre post, l = pre ++ p :: q :: post ∧
      Holds (Function.update m p (some { c with next := d.next })) root (pre ++ p :: post) := by
  obtain ⟨pre, post, rfl⟩ := h.split_next hp hlive hnext
  refine ⟨pre, post, rfl, ?_⟩
  constructor
  · apply h.threaded.redirect
    · intro a ha e he
      refine ⟨e, ?_, rfl⟩
      rw [Function.update_of_ne (h.ne_of_mem_pre hp ha), he]
    · refine ⟨_, Function.update_self .., ?_⟩
      obtain ⟨e, he, ht⟩ : ∃ e, m q = some e ∧ Threaded m e.next post := by
        apply Threaded.split
        rw [← List.append_cons]
        exact h.threaded
      rw [hq] at he
      obtain rfl := Option.some.inj he
      apply ht.congr
      intro a ha e he
      refine ⟨e, ?_, rfl⟩
      rw [Function.update_of_ne (h.ne_of_mem_post hp (List.mem_cons_of_mem q ha)), he]
  · refine Sorted.update ?_ hp rfl
    apply List.Pairwise.sublist _ h.sorted
    exact ((List.sublist_cons_self q post).cons_cons p).append_left pre
  · intro a e he hu
    by_cases hap : a = p
    · simp [hap]
    · rw [Function.update_of_ne hap] at he
      have haq : a ≠ q := by
        rintro rfl
        rw [hq] at he
        rw [← Option.some.inj he, hmarked] at hu
        cases hu
      have hmem := h.live a e he hu
      simp only [List.mem_append, List.mem_cons] at hmem ⊢
      tauto

theorem mark (h : Holds m root l) (hp : m p = some c) :
    Holds (Function.update m p (some { c with marked := true })) root l := by
  constructor
  · apply h.threaded.congr
    intro a _ e he
    by_cases hap : a = p
    · subst hap
      rw [hp] at he
      obtain rfl := Option.some.inj he
      exact ⟨_, Function.update_self .., rfl⟩
    · exact ⟨e, by rw [Function.update_of_ne hap, he], rfl⟩
  · exact h.sorted.update hp rfl
  · intro a e he hu
    by_cases hap : a = p
    · subst hap
      rw [Function.update_self] at he
      rw [← Option.some.inj he] at hu
      cases hu
    · rw [Function.update_of_ne hap] at he
      exact h.live a e he hu

theorem free (h : Holds m root l) (ha : a ∉ l) : Holds (Function.update m a none) root l := by
  have hkeep {b : A} (hb : b ∈ l) : Function.update m a none b = m b := by
    rw [Function.update_of_ne]
    rintro rfl
    exact ha hb
  constructor
  · apply h.threaded.congr
    intro b hb e he
    exact ⟨e, (hkeep hb).trans he, rfl⟩
  · apply h.sorted.congr
    intro b hb e he
    exact ⟨e, (hkeep hb).symm.trans he, rfl⟩
  · intro b e he hu
    by_cases hba : b = a
    · subst hba
      rw [Function.update_self] at he
      cases he
    · rw [Function.update_of_ne hba] at he
      exact h.live b e he hu

end Holds

end MetadataService.MarkedList
