import MetadataService.HashStore

namespace MetadataService.Dmc

open Loops MemStore

structure NameID where
  key : UInt64
  name : List UInt8
deriving DecidableEq

def npos : UInt64 := 0xFFFFFFFFFFFFFFFF

def find (s : List UInt8) (c : UInt8) (pos : ℕ) : UInt64 :=
  match (s.drop pos).idxOf? c with
  | some i => UInt64.ofNat (pos + i)
  | none => npos

def computeHash (s : List UInt8) : UInt64 :=
  (s.foldl (fun (hashValue, pPow) c =>
    ((hashValue + (c.toInt8.toInt32 - 97 + 1).toInt64.toUInt64 * pPow) % 1000000009,
      pPow * 31 % 1000000009)) ((0, 1) : UInt64 × UInt64)).1

def nameID (path : List UInt8) (pos : ℕ) : NameID :=
  let name := path.take pos
  ⟨computeHash name, name⟩

def resolutionBody (path : List UInt8) (pathIds : List NameID) : List NameID ⊕ List NameID :=
  let pos := (find path 47 1).toUInt32.toInt32
  if 0 < pos then .inl (pathIds ++ [nameID path pos.toUInt32.toNat]) else .inr pathIds

def pathResolution (path : List UInt8) (fuel : ℕ) : Except Fault (List NameID) :=
  timed (run (resolutionBody path) fuel [])

def separators (path : List UInt8) : List ℕ :=
  (List.range path.length).filter fun i => 1 ≤ i ∧ path[i]? = some 47

structure Enumerates (path : List UInt8) (ids : List NameID) : Prop where
  ancestors : ids = (separators path).map (nameID path)
  prefixes : ∀ id ∈ ids, id.name <+: path
  growing : ids.Pairwise fun a b => a.name <+: b.name ∧ a.name ≠ b.name

theorem find_of_notMem {s : List UInt8} {c : UInt8} {pos : ℕ} (h : c ∉ s.drop pos) :
    find s c pos = npos := by
  rw [find, List.idxOf?_eq_none_iff.mpr h]

theorem separators_eq_nil_iff (path : List UInt8) : separators path = [] ↔ 47 ∉ path.drop 1 := by
  rw [separators, List.filter_eq_nil_iff]
  constructor
  · intro h hmem
    obtain ⟨i, hi⟩ := List.mem_iff_getElem?.mp hmem
    rw [List.getElem?_drop] at hi
    obtain ⟨hlt, -⟩ := List.getElem?_eq_some_iff.mp hi
    exact h (1 + i) (List.mem_range.mpr hlt) (decide_eq_true ⟨by omega, hi⟩)
  · intro h i _ hi
    obtain ⟨hle, hget⟩ := of_decide_eq_true hi
    apply h
    apply List.mem_iff_getElem?.mpr
    refine ⟨i - 1, ?_⟩
    rw [List.getElem?_drop, show 1 + (i - 1) = i by omega]
    exact hget

theorem resolution_diverges {path : List UInt8} (h : 0 < (find path 47 1).toUInt32.toInt32)
    (ids : List NameID) : Diverges (resolutionBody path) ids := by
  apply diverges_of_inv (I := fun _ => True)
  · intro ids _
    exact ⟨_, if_pos h, trivial⟩
  · trivial

theorem resolution_returns {path : List UInt8} (h : ¬ 0 < (find path 47 1).toUInt32.toInt32) (fuel : ℕ) :
    run (resolutionBody path) (fuel + 1) [] = .inr [] := by
  have hbody : resolutionBody path [] = .inr [] := if_neg h
  exact run_exit hbody fuel

theorem pathResolution_ok {path : List UInt8} {fuel : ℕ} {ids : List NameID}
    (h : pathResolution path fuel = .ok ids) : ids = [] := by
  cases hr : run (resolutionBody path) fuel [] with
  | inl t =>
    rw [pathResolution, hr] at h
    cases h
  | inr r =>
    rw [pathResolution, hr] at h
    obtain rfl := Except.ok.inj h
    by_cases hpos : 0 < (find path 47 1).toUInt32.toInt32
    · exact absurd ⟨fuel, hr⟩ (diverges_not_returns (resolution_diverges hpos []) r)
    · have hempty := resolution_returns hpos fuel
      rw [run_stable hr (Nat.le_succ fuel)] at hempty
      exact Sum.inr.inj hempty

theorem pathResolution_enumerates_iff (path : List UInt8) :
    (∃ fuel ids, pathResolution path fuel = .ok ids ∧ Enumerates path ids) ↔ 47 ∉ path.drop 1 := by
  constructor
  · rintro ⟨fuel, ids, hret, E⟩
    rw [← separators_eq_nil_iff]
    have hnil := E.ancestors
    rw [pathResolution_ok hret] at hnil
    exact List.map_eq_nil_iff.mp hnil.symm
  · intro h
    have hnone : ¬ 0 < (find path 47 1).toUInt32.toInt32 := by
      rw [find_of_notMem h]
      decide
    refine ⟨1, [], ?_, ?_⟩
    · rw [pathResolution, resolution_returns hnone]
      rfl
    · refine ⟨?_, by simp, List.Pairwise.nil⟩
      rw [(separators_eq_nil_iff path).mpr h]
      rfl

theorem ancestors_never_returned :
    ¬ ∃ fuel ids, pathResolution [47, 97, 47, 98] fuel = .ok ids ∧ Enumerates [47, 97, 47, 98] ids := by
  rintro ⟨fuel, ids, hret, -⟩
  have hdiv : Diverges (resolutionBody [47, 97, 47, 98]) [] := resolution_diverges (by decide) []
  obtain ⟨t, ht⟩ := hdiv fuel
  rw [pathResolution, ht] at hret
  cases hret

end MetadataService.Dmc
