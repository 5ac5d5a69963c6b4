import Mathlib.Data.Fintype.EquivFin
import Mathlib.Data.Nat.ModEq
import MetadataService.MurmurHashLen
import MetadataService.PublishedStore

namespace MetadataService.Dmc

open MemStore MetaExchange MurmurHash

theorem murmurHash64A_injective (seed : UInt32) : Function.Injective fun key => murmurHash64A key seed := by
  have hcomp := finish_injective.comp (wordRound_injective (seed.toUInt64 ^^^ (8 * multiplier)))
  intro key key' h
  dsimp only at h
  rw [murmurHash64A_eq, murmurHash64A_eq] at h
  exact hcomp h

theorem murmurHash64A_bijective (seed : UInt32) : Function.Bijective fun key => murmurHash64A key seed := by
  have hfinite : Finite UInt64 := by
    apply Finite.of_injective UInt64.toFin
    intro x y h
    exact UInt64.toFin_inj.mp h
  exact Finite.injective_iff_bijective.mp (murmurHash64A_injective seed)

def bucketIdx (table : HashMeta) (key : UInt64) : UInt64 := murmurHash64A key 0xdeadbeef % table.bucketNum

def MergesByModulus (index : UInt64 → UInt64) (bucketNum : UInt64) : Prop :=
  ∀ key key', key ≠ key' → (index key = index key' ↔
    murmurHash64A key 0xdeadbeef ≠ murmurHash64A key' 0xdeadbeef ∧
      (murmurHash64A key 0xdeadbeef).toNat ≡ (murmurHash64A key' 0xdeadbeef).toNat [MOD bucketNum.toNat])

theorem mergesByModulus_mod (bucketNum : UInt64) :
    MergesByModulus (fun key => murmurHash64A key 0xdeadbeef % bucketNum) bucketNum := by
  intro key key' hne
  have hdiffer : murmurHash64A key 0xdeadbeef ≠ murmurHash64A key' 0xdeadbeef :=
    fun h => hne (murmurHash64A_injective 0xdeadbeef h)
  rw [← UInt64.toNat_inj, UInt64.toNat_mod, UInt64.toNat_mod]
  constructor
  · intro h
    exact ⟨hdiffer, h⟩
  · rintro ⟨-, h⟩
    exact h

variable {n : ℕ} {w : Cluster}

-- Also where a read could not be posted and `IssueReader` returns false.
theorem issueLoop_first {is : List (Fin n)} {c c' : Client n} {p p' : Pending n} {ok : Bool}
    (hp : ∀ e ∈ p.hash, e.First w c) (h : issueLoop w is c p = .ok (ok, c', p')) :
    ∀ e ∈ p'.hash, e.First w c' := by
  induction is generalizing c p with
  | nil =>
    cases h
    exact hp
  | cons i is ih =>
    obtain ⟨⟨ok₁, c₁, p₁⟩, h₁, h₂⟩ := bind_ok.mp h
    have hp₁ : ∀ e ∈ p₁.hash, e.First w c₁ := by
      rcases issueItem_ok h₁ with ⟨-, -, rfl, rfl⟩ | ⟨-, -, ha, r, hr, -⟩
      · exact hp
      · have hkept : ∀ e ∈ p.hash, e.First w c₁ := fun e he => (hp e he).of_kept ha.toKept
        cases hr with
        | direct hn ho => exact hkept
        | hash hn ht ho =>
          intro e he
          rcases List.mem_append.mp he with he | he
          · exact hkept e he
          · rw [List.mem_singleton.mp he]
            exact HashRead.First.of_kept ⟨hn, ht, rfl⟩ ha.toKept
    cases ok₁ with
    | true => exact ih hp₁ h₂
    | false =>
      cases h₂
      exact hp₁

theorem issueReader_first {c c' : Client n} {p : Pending n} {ok : Bool}
    (h : issueReader w c = .ok (ok, c', p)) : ∀ e ∈ p.hash, e.First w c' :=
  issueLoop_first (by simp) h

/-- The index of the bucket that a client reads first is that of the server, for every table whose
metadata is the server's. -/
structure ReadsBucket (w : Cluster) (c : Client n) (e : HashRead n) : Prop where
  bytes : e.buf = w.bytes e.qp
    (bucketIdx e.table (c.readerSet e.item).item.key * e.table.nodeSize + e.table.baseOff.toUInt64)
  merges : MergesByModulus (bucketIdx e.table) e.table.bucketNum
  server : ∀ s : HashStore, e.table = hashMeta s → bucketIdx e.table = s.getHash

theorem murmurHash64A_loses_nothing :
    (∀ seed : UInt32, Function.Bijective fun key => murmurHash64A key seed) ∧
      (∀ s : HashStore, MergesByModulus s.getHash s.bucketNum) ∧
      ∀ (n : ℕ) (w : Cluster) (c c' : Client n) (ok : Bool) (p : Pending n),
        issueReader w c = .ok (ok, c', p) → ∀ e ∈ p.hash, ReadsBucket w c' e := by
  refine ⟨murmurHash64A_bijective, fun s => mergesByModulus_mod s.bucketNum, ?_⟩
  intro n w c c' ok p h e he
  refine ⟨(issueReader_first h e he).bytes, mergesByModulus_mod e.table.bucketNum, ?_⟩
  intro s hs
  rw [hs]
  rfl

end MetadataService.Dmc
