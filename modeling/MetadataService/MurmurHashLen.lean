import MetadataService.ByteMemory
import MetadataService.MurmurHash
import MetadataService.WordMixing

namespace MetadataService.MurmurHash

open ByteMemory WordMixing

def multiplier : UInt64 := 0xc6a4a7935bd1e995

def mixWord (k : UInt64) : UInt64 := xorShift 47 (k * multiplier) * multiplier

def wordRound (h k : UInt64) : UInt64 := (h ^^^ mixWord k) * multiplier

def wordLoop (mem : Memory) (n data : ℕ) (h : UInt64) : UInt64 :=
  (List.range n).foldl (fun h i => wordRound h (readWord mem (data + 8 * i))) h

def tailByte (mem : Memory) (data i : ℕ) (h : UInt64) : UInt64 :=
  h ^^^ ((mem (data + i)).toUInt64 <<< UInt64.ofNat (8 * i))

/-- The cases of the `switch` fall through to the next. -/
def tailBytes (mem : Memory) (data r : ℕ) (h : UInt64) : UInt64 :=
  let h := if 7 ≤ r then tailByte mem data 6 h else h
  let h := if 6 ≤ r then tailByte mem data 5 h else h
  let h := if 5 ≤ r then tailByte mem data 4 h else h
  let h := if 4 ≤ r then tailByte mem data 3 h else h
  let h := if 3 ≤ r then tailByte mem data 2 h else h
  let h := if 2 ≤ r then tailByte mem data 1 h else h
  if 1 ≤ r then tailByte mem data 0 h * multiplier else h

def finish (h : UInt64) : UInt64 := xorShift 47 (xorShift 47 h * multiplier)

def murmurHash64ALen (mem : Memory) (key : ℕ) (len : UInt32) (seed : UInt64) : UInt64 :=
  let h := seed ^^^ (len.toUInt64 * multiplier)
  let h := wordLoop mem len.toNat key h
  finish (tailBytes mem (key + 8 * len.toNat) (len.toNat % 8) h)

theorem murmurHash64A_eq (key : UInt64) (seed : UInt32) :
    murmurHash64A key seed = finish (wordRound (seed.toUInt64 ^^^ (8 * multiplier)) key) := rfl

theorem multiplier_injective : Function.Injective fun x : UInt64 => x * multiplier :=
  mul_injective (n := 0x5f7a0ea7e59b19bd) (by decide)

theorem xorShift_47_injective : Function.Injective (xorShift 47) :=
  xorShift_injective (by decide) (by decide)

theorem mixWord_injective : Function.Injective mixWord :=
  multiplier_injective.comp (xorShift_47_injective.comp multiplier_injective)

theorem finish_injective : Function.Injective finish :=
  xorShift_47_injective.comp (multiplier_injective.comp xorShift_47_injective)

theorem wordRound_injective (h : UInt64) : Function.Injective (wordRound h) :=
  multiplier_injective.comp ((xor_left_injective h).comp mixWord_injective)

theorem tailByte_injective (mem : Memory) (data i : ℕ) : Function.Injective (tailByte mem data i) :=
  xor_right_injective _

theorem ite_injective {c : Prop} [Decidable c] {f : UInt64 → UInt64} (hf : Function.Injective f) :
    Function.Injective fun h => if c then f h else h := by
  intro x y hxy
  dsimp only at hxy
  split_ifs at hxy
  · exact hf hxy
  · exact hxy

theorem tailBytes_injective (mem : Memory) (data r : ℕ) : Function.Injective (tailBytes mem data r) := by
  have hbyte := fun i => tailByte_injective mem data i
  have hlast : Function.Injective fun h => if 1 ≤ r then tailByte mem data 0 h * multiplier else h :=
    ite_injective (multiplier_injective.comp (hbyte 0))
  exact hlast.comp <| (ite_injective (hbyte 1)).comp <| (ite_injective (hbyte 2)).comp <|
    (ite_injective (hbyte 3)).comp <| (ite_injective (hbyte 4)).comp <|
    (ite_injective (hbyte 5)).comp (ite_injective (hbyte 6))

section Agree

variable {mem mem' : Memory}

theorem tailBytes_congr {data r : ℕ} (h : ∀ i < 7, mem' (data + i) = mem (data + i)) (x : UInt64) :
    tailBytes mem' data r x = tailBytes mem data r x := by
  have hbyte : ∀ i < 7, tailByte mem' data i = tailByte mem data i := by
    intro i hi
    funext y
    rw [tailByte, tailByte, h i hi]
  simp only [tailBytes, hbyte 0 (by omega), hbyte 1 (by omega), hbyte 2 (by omega), hbyte 3 (by omega),
    hbyte 4 (by omega), hbyte 5 (by omega), hbyte 6 (by omega)]

theorem wordLoop_zero (mem : Memory) (data : ℕ) (x : UInt64) : wordLoop mem 0 data x = x := by
  rw [wordLoop, List.range_zero, List.foldl_nil]

theorem wordLoop_succ (mem : Memory) (n data : ℕ) (x : UInt64) :
    wordLoop mem (n + 1) data x = wordRound (wordLoop mem n data x) (readWord mem (data + 8 * n)) := by
  rw [wordLoop, List.range_succ, List.foldl_append, List.foldl_cons, List.foldl_nil, wordLoop]

theorem wordLoop_congr {n data : ℕ} (h : ∀ i < 8 * n, mem' (data + i) = mem (data + i)) (x : UInt64) :
    wordLoop mem' n data x = wordLoop mem n data x := by
  induction n with
  | zero => rw [wordLoop_zero, wordLoop_zero]
  | succ n ih =>
    have hword : readWord mem' (data + 8 * n) = readWord mem (data + 8 * n) := by
      apply readWord_congr
      intro i hi
      have hbyte := h (8 * n + i) (by omega)
      rwa [← Nat.add_assoc] at hbyte
    rw [wordLoop_succ, wordLoop_succ, hword, ih fun i hi => h i (by omega)]

end Agree

theorem murmurHash64ALen_ne {mem mem' : Memory} {key n : ℕ} {len : UInt32} (hlen : len.toNat = n + 1)
    (seed : UInt64) (hbefore : ∀ i < 8 * n, mem' (key + i) = mem (key + i))
    (hword : readWord mem' (key + 8 * n) ≠ readWord mem (key + 8 * n))
    (hafter : ∀ i < 7, mem' (key + 8 * len.toNat + i) = mem (key + 8 * len.toNat + i)) :
    murmurHash64ALen mem' key len seed ≠ murmurHash64ALen mem key len seed := by
  intro heq
  rw [murmurHash64ALen, murmurHash64ALen] at heq
  have htail := finish_injective heq
  rw [tailBytes_congr hafter] at htail
  have hloop := tailBytes_injective _ _ _ htail
  rw [hlen, wordLoop_succ, wordLoop_succ, wordLoop_congr hbefore] at hloop
  exact hword (wordRound_injective _ hloop)

structure HashesInput (len : UInt32) : Prop where
  input : ∀ mem mem' key seed, (∀ i < len.toNat, mem' (key + i) = mem (key + i)) →
    murmurHash64ALen mem' key len seed = murmurHash64ALen mem key len seed
  word : len = 8 → ∀ mem key (seed : UInt32),
    murmurHash64ALen mem key len seed.toUInt64 = murmurHash64A (readWord mem key) seed

theorem tailBytes_zero (mem : Memory) (data : ℕ) (x : UInt64) : tailBytes mem data 0 x = x := by
  simp [tailBytes]

theorem murmurHash64ALen_zero (mem : Memory) (key : ℕ) (seed : UInt64) :
    murmurHash64ALen mem key 0 seed = finish (seed ^^^ (UInt32.toUInt64 0 * multiplier)) := by
  rw [murmurHash64ALen, UInt32.toNat_zero, Nat.zero_mod, wordLoop_zero, tailBytes_zero]

theorem hashesInput_iff (len : UInt32) : HashesInput len ↔ len = 0 := by
  constructor
  · intro H
    by_contra hlen
    obtain ⟨n, hn⟩ : ∃ n, len.toNat = n + 1 := by
      apply Nat.exists_eq_succ_of_ne_zero
      intro h
      exact hlen (UInt32.toNat_inj.mp h)
    let zeros : Memory := fun _ => 0
    -- The last byte of the last word the loop reads is behind the key, even for a key of one byte.
    have hother : ∀ i ≠ 8 * n + 7, writeByte zeros (8 * n + 7) 1 i = zeros i := fun i hi => if_neg hi
    have hagree := H.input zeros (writeByte zeros (8 * n + 7) 1) 0 0 fun i hi => hother _ (by omega)
    refine murmurHash64ALen_ne hn 0 (fun i hi => hother _ (by omega)) ?_ (fun i hi => hother _ (by omega)) hagree
    intro hword
    have hbyte := readWord_inj hword 7 (by omega)
    rw [Nat.zero_add, writeByte_self] at hbyte
    exact absurd hbyte (by decide)
  · rintro rfl
    refine ⟨fun mem mem' key seed _ => ?_, fun h => ?_⟩
    · rw [murmurHash64ALen_zero, murmurHash64ALen_zero]
    · exact absurd h (by decide)

theorem murmurHash64ALen_reads_beyond :
    (∃ mem mem' : Memory, (∀ i < 1, mem' (0 + i) = mem (0 + i)) ∧
      murmurHash64ALen mem' 0 1 0 ≠ murmurHash64ALen mem 0 1 0) ∧
    ∃ mem : Memory, murmurHash64ALen mem 0 8 0 ≠ murmurHash64A (readWord mem 0) 0 := by
  refine ⟨⟨fun _ => 0, writeByte (fun _ => 0) 7 1, by decide, by decide +kernel⟩, fun _ => 0, by decide +kernel⟩

end MetadataService.MurmurHash
