import MetadataService.Crc
import MetadataService.RemoteReader

namespace MetadataService.Dmc

open ByteMemory Crc

def alignUp (n align : ℕ) : ℕ := (n + align - 1) / align * align

def fieldOffsets : List (ℕ × ℕ) → ℕ → List ℕ × ℕ
  | [], n => ([], n)
  | (size, align) :: fields, n =>
    let (offsets, stop) := fieldOffsets fields (alignUp n align + size)
    (alignUp n align :: offsets, stop)

def structSize (fields : List (ℕ × ℕ)) : ℕ :=
  alignUp (fieldOffsets fields 0).2 ((fields.map Prod.snd).foldl max 1)

structure InodeObject extends Inode where
  padding : UInt8

def inodeFields : List (ℕ × ℕ) := [(8, 8), (2, 2), (2, 2), (2, 2), (1, 1)]

def inodeSize : ℕ := structSize inodeFields

example : (fieldOffsets inodeFields 0).1 = [0, 8, 10, 12, 14] ∧ inodeSize = 16 := by decide

namespace InodeObject

def byteAt (i : InodeObject) (q : ℕ) : UInt8 :=
  if q < 8 then byteOf i.permission.toNat q
  else if q < 10 then byteOf i.atime.toNat (q - 8)
  else if q < 12 then byteOf i.ctime.toNat (q - 10)
  else if q < 14 then byteOf i.mtime.toNat (q - 12)
  else if q = 14 then i.isDir.toUInt8
  else i.padding

def bytes (i : InodeObject) : List UInt8 := (List.range inodeSize).map i.byteAt

inductive Bit
  | permission (k : Fin 64)
  | atime (k : Fin 16)
  | ctime (k : Fin 16)
  | mtime (k : Fin 16)
  | isDir

def Bit.byte : Bit → ℕ
  | .permission k => k / 8
  | .atime k => 8 + k / 8
  | .ctime k => 10 + k / 8
  | .mtime k => 12 + k / 8
  | .isDir => 14

def flip (i : InodeObject) : Bit → InodeObject
  | .permission k => { i with permission := i.permission ^^^ UInt64.ofNat (2 ^ k.val) }
  | .atime k => { i with atime := i.atime ^^^ UInt16.ofNat (2 ^ k.val) }
  | .ctime k => { i with ctime := i.ctime ^^^ UInt16.ofNat (2 ^ k.val) }
  | .mtime k => { i with mtime := i.mtime ^^^ UInt16.ofNat (2 ^ k.val) }
  | .isDir => { i with isDir := !i.isDir }

end InodeObject

/-- `Calculate` with the parameters of `CRC_32()`: input and output are both reflected, so the remainder
is not reflected once more at the end. -/
def crc32 (bytes : List UInt8) : UInt32 := remainder (reflect 0x04C11DB7 32) bytes 0xFFFFFFFF ^^^ 0xFFFFFFFF

-- the check value of the standard: the nine bytes "123456789"
example : crc32 [49, 50, 51, 52, 53, 54, 55, 56, 57] = 0xCBF43926 := by decide +kernel

def crcOver (covered : ℕ) (i : InodeObject) : UInt32 := crc32 (i.bytes.take covered)

def getInodeCrc (i : InodeObject) : UInt32 := crcOver (inodeSize - 16) i

theorem byteOf_testBit (v j t : ℕ) : (byteOf v j).toNat.testBit t = (decide (t < 8) && v.testBit (8 * j + t)) := by
  rw [byteOf, UInt8.toNat_ofNat', Nat.testBit_mod_two_pow, show 256 = 2 ^ 8 by rfl, ← Nat.pow_mul,
    Nat.testBit_div_two_pow, Nat.add_comm t]

theorem byteOf_xor_pow (v k j : ℕ) : byteOf (v ^^^ 2 ^ k) j = byteOf v j ↔ j ≠ k / 8 := by
  constructor
  · rintro h rfl
    have hbit := congrArg (fun b : UInt8 => b.toNat.testBit (k % 8)) h
    have hk : 8 * (k / 8) + k % 8 = k := by omega
    simp only [byteOf_testBit, hk, Nat.testBit_xor, Nat.testBit_two_pow_self] at hbit
    have hlt : k % 8 < 8 := by omega
    simp [hlt] at hbit
  · intro hj
    apply UInt8.toNat_inj.mp
    apply Nat.eq_of_testBit_eq
    intro t
    rw [byteOf_testBit, byteOf_testBit, Nat.testBit_xor]
    by_cases ht : t < 8
    · have hne : k ≠ 8 * j + t := by omega
      rw [Nat.testBit_two_pow_of_ne hne, Bool.xor_false]
    · simp [ht]

namespace InodeObject

theorem permission_flip (i : InodeObject) (k : Fin 64) :
    (i.flip (.permission k)).permission.toNat = i.permission.toNat ^^^ 2 ^ k.val := by
  have hk : 2 ^ k.val < 2 ^ 64 := Nat.pow_lt_pow_right (by omega) k.isLt
  rw [flip, UInt64.toNat_xor, UInt64.toNat_ofNat', Nat.mod_eq_of_lt hk]

theorem time_flip (x : UInt16) (k : Fin 16) : (x ^^^ UInt16.ofNat (2 ^ k.val)).toNat = x.toNat ^^^ 2 ^ k.val := by
  have hk : 2 ^ k.val < 2 ^ 16 := Nat.pow_lt_pow_right (by omega) k.isLt
  rw [UInt16.toNat_xor, UInt16.toNat_ofNat', Nat.mod_eq_of_lt hk]

theorem byteAt_flip (i : InodeObject) (b : Bit) (q : ℕ) : (i.flip b).byteAt q = i.byteAt q ↔ q ≠ b.byte := by
  cases b with
  | permission k =>
    have hk := k.isLt
    simp only [byteAt, permission_flip]
    simp only [flip, Bit.byte]
    split_ifs <;> simp only [byteOf_xor_pow, true_iff] <;> omega
  | atime k =>
    have hk := k.isLt
    simp only [byteAt, flip, Bit.byte, time_flip]
    split_ifs <;> simp only [byteOf_xor_pow, true_iff] <;> omega
  | ctime k =>
    have hk := k.isLt
    simp only [byteAt, flip, Bit.byte, time_flip]
    split_ifs <;> simp only [byteOf_xor_pow, true_iff] <;> omega
  | mtime k =>
    have hk := k.isLt
    simp only [byteAt, flip, Bit.byte, time_flip]
    split_ifs <;> simp only [byteOf_xor_pow, true_iff] <;> omega
  | isDir =>
    have hnot : (!i.isDir).toUInt8 ≠ i.isDir.toUInt8 := by cases i.isDir <;> decide
    simp only [byteAt, flip, Bit.byte]
    split_ifs <;> simp only [true_iff, hnot, false_iff] <;> omega

theorem Bit.byte_lt (b : Bit) : b.byte < inodeSize := by
  have hsize : inodeSize = 16 := by decide
  cases b with
  | permission k => simp only [Bit.byte]; omega
  | atime k => simp only [Bit.byte]; omega
  | ctime k => simp only [Bit.byte]; omega
  | mtime k => simp only [Bit.byte]; omega
  | isDir => simp only [Bit.byte]; omega

theorem bytes_getElem? (i : InodeObject) (q : ℕ) :
    i.bytes[q]? = if q < inodeSize then some (i.byteAt q) else none := by
  rw [bytes, List.getElem?_map]
  split_ifs with hq
  · rw [List.getElem?_range hq, Option.map_some]
  · rw [List.getElem?_eq_none (by simpa using hq), Option.map_none]

end InodeObject

open InodeObject in
theorem crcOver_ne_iff (covered : ℕ) (i : InodeObject) (b : Bit) :
    crcOver covered i ≠ crcOver covered (i.flip b) ↔ b.byte < covered := by
  have hlen : (i.bytes.take covered).length = ((i.flip b).bytes.take covered).length := by
    simp only [bytes, List.length_take, List.length_map]
  have hsame : ∀ q ≠ b.byte, (i.bytes.take covered)[q]? = ((i.flip b).bytes.take covered)[q]? := by
    intro q hq
    rw [List.getElem?_take, List.getElem?_take, bytes_getElem?, bytes_getElem?, (byteAt_flip i b q).mpr hq]
  constructor
  · intro hne
    by_contra hcovered
    apply hne
    have heq : i.bytes.take covered = (i.flip b).bytes.take covered := by
      apply List.ext_getElem?
      intro q
      by_cases hq : q = b.byte
      · rw [hq, List.getElem?_take, List.getElem?_take, if_neg hcovered, if_neg hcovered]
      · exact hsame q hq
    rw [crcOver, crcOver, heq]
  · intro hcovered h
    apply remainder_ne (p := b.byte) (by decide) 0xFFFFFFFF hsame hlen _ ((UInt32.xor_left_inj _).mp h)
    rw [List.getElem?_take, List.getElem?_take, if_pos hcovered, if_pos hcovered, bytes_getElem?, bytes_getElem?,
      if_pos b.byte_lt, if_pos b.byte_lt]
    intro heq
    exact (byteAt_flip i b b.byte).mp (Option.some.inj heq).symm rfl

theorem getInodeCrc_ne_iff (i : InodeObject) (b : InodeObject.Bit) :
    getInodeCrc i ≠ getInodeCrc (i.flip b) ↔ b.byte < inodeSize - 16 :=
  crcOver_ne_iff (inodeSize - 16) i b

theorem getInodeCrc_blind :
    ∃ i : InodeObject, getInodeCrc i = getInodeCrc (i.flip .isDir) ∧
      getInodeCrc i = getInodeCrc (i.flip (.permission 0)) :=
  ⟨⟨⟨0, 0, 0, 0, false⟩, 0⟩, by decide +kernel, by decide +kernel⟩

end MetadataService.Dmc
