import Mathlib.Data.Nat.Notation

namespace MetadataService.MurmurHash

def murmurHash64A (key : UInt64) (seed : UInt32) : UInt64 :=
  let m : UInt64 := 0xc6a4a7935bd1e995
  let h := seed.toUInt64 ^^^ (8 * m)
  -- `data` points to the key and `end` one word behind it: one round of the loop
  let k := key * m
  let k := k ^^^ (k >>> 47)
  let k := k * m
  let h := (h ^^^ k) * m
  let h := h ^^^ (h >>> 47)
  let h := h * m
  h ^^^ (h >>> 47)

end MetadataService.MurmurHash
