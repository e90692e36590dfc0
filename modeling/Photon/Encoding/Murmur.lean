import Mathlib.Tactic

/-!
`MurmurHash64` of `utils/encoding/murmur.go` over the bytes of a key.
-/

namespace Photon.Encoding

def c1 : UInt64 := 0x87c37b91114253d5

def c2 : UInt64 := 0x4cf5ad432745937f

def rotl64 (x r : UInt64) : UInt64 := (x <<< r) ||| (x >>> (64 - r))

def fmix64 (k : UInt64) : UInt64 :=
  let k := k ^^^ (k >>> 33)
  let k := k * 0xff51afd7ed558ccd
  let k := k ^^^ (k >>> 33)
  let k := k * 0xc4ceb9fe1a85ec53
  k ^^^ (k >>> 33)

def littleEndian : List UInt8 → UInt64
  | [] => 0
  | b :: rest => b.toUInt64 ^^^ (littleEndian rest <<< 8)

def mixFirst (k1 : UInt64) : UInt64 := rotl64 (k1 * c1) 31 * c2

def mixSecond (k2 : UInt64) : UInt64 := rotl64 (k2 * c2) 33 * c1

def blockLoop : Nat → List UInt8 → UInt64 → UInt64 × List UInt8
  | 0, data, h1 => (h1, data)
  | nblocks + 1, data, h1 =>
    let k1 := littleEndian (data.take 8)
    let k2 := littleEndian ((data.drop 8).take 8)
    let h1 := h1 ^^^ mixFirst k1
    let h1 := rotl64 h1 27
    let h1 := h1 * 5 + 0x52dce729
    blockLoop nblocks (data.drop 16) (h1 ^^^ mixSecond k2)

/-- The cases of the switch, which fall through from the longest tail to the shortest. -/
def tailHash (tail : List UInt8) (h1 : UInt64) : UInt64 :=
  let h1 := if 9 ≤ tail.length then h1 ^^^ mixSecond (littleEndian (tail.drop 8)) else h1
  if 1 ≤ tail.length then h1 ^^^ mixFirst (littleEndian (tail.take 8)) else h1

def murmurHash64 (data : List UInt8) (seed : UInt64) : UInt64 :=
  let (h1, tail) := blockLoop (data.length / 16) data seed
  fmix64 (tailHash tail h1 ^^^ UInt64.ofNat data.length)

end Photon.Encoding
