/-!
# A hash of texts

A 64-bit hash that reads a text in words of eight bytes. All arithmetic is modulo `2 ^ 64`, except
for the product in `mix`, of which both halves are used.
-/

namespace Xref.WordHash

def multiplier : UInt64 := 0xf1357aea2e62a9c5

def seed₁ : UInt64 := 0x243f6a8885a308d3

def seed₂ : UInt64 := 0x13198a2e03707344

def blockSeed : UInt64 := 0xa4093822299f31d0

/-- The low and the high half of a product, one laid over the other. -/
def mix (x y : UInt64) : UInt64 :=
  let product := x.toNat * y.toNat
  UInt64.ofNat product ^^^ UInt64.ofNat (product / UInt64.size)

/-- The number whose digits to base 256 are `bytes`, the lowest first. -/
def littleEndian (bytes : List UInt8) : UInt64 :=
  bytes.foldr (fun b n => n * 256 + b.toUInt64) 0

/-- The word at byte `i`. -/
def word (bytes : List UInt8) (i : Nat) : UInt64 := littleEndian ((bytes.drop i).take 8)

/-- The half word at byte `i`. -/
def halfWord (bytes : List UInt8) (i : Nat) : UInt64 := littleEndian ((bytes.drop i).take 4)

/-- Takes in `n` blocks of sixteen bytes. -/
def absorb : Nat → List UInt8 → UInt64 × UInt64 → UInt64 × UInt64
  | 0, _, s => s
  | n + 1, bytes, (s₁, s₂) =>
    absorb n (bytes.drop 16) (s₂, mix (s₁ ^^^ word bytes 0) (blockSeed ^^^ word bytes 8))

/-- The hash of a list of bytes. A text longer than one block is read in blocks, the last sixteen
bytes apart; these may overlap the last block. -/
def ofBytes (bytes : List UInt8) : UInt64 :=
  let n := bytes.length
  let state : UInt64 × UInt64 :=
    if 16 < n then
      let s := absorb ((n - 1) / 16) bytes (seed₁, seed₂)
      (s.1 ^^^ word bytes (n - 16), s.2 ^^^ word bytes (n - 8))
    else if 8 ≤ n then (seed₁ ^^^ word bytes 0, seed₂ ^^^ word bytes (n - 8))
    else if 4 ≤ n then (seed₁ ^^^ halfWord bytes 0, seed₂ ^^^ halfWord bytes (n - 4))
    else if 0 < n then
      let byte (i : Nat) : UInt64 := (bytes.getD i 0).toUInt64
      (seed₁ ^^^ byte 0, seed₂ ^^^ (byte (n - 1) * 256 ||| byte (n / 2)))
    else (seed₁, seed₂)
  mix state.1 state.2 ^^^ UInt64.ofNat n

/-- The bits of `x`, moved up by `k` places, the ones at the top to the bottom. -/
def rotate (x : UInt64) (k : UInt64) : UInt64 := (x <<< k) ||| (x >>> (64 - k))

/-- The hash of a text: of its bytes, and of a byte that ends it. -/
def ofText (text : String) : UInt64 :=
  let h := ofBytes text.toUTF8.data.toList * multiplier
  rotate ((h + 0xff) * multiplier) 26

end Xref.WordHash
