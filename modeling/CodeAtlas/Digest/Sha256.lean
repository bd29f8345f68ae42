import CodeAtlas.Digest.Padding

/-!
# The SHA-256 digest

The digest of a byte text as sixty-four hexadecimal digits. Identifiers of code entities are cut
from it.
-/

namespace CodeAtlas.Digest.Sha256

def roundConstants : List UInt32 :=
  [0x428A2F98, 0x71374491, 0xB5C0FBCF, 0xE9B5DBA5, 0x3956C25B, 0x59F111F1, 0x923F82A4,
   0xAB1C5ED5, 0xD807AA98, 0x12835B01, 0x243185BE, 0x550C7DC3, 0x72BE5D74, 0x80DEB1FE,
   0x9BDC06A7, 0xC19BF174, 0xE49B69C1, 0xEFBE4786, 0x0FC19DC6, 0x240CA1CC, 0x2DE92C6F,
   0x4A7484AA, 0x5CB0A9DC, 0x76F988DA, 0x983E5152, 0xA831C66D, 0xB00327C8, 0xBF597FC7,
   0xC6E00BF3, 0xD5A79147, 0x06CA6351, 0x14292967, 0x27B70A85, 0x2E1B2138, 0x4D2C6DFC,
   0x53380D13, 0x650A7354, 0x766A0ABB, 0x81C2C92E, 0x92722C85, 0xA2BFE8A1, 0xA81A664B,
   0xC24B8B70, 0xC76C51A3, 0xD192E819, 0xD6990624, 0xF40E3585, 0x106AA070, 0x19A4C116,
   0x1E376C08, 0x2748774C, 0x34B0BCB5, 0x391C0CB3, 0x4ED8AA4A, 0x5B9CCA4F, 0x682E6FF3,
   0x748F82EE, 0x78A5636F, 0x84C87814, 0x8CC70208, 0x90BEFFFA, 0xA4506CEB, 0xBEF9A3F7,
   0xC67178F2]

def initialState : List UInt32 :=
  [0x6A09E667, 0xBB67AE85, 0x3C6EF372, 0xA54FF53A, 0x510E527F, 0x9B05688C, 0x1F83D9AB,
   0x5BE0CD19]

def rotateRight (x : UInt32) (n : UInt32) : UInt32 :=
  rotateLeft x (32 - n)

/-- Extends the message schedule, kept newest first, by `n` words. -/
def extend : Nat → List UInt32 → List UInt32
  | 0, w => w
  | n + 1, w =>
    let s₀ := let x := w.getD 14 0; rotateRight x 7 ^^^ rotateRight x 18 ^^^ (x >>> 3)
    let s₁ := let x := w.getD 1 0; rotateRight x 17 ^^^ rotateRight x 19 ^^^ (x >>> 10)
    extend n ((w.getD 15 0 + s₀ + w.getD 6 0 + s₁) :: w)

def round (state : List UInt32) (input : UInt32 × UInt32) : List UInt32 :=
  match state with
  | [a, b, c, d, e, f, g, h] =>
    let s₁ := rotateRight e 6 ^^^ rotateRight e 11 ^^^ rotateRight e 25
    let choice := (e &&& f) ^^^ (~~~e &&& g)
    let t₁ := h + s₁ + choice + input.1 + input.2
    let s₀ := rotateRight a 2 ^^^ rotateRight a 13 ^^^ rotateRight a 22
    let majority := (a &&& b) ^^^ (a &&& c) ^^^ (b &&& c)
    [t₁ + s₀ + majority, a, b, c, d + t₁, e, f, g]
  | other => other

def absorb (state : List UInt32) (block : List UInt8) : List UInt32 :=
  let schedule := (extend 48 ((blocks 4 block).map word).reverse).reverse
  let mixed := (roundConstants.zip schedule).foldl round state
  List.zipWith (· + ·) state mixed

def hexDigest (message : List UInt8) : String :=
  let padded := pad (fun n => (lowFirst n).reverse) message
  hex (((blocks 64 padded).foldl absorb initialState).flatMap wordBytes)

end CodeAtlas.Digest.Sha256
