import Avroc.Text.Quoted

/-!
# Digests

The SHA-256 digest of a byte sequence.

* `sha256` : the eight words of the digest.
* `sha256Hex` : the digest in hexadecimal.
-/

namespace Avroc.Digest

/-- The constants of the rounds: the first bits of the cube roots of the first 64 primes. -/
def roundConstants : List UInt32 := [
  0x428a2f98, 0x71374491, 0xb5c0fbcf, 0xe9b5dba5, 0x3956c25b, 0x59f111f1, 0x923f82a4, 0xab1c5ed5,
  0xd807aa98, 0x12835b01, 0x243185be, 0x550c7dc3, 0x72be5d74, 0x80deb1fe, 0x9bdc06a7, 0xc19bf174,
  0xe49b69c1, 0xefbe4786, 0x0fc19dc6, 0x240ca1cc, 0x2de92c6f, 0x4a7484aa, 0x5cb0a9dc, 0x76f988da,
  0x983e5152, 0xa831c66d, 0xb00327c8, 0xbf597fc7, 0xc6e00bf3, 0xd5a79147, 0x06ca6351, 0x14292967,
  0x27b70a85, 0x2e1b2138, 0x4d2c6dfc, 0x53380d13, 0x650a7354, 0x766a0abb, 0x81c2c92e, 0x92722c85,
  0xa2bfe8a1, 0xa81a664b, 0xc24b8b70, 0xc76c51a3, 0xd192e819, 0xd6990624, 0xf40e3585, 0x106aa070,
  0x19a4c116, 0x1e376c08, 0x2748774c, 0x34b0bcb5, 0x391c0cb3, 0x4ed8aa4a, 0x5b9cca4f, 0x682e6ff3,
  0x748f82ee, 0x78a5636f, 0x84c87814, 0x8cc70208, 0x90befffa, 0xa4506ceb, 0xbef9a3f7, 0xc67178f2]

/-- The words that the digest starts from: the first bits of the square roots of the first eight
primes. -/
def initialWords : List UInt32 := [
  0x6a09e667, 0xbb67ae85, 0x3c6ef372, 0xa54ff53a, 0x510e527f, 0x9b05688c, 0x1f83d9ab, 0x5be0cd19]

/-- The word turned right by `n` bits. -/
def rotate (x : UInt32) (n : UInt32) : UInt32 :=
  (x >>> n) ||| (x <<< (32 - n))

/-! ### Blocks -/

/-- The bytes of a number of 64 bits, the highest first. -/
def lengthBytes (n : Nat) : List UInt8 :=
  (List.range 8).reverse.map fun i => UInt8.ofNat (n / Nat.pow 256 i)

/-- The message with its end mark, zeros and its length in bits; a multiple of 64 bytes. -/
def padded (bytes : List UInt8) : List UInt8 :=
  let zeros := (119 - bytes.length % 64) % 64
  bytes ++ [0x80] ++ List.replicate zeros 0 ++ lengthBytes (8 * bytes.length)

/-- The words that bytes spell, four bytes to a word, the highest first. -/
def wordsOf : List UInt8 → List UInt32
  | a :: b :: c :: d :: rest =>
    ((a.toUInt32 <<< 24) ||| (b.toUInt32 <<< 16) ||| (c.toUInt32 <<< 8) ||| d.toUInt32) ::
      wordsOf rest
  | _ => []

/-- The next word of the schedule, from those before it, the latest first. -/
def nextWord (before : List UInt32) : UInt32 :=
  let x := before.getD 14 0
  let y := before.getD 1 0
  let s := rotate x 7 ^^^ rotate x 18 ^^^ (x >>> 3)
  let t := rotate y 17 ^^^ rotate y 19 ^^^ (y >>> 10)
  before.getD 15 0 + s + before.getD 6 0 + t

/-- The schedule of a block: its 16 words and 48 more, the latest first. -/
def schedule (words : List UInt32) : Nat → List UInt32
  | 0 => words.reverse
  | n + 1 =>
    let before := schedule words n
    nextWord before :: before

/-- One round on the eight working words. -/
def round (state : List UInt32) (step : UInt32 × UInt32) : List UInt32 :=
  match state with
  | [a, b, c, d, e, f, g, h] =>
    let s := rotate e 6 ^^^ rotate e 11 ^^^ rotate e 25
    let choice := (e &&& f) ^^^ (~~~e &&& g)
    let t := h + s + choice + step.1 + step.2
    let u := rotate a 2 ^^^ rotate a 13 ^^^ rotate a 22
    let majority := (a &&& b) ^^^ (a &&& c) ^^^ (b &&& c)
    [t + u + majority, a, b, c, d + t, e, f, g]
  | other => other

/-- The state after a block. -/
def compress (state : List UInt32) (block : List UInt32) : List UInt32 :=
  let words := (schedule block 48).reverse
  let worked := (roundConstants.zip words).foldl round state
  List.zipWith (· + ·) state worked

/-- Goes through `blocks` blocks of 16 words. -/
def absorb (state : List UInt32) (words : List UInt32) : Nat → List UInt32
  | 0 => state
  | blocks + 1 => absorb (compress state (words.take 16)) (words.drop 16) blocks

def sha256 (bytes : List UInt8) : List UInt32 :=
  let words := wordsOf (padded bytes)
  absorb initialWords words (words.length / 16)

def sha256Hex (bytes : List UInt8) : String :=
  String.ofList ((sha256 bytes).flatMap fun word => Text.hex 8 word.toNat)

end Avroc.Digest
