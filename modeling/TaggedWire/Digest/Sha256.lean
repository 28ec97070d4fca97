/-!
# SHA-256

The hash function of FIPS 180-4, on lists of bytes.  A message is padded to whole blocks of
sixty-four bytes; each block is stretched to sixty-four words, which are mixed one by one into
eight words of state.
-/

namespace TaggedWire.Sha256

-- powers are those of the core library, whatever is imported next to it
attribute [local instance (high)] instPowNat

/-- The constants of the sixty-four rounds. -/
def roundConstants : List UInt32 :=
  [0x428a2f98, 0x71374491, 0xb5c0fbcf, 0xe9b5dba5, 0x3956c25b, 0x59f111f1, 0x923f82a4, 0xab1c5ed5,
   0xd807aa98, 0x12835b01, 0x243185be, 0x550c7dc3, 0x72be5d74, 0x80deb1fe, 0x9bdc06a7, 0xc19bf174,
   0xe49b69c1, 0xefbe4786, 0x0fc19dc6, 0x240ca1cc, 0x2de92c6f, 0x4a7484aa, 0x5cb0a9dc, 0x76f988da,
   0x983e5152, 0xa831c66d, 0xb00327c8, 0xbf597fc7, 0xc6e00bf3, 0xd5a79147, 0x06ca6351, 0x14292967,
   0x27b70a85, 0x2e1b2138, 0x4d2c6dfc, 0x53380d13, 0x650a7354, 0x766a0abb, 0x81c2c92e, 0x92722c85,
   0xa2bfe8a1, 0xa81a664b, 0xc24b8b70, 0xc76c51a3, 0xd192e819, 0xd6990624, 0xf40e3585, 0x106aa070,
   0x19a4c116, 0x1e376c08, 0x2748774c, 0x34b0bcb5, 0x391c0cb3, 0x4ed8aa4a, 0x5b9cca4f, 0x682e6ff3,
   0x748f82ee, 0x78a5636f, 0x84c87814, 0x8cc70208, 0x90befffa, 0xa4506ceb, 0xbef9a3f7, 0xc67178f2]

/-- The eight words that blocks are mixed into. -/
structure Chain where
  a : UInt32
  b : UInt32
  c : UInt32
  d : UInt32
  e : UInt32
  f : UInt32
  g : UInt32
  h : UInt32
  deriving DecidableEq, Repr

/-- The words before the first block. -/
def initial : Chain :=
  ⟨0x6a09e667, 0xbb67ae85, 0x3c6ef372, 0xa54ff53a, 0x510e527f, 0x9b05688c, 0x1f83d9ab, 0x5be0cd19⟩

/-- Rotation to the right. -/
def rotate (x count : UInt32) : UInt32 := (x >>> count) ||| (x <<< (32 - count))

/-! ### Padding -/

/-- The last `count` bytes of a number, the most significant one first. -/
def bigEndian (count n : Nat) : List UInt8 :=
  ((List.range count).map fun i => UInt8.ofNat (n / 256 ^ i)).reverse

/-- Zeros between the end mark and the length. -/
def paddingZeros (length : Nat) : Nat := (119 - length % 64) % 64

/-- A message with its end mark, zeros up to eight bytes below a whole block, and its length in
bits. -/
def padded (message : List UInt8) : List UInt8 :=
  message ++ 0x80 :: List.replicate (paddingZeros message.length) 0 ++
    bigEndian 8 (message.length * 8)

/-! ### Mixing -/

/-- Bytes as words, four at a time, the most significant byte first. -/
def words : List UInt8 → List UInt32
  | p :: q :: r :: s :: rest =>
    ((p.toUInt32 <<< 24) ||| (q.toUInt32 <<< 16) ||| (r.toUInt32 <<< 8) ||| s.toUInt32) ::
      words rest
  | _ => []

/-- One more word of the schedule, from the sixteen before it.  The words are kept in reverse, so
the last one is at position 0. -/
def stretch (reversed : List UInt32) : List UInt32 :=
  let word (i : Nat) : UInt32 := (reversed[i]?).getD 0
  let x := word 14
  let y := word 1
  let low := rotate x 7 ^^^ rotate x 18 ^^^ (x >>> 3)
  let high := rotate y 17 ^^^ rotate y 19 ^^^ (y >>> 10)
  (word 15 + low + word 6 + high) :: reversed

/-- The sixty-four words of a block of sixteen. -/
def schedule (block : List UInt32) : List UInt32 :=
  ((List.range 48).foldl (fun ws _ => stretch ws) block.reverse).reverse

/-- Mix one word of the schedule, with its constant, into the state. -/
def round (s : Chain) (constant word : UInt32) : Chain :=
  let high := rotate s.e 6 ^^^ rotate s.e 11 ^^^ rotate s.e 25
  let choice := (s.e &&& s.f) ^^^ ((~~~s.e) &&& s.g)
  let t := s.h + high + choice + constant + word
  let low := rotate s.a 2 ^^^ rotate s.a 13 ^^^ rotate s.a 22
  let majority := (s.a &&& s.b) ^^^ (s.a &&& s.c) ^^^ (s.b &&& s.c)
  ⟨t + low + majority, s.a, s.b, s.c, s.d + t, s.e, s.f, s.g⟩

/-- Mix a block of sixteen words into the state. -/
def compress (s : Chain) (block : List UInt32) : Chain :=
  let t := (roundConstants.zip (schedule block)).foldl (fun t (k, w) => round t k w) s
  ⟨s.a + t.a, s.b + t.b, s.c + t.c, s.d + t.d, s.e + t.e, s.f + t.f, s.g + t.g, s.h + t.h⟩

/-- Mix the first `count` blocks of a list of words. -/
def absorb : Nat → Chain → List UInt32 → Chain
  | 0, s, _ => s
  | count + 1, s, ws => absorb count (compress s (ws.take 16)) (ws.drop 16)

/-- The eight words of a message's digest. -/
def digest (message : List UInt8) : Chain :=
  let ws := words (padded message)
  absorb (ws.length / 16) initial ws

/-- A word as eight hexadecimal digits, in lower case. -/
def hexWord (w : UInt32) : List Char :=
  ((List.range 8).map fun i => Nat.digitChar (w.toNat / 16 ^ i % 16)).reverse

/-- The digest of a message as sixty-four hexadecimal digits. -/
def hexDigest (message : List UInt8) : String :=
  let s := digest message
  String.ofList ([s.a, s.b, s.c, s.d, s.e, s.f, s.g, s.h].flatMap hexWord)

end TaggedWire.Sha256
