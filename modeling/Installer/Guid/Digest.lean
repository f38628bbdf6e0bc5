/-! # The SHA-1 digest

The digest of a sequence of bytes as five words of 32 bits, by folds over lists. The message is
padded to blocks of sixteen words, each block is extended to a schedule of eighty words, and one
round per word mixes it into the state.
-/

namespace Installer.Guid.Digest

/-- The five words that the digest carries from block to block. -/
structure State where
  a : UInt32
  b : UInt32
  c : UInt32
  d : UInt32
  e : UInt32
deriving DecidableEq

def State.start : State :=
  ⟨0x67452301, 0xEFCDAB89, 0x98BADCFE, 0x10325476, 0xC3D2E1F0⟩

/-- The word rotated left by `n` bits, for `n` between 1 and 31. -/
def rotateLeft (x n : UInt32) : UInt32 :=
  (x <<< n) ||| (x >>> (32 - n))

/-- The last `count` bytes of a number, the most significant first. -/
def bytesOf (count n : Nat) : List UInt8 :=
  (List.range count).reverse.map fun place => UInt8.ofNat (n >>> (8 * place) % 256)

def ofBytes (bytes : List UInt8) : Nat :=
  bytes.foldl (fun n byte => 256 * n + byte.toNat) 0

/-- The message with the bit after its end, zeros up to eight bytes before the end of a block, and
its length in bits in those eight. -/
def pad (message : List UInt8) : List UInt8 :=
  let zeros := (119 - message.length % 64) % 64
  message ++ 0x80 :: (List.replicate zeros 0 ++ bytesOf 8 (8 * message.length))

/-- The bytes as words of four; bytes left over at the end are dropped. -/
def toWords : List UInt8 → List UInt32
  | p :: q :: r :: s :: rest => UInt32.ofNat (ofBytes [p, q, r, s]) :: toWords rest
  | _ => []

/-- Extends the words of a block, the latest first, by `count` more words. -/
def extend : Nat → List UInt32 → List UInt32
  | 0, latest => latest
  | count + 1, latest =>
    let word := latest.getD 2 0 ^^^ latest.getD 7 0 ^^^ latest.getD 13 0 ^^^ latest.getD 15 0
    extend count (rotateLeft word 1 :: latest)

/-- The eighty words of a block of sixteen. -/
def schedule (block : List UInt32) : List UInt32 :=
  (extend 64 block.reverse).reverse

/-- The mixing function and the constant of round `t`. -/
def mixing (t : Nat) (s : State) : UInt32 × UInt32 :=
  if t < 20 then ((s.b &&& s.c) ||| ((s.b ^^^ 0xFFFFFFFF) &&& s.d), 0x5A827999)
  else if t < 40 then (s.b ^^^ s.c ^^^ s.d, 0x6ED9EBA1)
  else if t < 60 then ((s.b &&& s.c) ||| (s.b &&& s.d) ||| (s.c &&& s.d), 0x8F1BBCDC)
  else (s.b ^^^ s.c ^^^ s.d, 0xCA62C1D6)

/-- One round with the word of round `t`. -/
def round (s : State) (entry : UInt32 × Nat) : State :=
  let (word, t) := entry
  let (f, k) := mixing t s
  ⟨rotateLeft s.a 5 + f + s.e + k + word, s.a, rotateLeft s.b 30, s.c, s.d⟩

def absorb (s : State) (block : List UInt32) : State :=
  let t := (schedule block).zipIdx.foldl round s
  ⟨s.a + t.a, s.b + t.b, s.c + t.c, s.d + t.d, s.e + t.e⟩

def absorbAll : Nat → State → List UInt32 → State
  | 0, s, _ => s
  | blocks + 1, s, words => absorbAll blocks (absorb s (words.take 16)) (words.drop 16)

/-- The twenty bytes of the digest of a message. -/
def sha1 (message : List UInt8) : List UInt8 :=
  let words := toWords (pad message)
  let s := absorbAll (words.length / 16) .start words
  [s.a, s.b, s.c, s.d, s.e].flatMap fun word => bytesOf 4 word.toNat

end Installer.Guid.Digest
