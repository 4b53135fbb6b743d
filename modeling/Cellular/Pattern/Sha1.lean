/-!
# SHA-1

The secure hash algorithm with a digest of 160 bits, on lists of bytes.  It is
used to spread coordinates evenly over large numbers, not to keep a secret.
-/

namespace Cellular

namespace Sha1

/-- The five words of the state. -/
structure State where
  a : UInt32
  b : UInt32
  c : UInt32
  d : UInt32
  e : UInt32

def initial : State where
  a := 0x67452301
  b := 0xEFCDAB89
  c := 0x98BADCFE
  d := 0x10325476
  e := 0xC3D2E1F0

/-- A word turned left by `k` bits, for `k` between 1 and 31. -/
def rotate (k : UInt32) (word : UInt32) : UInt32 :=
  (word <<< k) ||| (word >>> (32 - k))

/-- The `count` least significant bytes of a number, the most significant of
them first. -/
def bigEndian (count n : Nat) : List UInt8 :=
  ((List.range count).map fun i => UInt8.ofNat (n >>> (8 * i))).reverse

/-- The message with its padding: a one bit, zeros up to eight bytes short of a
full block, and the length of the message in bits. -/
def padded (message : List UInt8) : List UInt8 :=
  let zeros := (119 - message.length % 64) % 64
  message ++ 0x80 :: List.replicate zeros 0 ++ bigEndian 8 (8 * message.length)

/-- The words of a block of bytes, each with its most significant byte
first. -/
def wordsOf : List UInt8 → List UInt32
  | a :: b :: c :: d :: rest =>
    ((a.toUInt32 <<< 24) ||| (b.toUInt32 <<< 16) ||| (c.toUInt32 <<< 8) |||
      d.toUInt32) :: wordsOf rest
  | _ => []

/-- The words of a message in blocks of sixteen. -/
def blocksOf : Nat → List UInt32 → List (List UInt32)
  | 0, _ => []
  | count + 1, words => words.take 16 :: blocksOf count (words.drop 16)

/-- The eighty words that the rounds of a block use. -/
def schedule (block : List UInt32) : Array UInt32 :=
  (List.range 64).foldl
    (fun words i =>
      words.push (rotate 1
        (words.getD (i + 13) 0 ^^^ words.getD (i + 8) 0 ^^^
          words.getD (i + 2) 0 ^^^ words.getD i 0)))
    block.toArray

/-- The mixing function and the constant of a round. -/
def mixing (round : Nat) (b c d : UInt32) : UInt32 × UInt32 :=
  if round < 20 then ((b &&& c) ||| (~~~b &&& d), 0x5A827999)
  else if round < 40 then (b ^^^ c ^^^ d, 0x6ED9EBA1)
  else if round < 60 then ((b &&& c) ||| (b &&& d) ||| (c &&& d), 0x8F1BBCDC)
  else (b ^^^ c ^^^ d, 0xCA62C1D6)

/-- One round of the compression. -/
def step (words : Array UInt32) (s : State) (round : Nat) : State :=
  let (mixed, constant) := mixing round s.b s.c s.d
  { a := rotate 5 s.a + mixed + s.e + constant + words.getD round 0
    b := s.a
    c := rotate 30 s.b
    d := s.c
    e := s.d }

/-- Compress one block into the state. -/
def compress (s : State) (block : List UInt32) : State :=
  let words := schedule block
  let t := (List.range 80).foldl (step words) s
  ⟨s.a + t.a, s.b + t.b, s.c + t.c, s.d + t.d, s.e + t.e⟩

/-- The twenty bytes of the digest of a message. -/
def digest (message : List UInt8) : List UInt8 :=
  let words := wordsOf (padded message)
  let s := (blocksOf (words.length / 16) words).foldl compress initial
  [s.a, s.b, s.c, s.d, s.e].flatMap fun word => bigEndian 4 word.toNat

end Sha1

end Cellular
