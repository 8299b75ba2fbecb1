import Barline.Random.Source

/-!
# The eight-round ChaCha keystream

A keystream is fixed by a key of eight words, which is itself spread out from one seed. Its blocks
of sixteen words are numbered; each is the number, the key and four constants, mixed and added to
what they were. Two words make one 64-bit word, the lower half first.
-/

namespace Barline.Random

def rotate (x : UInt32) (bits : UInt32) : UInt32 := x <<< bits ||| x >>> (32 - bits)

structure Row where
  a : UInt32
  b : UInt32
  c : UInt32
  d : UInt32
deriving DecidableEq

namespace Row

def toList (r : Row) : List UInt32 := [r.a, r.b, r.c, r.d]

def zipWith (f : UInt32 → UInt32 → UInt32) (r s : Row) : Row :=
  ⟨f r.a s.a, f r.b s.b, f r.c s.c, f r.d s.d⟩

def map (f : UInt32 → UInt32) (r : Row) : Row := ⟨f r.a, f r.b, f r.c, f r.d⟩

def turn (r : Row) : Row := ⟨r.b, r.c, r.d, r.a⟩

end Row

structure Block where
  first : Row
  second : Row
  third : Row
  fourth : Row
deriving DecidableEq

namespace Block

def toList (b : Block) : List UInt32 :=
  b.first.toList ++ b.second.toList ++ b.third.toList ++ b.fourth.toList

def add (b c : Block) : Block :=
  ⟨b.first.zipWith (· + ·) c.first, b.second.zipWith (· + ·) c.second,
    b.third.zipWith (· + ·) c.third, b.fourth.zipWith (· + ·) c.fourth⟩

/-- Half of a mix of the four columns. -/
def stir (m n : UInt32) (x : Block) : Block :=
  let first := x.first.zipWith (· + ·) x.second
  let fourth := (x.fourth.zipWith (· ^^^ ·) first).map (rotate · m)
  let third := x.third.zipWith (· + ·) fourth
  ⟨first, (x.second.zipWith (· ^^^ ·) third).map (rotate · n), third, fourth⟩

def mixColumns (x : Block) : Block := (x.stir 16 12).stir 8 7

/-- Mixes the columns, then the diagonals, which turned rows make into columns. -/
def doubleRound (x : Block) : Block :=
  let x := x.mixColumns
  let x := mixColumns ⟨x.first, x.second.turn, x.third.turn.turn, x.fourth.turn.turn.turn⟩
  ⟨x.first, x.second.turn.turn.turn, x.third.turn.turn, x.fourth.turn⟩

/-- Four double rounds, and the input added. -/
def scramble (x : Block) : Block :=
  x.doubleRound.doubleRound.doubleRound.doubleRound.add x

end Block

structure Key where
  low : Row
  high : Row
deriving DecidableEq

/-- Spreads a seed: each step advances the seed and gives one word, the middle bits turned by the
upper ones. -/
def spread (seed : UInt64) : UInt32 × UInt64 :=
  let seed := seed * 6364136223846793005 + 11634580027462260723
  (turnRight (((seed >>> 18) ^^^ seed) >>> 27).toUInt32 (seed >>> 59).toUInt32, seed)
where
  turnRight (x bits : UInt32) : UInt32 := x >>> bits ||| x <<< (32 - bits)

def spreadRow (seed : UInt64) : Row × UInt64 :=
  let (a, seed) := spread seed
  let (b, seed) := spread seed
  let (c, seed) := spread seed
  let (d, seed) := spread seed
  (⟨a, b, c, d⟩, seed)

def Key.ofSeed (seed : UInt64) : Key :=
  let (low, seed) := spreadRow seed
  ⟨low, (spreadRow seed).1⟩

def Key.block (key : Key) (number : UInt64) : Block :=
  Block.scramble
    ⟨⟨0x61707865, 0x3320646e, 0x79622d32, 0x6b206574⟩, key.low, key.high,
      ⟨number.toUInt32, (number >>> 32).toUInt32, 0, 0⟩⟩

def pairUp : List UInt32 → List UInt64
  | low :: high :: rest => (low.toUInt64 ||| high.toUInt64 <<< 32) :: pairUp rest
  | _ => []

structure Keystream where
  key : Key
  next : UInt64
  /-- The words of the present block that are left. -/
  unread : List UInt64

namespace Keystream

def ofSeed (seed : UInt64) : Keystream := ⟨.ofSeed seed, 0, []⟩

def draw (k : Keystream) : UInt64 × Keystream :=
  match k.unread with
  | word :: rest => (word, { k with unread := rest })
  | [] =>
    let words := pairUp (k.key.block k.next).toList
    (words.headD 0, { k with next := k.next + 1, unread := words.tail })

instance : Source Keystream := ⟨draw⟩

end Keystream

end Barline.Random
