/-!
# Random numbers

A stream of pseudorandom words: the blocks of the ChaCha stream cipher with twelve rounds, whose
key is made from a seed by a linear congruential generator. Draws take words from the front of
the stream.
-/

namespace SpinGlass

/-- A place in a stream. -/
structure Generator where
  /-- The key, eight words. -/
  key : List UInt32
  /-- The number of the next block. -/
  counter : UInt64
  /-- What is left of the current block. -/
  buffer : List UInt32
  deriving DecidableEq

namespace Generator

/-- Rotates a word to the left. -/
def rotateLeft (x : UInt32) (n : UInt32) : UInt32 := (x <<< n) ||| (x >>> (32 - n))

/-- The sixteen words that a block is computed from and in. -/
abbrev Block := Vector UInt32 16

/-- Mixes four words of a block. -/
def quarterRound (s : Block) (a b c d : Fin 16) : Block :=
  let s := s.set a (s[a] + s[b])
  let s := s.set d (rotateLeft (s[d] ^^^ s[a]) 16)
  let s := s.set c (s[c] + s[d])
  let s := s.set b (rotateLeft (s[b] ^^^ s[c]) 12)
  let s := s.set a (s[a] + s[b])
  let s := s.set d (rotateLeft (s[d] ^^^ s[a]) 8)
  let s := s.set c (s[c] + s[d])
  s.set b (rotateLeft (s[b] ^^^ s[c]) 7)

/-- A round over the columns and a round over the diagonals. -/
def doubleRound (s : Block) : Block :=
  let s := quarterRound s 0 4 8 12
  let s := quarterRound s 1 5 9 13
  let s := quarterRound s 2 6 10 14
  let s := quarterRound s 3 7 11 15
  let s := quarterRound s 0 5 10 15
  let s := quarterRound s 1 6 11 12
  let s := quarterRound s 2 7 8 13
  quarterRound s 3 4 9 14

/-- The block before the first round: four constants, the key, the number of the block and zeros. -/
def initialBlock (key : List UInt32) (counter : UInt64) : Block :=
  let k (i : Nat) : UInt32 := key.getD i 0
  #v[0x61707865, 0x3320646e, 0x79622d32, 0x6b206574, k 0, k 1, k 2, k 3, k 4, k 5, k 6, k 7,
    counter.toUInt32, (counter >>> 32).toUInt32, 0, 0]

/-- A block of the stream. -/
def block (key : List UInt32) (counter : UInt64) : List UInt32 :=
  let start := initialBlock key counter
  let mixed := Nat.repeat doubleRound 6 start
  (Vector.zipWith (· + ·) mixed start).toList

/-- The next state of the congruential generator that makes keys. -/
def nextKeyState (state : UInt64) : UInt64 := state * 6364136223846793005 + 11634580027462260723

/-- The word that a state of the congruential generator gives. -/
def keyWord (state : UInt64) : UInt32 :=
  let word := (((state >>> 18) ^^^ state) >>> 27).toUInt32
  let places : UInt64 := state >>> 59
  rotateLeft word (32 - places.toUInt32)

/-- The words of a key, each from the next state. -/
def keyWords : Nat → UInt64 → List UInt32
  | 0, _ => []
  | n + 1, state =>
    let state := nextKeyState state
    keyWord state :: keyWords n state

/-- The stream of a seed. -/
def ofSeed (seed : UInt64) : Generator := ⟨keyWords 8 seed, 0, []⟩

/-- The next word of the stream. -/
def nextWord (g : Generator) : UInt32 × Generator :=
  match g.buffer with
  | word :: rest => (word, { g with buffer := rest })
  | [] =>
    match block g.key g.counter with
    | word :: rest => (word, { g with counter := g.counter + 1, buffer := rest })
    | [] => (0, g)

/-- The next two words of the stream as one number, the lower one first. -/
def nextLong (g : Generator) : UInt64 × Generator :=
  let (low, g) := g.nextWord
  let (high, g) := g.nextWord
  (low.toUInt64 ||| (high.toUInt64 <<< 32), g)

/-- A coin: the highest bit of the next word. -/
def nextBool (g : Generator) : Bool × Generator :=
  let (word, g) := g.nextWord
  (word >>> 31 == 1, g)

/-- A float from zero to one, of 53 bits. -/
def nextUnit (g : Generator) : Float × Generator :=
  let (long, g) := g.nextLong
  ((long >>> 11).toFloat / 9007199254740992.0, g)

/-- How often an index is drawn anew. A draw is refused in less than half of the cases, so that
the limit is never reached in practice. -/
def drawLimit : Nat := 256

/-- Draws words until the product with `n` leaves a low half that is within `zone`; the high half
is then uniform below `n`. -/
def drawBelow (n zone : Nat) : Nat → Generator → Nat × Generator
  | 0, g => (0, g)
  | tries + 1, g =>
    let (word, g) := g.nextWord
    let product := word.toNat * n
    if product % UInt32.size ≤ zone then (product / UInt32.size, g)
    else drawBelow n zone tries g

/-- An index below `n`, for `0 < n < 2 ^ 32`. -/
def nextBelow (g : Generator) (n : Nat) : Nat × Generator :=
  drawBelow n ((n <<< (31 - n.log2)) - 1) drawLimit g

/-- A member of a list, unless it is empty; then nothing is drawn. -/
def choose {α : Type} (g : Generator) (xs : List α) : Option α × Generator :=
  if xs.isEmpty then (none, g)
  else
    let (i, g) := g.nextBelow xs.length
    (xs[i]?, g)

/-- Swaps each element, from the last to the second, with one that is not after it. -/
def shuffleFrom {α : Type} : Nat → Array α → Generator → Array α × Generator
  | 0, xs, g => (xs, g)
  | i + 1, xs, g =>
    let (j, g) := g.nextBelow (i + 2)
    shuffleFrom i (xs.swapIfInBounds (i + 1) j) g

/-- A random permutation of a list. -/
def shuffle {α : Type} (g : Generator) (xs : List α) : List α × Generator :=
  let (xs, g) := shuffleFrom (xs.length - 1) xs.toArray g
  (xs.toList, g)

end Generator

end SpinGlass
