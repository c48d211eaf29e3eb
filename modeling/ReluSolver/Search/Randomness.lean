import ReluSolver.Fault
import ReluSolver.Number.Interval

/-!
A reproducible stream of random numbers.

The stream is the ChaCha key stream with twelve rounds, a zero nonce and a block counter from zero.
Its key comes from a seed, by a linear congruential generator whose output is permuted.
-/

namespace ReluSolver

namespace ChaCha

def rotateLeft (x : UInt32) (bits : UInt32) : UInt32 := (x <<< bits) ||| (x >>> (32 - bits))

def quarterRound (s : Vector UInt32 16) (a b c d : Fin 16) : Vector UInt32 16 :=
  let s := s.set a (s[a] + s[b])
  let s := s.set d (rotateLeft (s[d] ^^^ s[a]) 16)
  let s := s.set c (s[c] + s[d])
  let s := s.set b (rotateLeft (s[b] ^^^ s[c]) 12)
  let s := s.set a (s[a] + s[b])
  let s := s.set d (rotateLeft (s[d] ^^^ s[a]) 8)
  let s := s.set c (s[c] + s[d])
  s.set b (rotateLeft (s[b] ^^^ s[c]) 7)

/-- A round on the columns and a round on the diagonals. -/
def doubleRound (s : Vector UInt32 16) : Vector UInt32 16 :=
  let s := quarterRound s 0 4 8 12
  let s := quarterRound s 1 5 9 13
  let s := quarterRound s 2 6 10 14
  let s := quarterRound s 3 7 11 15
  let s := quarterRound s 0 5 10 15
  let s := quarterRound s 1 6 11 12
  let s := quarterRound s 2 7 8 13
  quarterRound s 3 4 9 14

/-- The block with a given number: six double rounds, added to what they started from. -/
def block (key : Vector UInt32 8) (number : UInt64) : Vector UInt32 16 :=
  let constants : Vector UInt32 4 := #v[0x61707865, 0x3320646e, 0x79622d32, 0x6b206574]
  let counter : Vector UInt32 4 := #v[number.toUInt32, (number >>> 32).toUInt32, 0, 0]
  let start : Vector UInt32 16 := constants ++ key ++ counter
  ((List.range 6).foldl (fun s _ => doubleRound s) start).zipWith (· + ·) start

end ChaCha

/-- The key that belongs to a seed. -/
def keyOfSeed (seed : UInt64) : Vector UInt32 8 :=
  ((List.finRange 8).foldl (fun (state, key) i =>
    let state : UInt64 := state * 6364136223846793005 + 11634580027462260723
    let mixed := (((state >>> 18) ^^^ state) >>> 27).toUInt32
    let turn := (state >>> 59).toUInt32
    (state, key.set i ((mixed >>> turn) ||| (mixed <<< ((32 - turn) % 32)))))
    (seed, Vector.replicate 8 (0 : UInt32))).2

/-- Where a stream is: the words that are left of the current block, and the number of the next. -/
structure RandomStream where
  key : Vector UInt32 8
  block : UInt64
  words : List UInt32

namespace RandomStream

def ofSeed (seed : UInt64) : RandomStream := ⟨keyOfSeed seed, 0, []⟩

def nextWord (s : RandomStream) : UInt32 × RandomStream :=
  match s.words with
  | word :: rest => (word, { s with words := rest })
  | [] =>
    let words := ChaCha.block s.key s.block
    (words[0], { s with block := s.block + 1, words := words.toList.drop 1 })

/-- The next two words, the first one low. -/
def nextPair (s : RandomStream) : UInt64 × RandomStream :=
  let (low, s) := s.nextWord
  let (high, s) := s.nextWord
  (high.toUInt64 <<< 32 ||| low.toUInt64, s)

variable {α : Type} [Scalar α]

/-- The number of fraction bits that a draw has, as a power of two. -/
def resolution : α := 4503599627370496

/-- A number from zero up to, but not including, one. -/
def unit (s : RandomStream) : α × RandomStream :=
  let (bits, s) := s.nextPair
  let numerator : α := OfScientific.ofScientific (bits >>> 12).toNat false 0
  (numerator / (resolution : α), s)

/-- A number in a unit interval from `lower` on, or one twice as wide, without its upper end. -/
def below (s : RandomStream) (i : Interval α) : α × RandomStream :=
  let (u, s) : α × RandomStream := s.unit
  (u * (i.upper - i.lower) + i.lower, s)

/-- Lowers a scale until the greatest draw stays within the interval. -/
def fitScale (i : Interval α) (greatest : α) : (fuel : Nat) → α → Except Fault α
  | 0, _ => .error .unfinished
  | fuel + 1, scale =>
    if i.upper < scale * greatest + i.lower then fitScale i greatest fuel (Scalar.previous scale)
    else .ok scale

/-- How often a scale is lowered at most; a rounding error is gone after a few steps. -/
def fitLimit : Nat := 1000

/-- A number in an interval with its ends. An interval without one is refused, and so is one with an
infinite scale. -/
def within (s : RandomStream) (i : Interval α) : Except Fault (α × RandomStream) := do
  let greatest : α := (resolution - 1) / resolution
  let scale := (i.upper - i.lower) / greatest
  if !decide (i.lower ≤ i.upper) then .error .emptyRange
  else if !Scalar.isFinite scale then .error .rangeOverflow
  else
    let scale ← fitScale i greatest fitLimit scale
    let (u, s) : α × RandomStream := s.unit
    return (u * scale + i.lower, s)

/-- A value inside an interval, near its finite end if it has one only. -/
def sample (s : RandomStream) (i : Interval α) : Except Fault (α × RandomStream) := do
  match Scalar.isFinite i.lower, Scalar.isFinite i.upper with
  | true, true =>
    if i.lower < i.upper then
      if Scalar.isFinite (i.upper - i.lower) then
        s.within i
      else
        let (u, s) ← s.within ⟨-1, 1⟩
        let half := i.upper / 2 - i.lower / 2
        return (Scalar.clamp (i.midpoint + u * half) i.lower i.upper, s)
    else
      return (i.lower, s)
  | true, false =>
    let (u, s) := s.below ⟨0, 1⟩
    return (i.lower + u, s)
  | false, true =>
    let (u, s) := s.below ⟨0, 1⟩
    return (i.upper - u, s)
  | false, false =>
    return s.below ⟨-1, 1⟩

end RandomStream

end ReluSolver
