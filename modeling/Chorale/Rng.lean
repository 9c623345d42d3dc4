/-!
# The generator of random words

A generator has a state of four 64-bit words. `Rng.output` is the word that a state gives and
`Rng.advance` the state after it (the xoshiro256++ generator), so that a seed gives one endless
stream of words on every machine. A state is made from one seed word by `Rng.ofSeed` (the
SplitMix64 generator).
-/

namespace Chorale

/-- The state of a generator. -/
structure Rng where
  s0 : UInt64
  s1 : UInt64
  s2 : UInt64
  s3 : UInt64
deriving DecidableEq

/-- The bits of `x` moved `count` places up, those that fall off coming in from below. -/
def rotateLeft (x count : UInt64) : UInt64 := (x <<< count) ||| (x >>> (64 - count))

namespace Rng

/-- How many states there are. -/
def stateCount : Nat := UInt64.size * UInt64.size * UInt64.size * UInt64.size

/-! ## The stream of a state -/

/-- The word that the generator gives in state `r`. -/
def output (r : Rng) : UInt64 := rotateLeft (r.s0 + r.s3) 23 + r.s0

/-- The state after `r` has given its word. -/
def advance (r : Rng) : Rng where
  s0 := r.s0 ^^^ (r.s3 ^^^ r.s1)
  s1 := r.s1 ^^^ (r.s2 ^^^ r.s0)
  s2 := r.s2 ^^^ r.s0 ^^^ (r.s1 <<< 17)
  s3 := rotateLeft (r.s3 ^^^ r.s1) 45

/-! ## Seeding -/

/-- A bijective scrambling of words: shifts and odd multipliers, by turns. -/
def scramble (z : UInt64) : UInt64 :=
  let z := (z ^^^ (z >>> 30)) * 0xbf58476d1ce4e5b9
  let z := (z ^^^ (z >>> 27)) * 0x94d049bb133111eb
  z ^^^ (z >>> 31)

/-- The step between the numbers that are scrambled into a state. -/
def seedStep : UInt64 := 0x9e3779b97f4a7c15

/-- The state that a seed stands for: four scrambled numbers at equal steps from the seed. -/
def ofSeed (seed : UInt64) : Rng where
  s0 := scramble (seed + seedStep)
  s1 := scramble (seed + seedStep + seedStep)
  s2 := scramble (seed + seedStep + seedStep + seedStep)
  s3 := scramble (seed + seedStep + seedStep + seedStep + seedStep)

/-- The four words of a state. -/
def words (r : Rng) : List UInt64 := [r.s0, r.s1, r.s2, r.s3]

/-- The state that has the given words, if they are four. -/
def ofWords? : List UInt64 → Option Rng
  | [s0, s1, s2, s3] => some ⟨s0, s1, s2, s3⟩
  | _ => none

end Rng

end Chorale
