import Chorale.Checked
import Chorale.PowerOfTwo
import Chorale.Rng

/-!
# Draws

A `Draw` is a computation that takes words from a generator and may fail; the state that the
generator was left in is kept in both cases. Numbers are drawn without bias: the words are dealt out
to the numbers of a range evenly (`Draw.deal?`), and `Draw.range` takes words until one is not left
over.
-/

namespace Chorale

/-- A computation that draws from a generator and may fail. A failure keeps the generator's
state. -/
abbrev Draw := ExceptT Failure (StateM Rng)

namespace Draw

/-- The next word of the stream. -/
def word : Draw UInt64 := modifyGet fun r => (r.output, r.advance)

/-- What a word is dealt to, for the first of at most `limit` words that is dealt to anything. -/
def firstDealt {α : Type} (deal? : UInt64 → Option α) : (limit : Nat) → Draw α
  | 0 => throw .endlessRejection
  | limit + 1 => do
    let w ← word
    match deal? w with
    | some a => pure a
    | none => firstDealt deal? limit

/-! ## Running draws -/

theorem run_pure {α : Type} (a : α) (r : Rng) : (pure a : Draw α).run r = (.ok a, r) := rfl

theorem run_throw {α : Type} (e : Failure) (r : Rng) :
    (throw e : Draw α).run r = (.error e, r) := rfl

/-- A draw that follows another starts where that one left the generator, unless it failed. -/
theorem run_bind {α β : Type} (x : Draw α) (f : α → Draw β) (r : Rng) :
    (x >>= f).run r = match x.run r with
      | (.ok a, r) => (f a).run r
      | (.error e, r) => (.error e, r) := by
  show ExceptT.bindCont f (x.run r).1 (x.run r).2 = _
  rcases x.run r with ⟨_ | _, _⟩ <;> rfl

theorem run_word (r : Rng) : word.run r = (.ok r.output, r.advance) := rfl

theorem run_firstDealt_of_some {α : Type} {deal? : UInt64 → Option α} {r : Rng} {a : α}
    (h : deal? r.output = some a) (limit : Nat) :
    (firstDealt deal? (limit + 1)).run r = (.ok a, r.advance) := by
  rw [firstDealt, run_bind, run_word]
  simp only [h]
  rfl

theorem run_firstDealt_of_none {α : Type} {deal? : UInt64 → Option α} {r : Rng}
    (h : deal? r.output = none) (limit : Nat) :
    (firstDealt deal? (limit + 1)).run r = (firstDealt deal? limit).run r.advance := by
  rw [firstDealt, run_bind, run_word]
  simp only [h]

/-! ## Ranges -/

/-- How many of the 2^64 words are left over when they are dealt out to `width` numbers evenly. -/
def leftover (width : UInt64) : UInt64 := (0 - width) % width

/-- The number in `low ≤ x < high` that a word is dealt to, unless it is left over. If there is a
power of two of numbers, no word is left over and the low bits of a word tell its number. -/
def deal? (low high w : UInt64) : Option UInt64 :=
  let width := high - low
  if isPowerOfTwo width.toNat then some (low + (w &&& (width - 1)))
  else if leftover width ≤ w then some (low + w % width)
  else none

/-- A number in `low ≤ x < high`, all equally likely: words are drawn until one is not left over. A
generator that gives no such word in as many draws as it has states never gives one. -/
def range (low high : UInt64) : Draw UInt64 :=
  if low < high then firstDealt (deal? low high) Rng.stateCount
  else throw .emptyRange

/-- A number in `low ≤ x ≤ high`, all equally likely. -/
def inclusiveRange (low high : UInt64) : Draw UInt64 :=
  if low ≤ high then do
    let top ← Checked.add high 1
    range low top
  else throw .emptyInclusiveRange

/-! ## Weights -/

/-- The first place at which the running total of the weights, begun at `total`, exceeds
`target`. -/
def placeOf (target : UInt64) : UInt64 → List UInt64 → Except Failure (Option Nat)
  | _, [] => pure none
  | total, weight :: weights => do
    let total ← Checked.add total weight
    if target < total then pure (some 0)
    else
      let place ← placeOf target total weights
      pure (place.map (· + 1))

/-- A place in a list of weights, each as likely as its weight says. If all weights are zero there
is none, and nothing is drawn. -/
def weighted (weights : List UInt64) : Draw (Option Nat) := do
  let total ← Checked.sum 0 weights
  if total = 0 then pure none
  else
    let target ← range 0 total
    placeOf target 0 weights

end Draw

end Chorale
