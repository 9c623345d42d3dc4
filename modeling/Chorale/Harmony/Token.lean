import Chorale.Chord

/-!
# Chord tokens

In a progression a chord is written as three letters: two digits that count its root from the tonic
up, the tonic being 01, and the letter of its quality. `decode` reads a progression, token by token,
as chords in a key.
-/

namespace Chorale.Harmony

/-- The decimal digits of `n`, at least two. -/
def twoDigits (n : Nat) : Word := if n < 10 then '0' :: Word.ofNat n else Word.ofNat n

/-- The value of a decimal digit. -/
def digit? (c : Char) : Option Nat :=
  if '0' ≤ c ∧ c ≤ '9' then some (c.toNat - '0'.toNat) else none

/-- A chord by the height of its root above the tonic. -/
structure Token where
  degree : UInt8
  quality : Quality
deriving DecidableEq

namespace Token

/-- The number of the degree, the tonic being 01. -/
def label (token : Token) : Except Failure Word := do
  let number ← Checked.add token.degree 1
  pure (twoDigits number.toNat)

/-- The three letters of the token. -/
def text (token : Token) : Except Failure Word := do
  let label ← token.label
  pure (label ++ [token.quality.letter])

/-- The token that three letters stand for: a number from 01 to 12 and any letter for the
quality. -/
def parse? : Word → Option Token
  | [tens, ones, quality] => do
    let tens ← digit? tens
    let ones ← digit? ones
    let number := 10 * tens + ones
    if 1 ≤ number ∧ number ≤ 12 then
      some ⟨UInt8.ofNat (number - 1), .ofLetter quality⟩
    else none
  | _ => none

/-- The chord in the key of `tonic`. -/
def chord (token : Token) (tonic : PitchClass) : Chord :=
  ⟨tonic.above token.degree.toNat, token.quality⟩

end Token

/-- The chords of the tokens of a word whose first letter is at `position` of the progression. -/
def decodeFrom (tonic : PitchClass) (position : Nat) : Word → Except Failure (List Chord)
  | [] => .ok []
  | a :: b :: c :: rest =>
    match Token.parse? [a, b, c] with
    | some token => do
      let chords ← decodeFrom tonic (position + 3) rest
      pure (token.chord tonic :: chords)
    | none => .error (.malformedToken position [a, b, c])
  | short => .error (.malformedToken position short)

/-- The chords of a progression in the key of `tonic`. -/
def decode (tonic : PitchClass) (progression : Word) : Except Failure (List Chord) :=
  decodeFrom tonic 0 progression

end Chorale.Harmony
