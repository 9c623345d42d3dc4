import Chorale.Failure

/-!
# Forms

The form of a piece is a word in which every letter stands for a phrase, and equal letters for the
same phrase: `aba` is a phrase, another one, and the first again. `Form.ofWord` reads the word letter
by letter and remembers the place of each letter that it has met.
-/

namespace Chorale

/-- The phrases of a piece and the order in which they are played. -/
structure Form where
  /-- The letters of the phrases, in the order of their first appearance. -/
  symbols : List Char
  /-- The places among the letters, in the order of playing. -/
  order : List Nat

namespace Form

/-- What is remembered while a word is read. -/
structure Reading where
  /-- The letters that have been met. -/
  symbols : List Char
  /-- The letters with their places. -/
  places : List (Char × Nat)

namespace Reading

/-- The place of a letter, and what is remembered after it: a letter that has not been met is put
behind the others. -/
def enter (reading : Reading) (c : Char) : Nat × Reading :=
  match reading.places.lookup c with
  | some place => (place, reading)
  | none =>
    let symbols := reading.symbols ++ [c]
    let place := symbols.length - 1
    (place, ⟨symbols, (c, place) :: reading.places⟩)

/-- The places of the letters of a word, and what is remembered after it. -/
def enterAll (reading : Reading) : Word → List Nat × Reading
  | [] => ([], reading)
  | c :: w =>
    let (place, reading) := reading.enter c
    let (order, reading) := reading.enterAll w
    (place :: order, reading)

end Reading

/-- The form that a word stands for, which must not be empty. -/
def ofWord (w : Word) : Except Failure Form :=
  if w = [] then .error .emptyForm
  else
    let (order, reading) := Reading.enterAll ⟨[], []⟩ w
    .ok ⟨reading.symbols, order⟩

end Form

end Chorale
