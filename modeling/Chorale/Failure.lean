import Chorale.Word

/-!
# Failures

Why an operation of the library has no answer. A `Failure` is either a *refusal*, which tells the
caller what is wrong with a request (a name, a setting, a form, a length), or a *fault*, which says
that an operation was used outside its contract (`Failure.isFault`). Integers have a fixed width
throughout, and leaving it is the fault `overflow`.

The wording of a failure is in `Chorale.Failure.Message`.
-/

namespace Chorale

/-- What is wrong with the settings of a composition. -/
inductive Defect where
  /-- A quarter note has no ticks. -/
  | resolution
  /-- A bar has an odd number of quarter notes, or none. -/
  | quarters (count : UInt32)
  /-- A bar has a number of ticks that is no power of two. -/
  | barTicks (ticks : UInt32)
  /-- No phrase length is allowed, or the length zero is. -/
  | phraseBars (least greatest : UInt32)
  /-- No number of growing steps is allowed. -/
  | growthSteps (least greatest : UInt32)
  /-- A voice lies outside the range of MIDI keys. -/
  | octaves (lowest highest : Int32)
  /-- The velocity is none of a sounding note. -/
  | velocity (value : UInt8)
  /-- The tempo is zero. -/
  | tempo
deriving DecidableEq

/-- Why an operation has no answer. -/
inductive Failure where
  /-- An integer left the range of its type. -/
  | overflow
  /-- A quarter note of no ticks was divided by. -/
  | divisionByZero
  /-- A number was to be drawn from `low ≤ x < high` with `high ≤ low`. -/
  | emptyRange
  /-- A number was to be drawn from `low ≤ x ≤ high` with `high < low`. -/
  | emptyInclusiveRange
  /-- No word that the generator will ever give is accepted. -/
  | endlessRejection
  /-- A word of more letters than a memory can address was to be built. -/
  | tooLong
  /-- A rule was made with weight zero. -/
  | weightlessRule
  /-- A degree beyond the twelve of a scale was looked up. -/
  | degreeOutOfScale (degree : Nat)
  /-- A melody closes a bracket that it did not open. -/
  | unbalanced (melody : Word)
  /-- A melody goes on after the last of its `count` chords. -/
  | pastChords (melody : Word) (count : Nat)
  /-- The text names no pitch. -/
  | unknownPitch (name : Word)
  /-- The text names no scale. -/
  | unknownScale (name : Word)
  /-- There is no file of settings, or it holds no text. -/
  | unreadable
  /-- The text of the settings is no JSON of the right layout. -/
  | unparsable
  /-- The settings cannot be composed with. -/
  | settings (defect : Defect)
  /-- A progression of `required` letters cannot be completed after `produced` letters. -/
  | stalled (produced required : Nat)
  /-- The letters `token` from `position` on are no chord token. -/
  | malformedToken (position : Nat) (token : Word)
  /-- A form has no phrase. -/
  | emptyForm
  /-- A quarter note has more ticks than a MIDI file can say, or none. -/
  | resolution (ticks : UInt32)
  /-- A MIDI file cannot say the tempo. -/
  | tempo (perMinute : UInt32)
  /-- Two events are further apart than a MIDI file can say. -/
  | delta (ticks : UInt32)
  /-- The file cannot be written. -/
  | unwritable
deriving DecidableEq

/-- Faults are uses of an operation outside its contract; all other failures are refusals. -/
def Failure.isFault : Failure → Bool
  | .overflow | .divisionByZero | .emptyRange | .emptyInclusiveRange | .endlessRejection
  | .tooLong | .weightlessRule | .degreeOutOfScale _ | .unbalanced _ | .pastChords _ _ => true
  | _ => false

end Chorale
