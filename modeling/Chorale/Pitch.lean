import Chorale.Checked
import Chorale.Text.Blank
import Chorale.Text.Capital

/-!
# Pitch classes

A pitch class is a pitch regardless of its octave: one of twelve, at equal steps. It is kept as its
height above C, so that two spellings of one pitch (A sharp, B flat) are one pitch class.
-/

namespace Chorale

/-- A pitch regardless of its octave, by its height above C in semitones. -/
structure PitchClass where
  semitones : Fin 12
deriving DecidableEq

namespace PitchClass

/-- The pitch class `height` semitones above C, or below it if `height` is negative. -/
def ofInt (height : Int) : PitchClass := ⟨⟨(height % 12).toNat, by omega⟩⟩

/-- The height above C. -/
def height (p : PitchClass) : Int := p.semitones.val

/-- The pitch class `interval` semitones above `p`. -/
def above (p : PitchClass) (interval : Int) : PitchClass := ofInt (p.height + interval)

/-- The pitch class at an interval from `p` whose height has 32 bits. -/
def transpose (p : PitchClass) (interval : Int32) : Except Failure PitchClass := do
  let start : Int32 ← Checked.ofInt p.height
  let height ← Checked.add start interval
  pure (ofInt height.toInt)

/-! ## Names -/

/-- The names with sharps, from C up. -/
def names : Vector Word 12 :=
  #v["C".toList, "C#".toList, "D".toList, "D#".toList, "E".toList, "F".toList, "F#".toList,
    "G".toList, "G#".toList, "A".toList, "A#".toList, "B".toList]

/-- The name with a sharp, if it needs one. -/
def name (p : PitchClass) : Word := names.get p.semitones

/-- The height of a natural pitch above C. -/
def natural? : Char → Option Int
  | 'C' => some 0
  | 'D' => some 2
  | 'E' => some 4
  | 'F' => some 5
  | 'G' => some 7
  | 'A' => some 9
  | 'B' => some 11
  | _ => none

/-- By how much an accidental raises a pitch. -/
def accidental? (w : Word) : Option Int :=
  if w = [] then some 0
  else if w = "SHARP".toList ∨ w = ['#'] ∨ w = ['♯'] then some 1
  else if w = "FLAT".toList ∨ w = ['B'] ∨ w = ['♭'] then some (-1)
  else none

/-- The pitch class that a name of a letter and perhaps an accidental stands for, in capital or
small letters. -/
def ofName? (name : Word) : Option PitchClass :=
  match Text.capitalize (Text.trim name) with
  | [] => none
  | letter :: accidental => do
    let height ← natural? letter
    let rise ← accidental? accidental
    pure (ofInt (height + rise))

/-- The pitch class that a name stands for. -/
def ofName (name : Word) : Except Failure PitchClass :=
  match ofName? name with
  | some p => .ok p
  | none => .error (.unknownPitch name)

end PitchClass

end Chorale
