import Chorale.Pitch

/-!
# Chords

A chord is a major or minor triad on a root. Its tones are counted by *degrees*: degree 0 is the
root, 1 and 2 the third and the fifth above it, 3 the root an octave up, and negative degrees go
down in the same way. `Chord.keyAt` is the key of a degree on a keyboard of 128 keys, moved by
octaves where the keyboard ends.
-/

namespace Chorale

/-- Whether the third of a triad is major or minor. -/
inductive Quality where
  | major
  | minor
deriving DecidableEq

namespace Quality

/-- The steps from each tone of the triad to the next, up to the root an octave higher. -/
def steps : Quality → List Nat
  | .major => [4, 3, 5]
  | .minor => [3, 4, 5]

theorem length_steps (q : Quality) : q.steps.length = 3 := by cases q <;> rfl

/-- The step from the tone at a place of the triad to the next. -/
def stepAt (q : Quality) (place : Fin 3) : Int32 :=
  Int32.ofNat (q.steps.get (place.cast q.length_steps.symm))

/-- The letter for the quality. -/
def letter : Quality → Char
  | .major => 'M'
  | .minor => 'm'

/-- The quality that a letter stands for: minor, unless it is the one for major. -/
def ofLetter (c : Char) : Quality := if c = 'M' then .major else .minor

/-- The note after the move numbered `step` of a walk up: the steps come round again after three. -/
def moveUp (q : Quality) (note : Int32) (step : Nat) : Except Failure Int32 :=
  Checked.add note (q.stepAt ⟨step % 3, by omega⟩)

/-- The note after the move numbered `step` of a walk down, which takes the steps the other way
round. -/
def moveDown (q : Quality) (note : Int32) (step : Nat) : Except Failure Int32 :=
  Checked.sub note (q.stepAt ⟨2 - step % 3, by omega⟩)

end Quality

/-- A triad on a root. -/
structure Chord where
  root : PitchClass
  quality : Quality
deriving DecidableEq

namespace Chord

/-- The name of the root, marked if the chord is minor. -/
def name (chord : Chord) : Word :=
  match chord.quality with
  | .major => chord.root.name
  | .minor => chord.root.name ++ ['m']

/-- The highest key of a keyboard. -/
def highestKey : Int := 127

/-- The note after `count` moves of a walk, the first of which is numbered `step`. -/
def travel (move : Int32 → Nat → Except Failure Int32) :
    (count step : Nat) → Int32 → Except Failure Int32
  | 0, _, note => .ok note
  | count + 1, step, note => do
    let note ← move note step
    travel move count (step + 1) note

/-- The note `degree` steps from the root in the lowest octave. -/
def walk (chord : Chord) (degree : Int32) : Except Failure Int32 := do
  let root := Int32.ofInt chord.root.height
  if 0 ≤ degree.toInt then
    travel chord.quality.moveUp degree.toInt.toNat 0 root
  else do
    let count ← Checked.neg degree
    travel chord.quality.moveDown count.toInt.toNat 0 root

/-- The key that a note is played on: the note itself, or the nearest one by octaves on the
keyboard. -/
def fold (note : Int32) : Except Failure UInt8 :=
  if note.toInt < 0 then do
    let depth ← Checked.neg note
    let reach ← Checked.add depth 12
    let octaves := (reach.toInt - 1) / 12
    pure (UInt8.ofNat (note.toInt + octaves * 12).toNat)
  else if highestKey < note.toInt then
    let octaves := (note.toInt - highestKey + 12 - 1) / 12
    pure (UInt8.ofNat (note.toInt - octaves * 12).toNat)
  else
    pure (UInt8.ofNat note.toInt.toNat)

/-- The key of the chord's tone at `degree` in the given octave. -/
def keyAt (chord : Chord) (degree octave : Int32) : Except Failure UInt8 := do
  let note ← chord.walk degree
  let lift ← Checked.mul octave 12
  let note ← Checked.add note lift
  fold note

end Chord

end Chorale
