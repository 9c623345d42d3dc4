import Chorale.Checked

/-!
# Melody words

A melody is a word that is read letter by letter as commands to a player, who keeps a note length
and a chord degree and may lay both aside to take them up again. `isPlayable` tells whether a melody
never halves a length of one tick and never takes up what was not laid aside.
-/

namespace Chorale.Melody

/-- A command to a player. -/
inductive Command where
  /-- Sound a note. -/
  | note
  /-- Halve the note length. -/
  | halve
  /-- Double the note length. -/
  | double
  /-- Go up one chord tone. -/
  | up
  /-- Go down one chord tone. -/
  | down
  /-- Lay aside length and degree. -/
  | save
  /-- Take up the length and degree last laid aside. -/
  | restore
deriving DecidableEq

/-- The command that a letter stands for. All other letters are passed over. -/
def Command.ofLetter? : Char → Option Command
  | 'F' => some .note
  | 'd' => some .halve
  | 'D' => some .double
  | '+' => some .up
  | '-' => some .down
  | '[' => some .save
  | ']' => some .restore
  | _ => none

/-- The letter that stands for a command. -/
def Command.letter : Command → Char
  | .note => 'F'
  | .halve => 'd'
  | .double => 'D'
  | .up => '+'
  | .down => '-'
  | .save => '['
  | .restore => ']'

theorem Command.ofLetter?_eq_some_iff {c : Char} {command : Command} :
    ofLetter? c = some command ↔ c = command.letter := by
  refine ⟨fun h => ?_, fun h => by rw [h]; cases command <;> rfl⟩
  unfold ofLetter? at h
  split at h <;> cases h <;> rfl

/-- Whether a melody is playable from a note length and the lengths laid aside. -/
def isPlayableFrom (length : UInt32) (saved : List UInt32) : Word → Except Failure Bool
  | [] => .ok true
  | c :: rest =>
    match Command.ofLetter? c with
    | some .halve =>
      if length ≤ 1 then .ok false else isPlayableFrom (length / 2) saved rest
    | some .double => do
      let length ← Checked.mul length 2
      isPlayableFrom length saved rest
    | some .save => isPlayableFrom length (length :: saved) rest
    | some .restore =>
      match saved with
      | [] => .ok false
      | length :: saved => isPlayableFrom length saved rest
    | _ => isPlayableFrom length saved rest

/-- Whether a melody whose notes start out with `barTicks` ticks is playable. -/
def isPlayable (barTicks : UInt32) (melody : Word) : Except Failure Bool :=
  isPlayableFrom barTicks [] melody

end Chorale.Melody
