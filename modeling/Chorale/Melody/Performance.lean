import Chorale.Chord
import Chorale.Melody.Command
import Chorale.Settings
import Chorale.Track

/-!
# Performances

A melody is performed by obeying its commands one after another. Its notes follow each other without
a rest, and each sounds the tone, at the player's degree, of the chord of the quarter note in which
it begins. There is one chord for each quarter note; the player turns to the next one only when a
note is due.
-/

namespace Chorale.Melody

/-- What a melody is performed with. -/
structure Part where
  /-- One chord for each quarter note. -/
  chords : List Chord
  /-- The octave of the voice. -/
  octave : Int32
  /-- The tick at which the melody begins. -/
  offset : UInt32
  ticksPerQuarter : UInt32
  /-- The note length that the melody begins with. -/
  barTicks : UInt32
  velocity : UInt8

/-- The part of a voice from a point in time on, as the settings have it. -/
def Part.ofSettings (settings : Settings) (chords : List Chord) (octave : Int32)
    (offset : UInt32) : Except Failure Part := do
  let barTicks ← settings.barTicks
  pure ⟨chords, octave, offset, settings.ticksPerQuarter, barTicks, settings.velocity⟩

/-- How far a player has got in the chords. -/
structure Reading where
  /-- How many chords were turned to. -/
  turned : Nat
  /-- The last of them. -/
  chord : Option Chord
  /-- Those still to come. -/
  ahead : List Chord

/-- Turns to the chord of a quarter note, unless that was done already. There is none if the chords
come to an end. -/
def Reading.turnTo (quarter turned : Nat) (chord : Option Chord) : List Chord → Option Reading
  | [] => if quarter < turned then some ⟨turned, chord, []⟩ else none
  | next :: ahead =>
    if quarter < turned then some ⟨turned, chord, next :: ahead⟩
    else turnTo quarter (turned + 1) (some next) ahead

/-- The state of a player. -/
structure Player where
  /-- The length of the next note. -/
  length : UInt32
  /-- The chord degree of the next note. -/
  degree : Int32
  /-- Lengths and degrees laid aside, the last one first. -/
  saved : List (UInt32 × Int32)
  /-- The ticks performed. -/
  elapsed : UInt32
  reading : Reading
  track : Track

namespace Player

/-- A player who begins to perform onto a track. -/
def begin (part : Part) (track : Track) : Player :=
  ⟨part.barTicks, 0, [], 0, ⟨0, none, part.chords⟩, track⟩

/-- The track with the next note, if a chord was turned to. -/
def sound (part : Part) (player : Player) : Except Failure Track :=
  match player.reading.chord with
  | none => .ok player.track
  | some chord => do
    let key ← chord.keyAt player.degree part.octave
    let start ← Checked.add part.offset player.elapsed
    player.track.addNote start player.length key part.velocity

/-- The player after a command of the given melody. -/
def obey (part : Part) (melody : Word) (player : Player) : Command → Except Failure Player
  | .note =>
    if part.ticksPerQuarter = 0 then .error .divisionByZero
    else
      let quarter := player.elapsed.toNat / part.ticksPerQuarter.toNat
      let reading := player.reading
      match Reading.turnTo quarter reading.turned reading.chord reading.ahead with
      | none => .error (.pastChords melody part.chords.length)
      | some reading => do
        let track ← sound part { player with reading }
        let elapsed ← Checked.add player.elapsed player.length
        pure { player with reading, track, elapsed }
  | .up => do
    let degree ← Checked.add player.degree 1
    pure { player with degree }
  | .down => do
    let degree ← Checked.sub player.degree 1
    pure { player with degree }
  | .halve => .ok { player with length := player.length / 2 }
  | .double => do
    let length ← Checked.mul player.length 2
    pure { player with length }
  | .save => .ok { player with saved := (player.length, player.degree) :: player.saved }
  | .restore =>
    match player.saved with
    | [] => .error (.unbalanced melody)
    | (length, degree) :: saved => .ok { player with length, degree, saved }

/-- The player after the rest of the given melody. -/
def perform (part : Part) (melody : Word) (player : Player) : Word → Except Failure Player
  | [] => .ok player
  | c :: rest =>
    match Command.ofLetter? c with
    | none => perform part melody player rest
    | some command => do
      let player ← player.obey part melody command
      perform part melody player rest

end Player

/-- Performs a melody onto a track. Gives the ticks that it lasts, and the track. -/
def perform (part : Part) (melody : Word) (track : Track) : Except Failure (UInt32 × Track) := do
  let player ← (Player.begin part track).perform part melody melody
  pure (player.elapsed, player.track)

end Chorale.Melody
