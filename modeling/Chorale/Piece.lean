import Chorale.Quartet
import Chorale.Scale
import Chorale.Track

/-!
# Pieces

A piece consists of phrases, each with its chords and one melody for each voice, of the order in
which they are played, and of a closing chord. `Piece.sequence` is the piece as played.
-/

namespace Chorale

/-- A part of a piece that can be played several times. -/
structure Phrase where
  /-- The letter for the phrase in the form of the piece. -/
  symbol : Char
  bars : UInt32
  /-- One chord for each quarter note. -/
  chords : List Chord
  melodies : Quartet Word
deriving DecidableEq

/-- A composed piece. -/
structure Piece where
  tonic : PitchClass
  scale : Scale
  /-- The phrases, in the order of their first appearance. -/
  phrases : List Phrase
  /-- The places of the phrases played, in order. -/
  order : List Nat
  /-- The ticks at which the phrases played begin. -/
  offsets : List UInt32
  /-- The progression of all phrases. -/
  harmony : Word
  /-- The closing chord. -/
  cadence : Chord
  /-- The degree that each voice has in the closing chord. -/
  cadenceDegrees : Quartet Int32
  /-- The tick at which the closing chord begins. -/
  cadenceTick : UInt32
  sequence : Sequence
deriving DecidableEq

namespace Piece

/-- The phrases in the order of playing, repeated as they are. -/
def played (piece : Piece) : List Phrase := piece.order.filterMap (piece.phrases[·]?)

/-- The bars played before the closing chord. -/
def totalBars (piece : Piece) : Except Failure UInt32 :=
  Checked.sum 0 (piece.played.map (·.bars))

end Piece

end Chorale
