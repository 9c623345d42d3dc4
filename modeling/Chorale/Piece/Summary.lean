import Chorale.Piece
import Chorale.Text.Quoted

/-!
# Summaries

An overview of a piece in lines of text: its key and form, each phrase with its chords and melodies,
and the closing chord.
-/

namespace Chorale.Piece

/-- The letters of the phrases played. -/
def symbols (piece : Piece) : Word := piece.played.map (·.symbol)

/-- The ticks at which the phrase at a place is played. -/
def startsOf (piece : Piece) (place : Nat) : List UInt32 :=
  ((piece.order.zip piece.offsets).filter (·.1 = place)).map (·.2)

/-- The lines on the melodies of a phrase. -/
def melodyLines (melodies : Quartet Word) : Word :=
  Voice.all.flatMap fun voice =>
    "    v".toList ++ Word.ofNat voice.index ++ ": ".toList ++ melodies.get voice ++ ['\n']

/-- The lines on the phrase at a place. -/
def phraseLines (piece : Piece) (place : Nat) (phrase : Phrase) : Word :=
  ['['] ++ Text.quoted '\x27' [phrase.symbol] ++ "] ".toList ++ Word.ofNat phrase.bars.toNat
    ++ " bar(s) at ticks ".toList
    ++ Word.join ", ".toList ((piece.startsOf place).map (Word.ofNat ·.toNat))
    ++ ": ".toList ++ Word.join [' '] (phrase.chords.map (·.name)) ++ ['\n']
    ++ melodyLines phrase.melodies

/-- The overview. -/
def summary (piece : Piece) : Except Failure Word := do
  let bars ← piece.totalBars
  let degrees := piece.cadenceDegrees.toList.map (Word.ofInt ·.toInt)
  pure <|
    piece.tonic.name ++ [' '] ++ piece.scale.name ++ ": ".toList
      ++ Word.ofNat piece.phrases.length ++ " phrase(s) played as ".toList
      ++ Text.quoted '"' piece.symbols ++ ", ".toList ++ Word.ofNat bars.toNat
      ++ " bars + final chord\n".toList
      ++ (piece.phrases.mapIdx piece.phraseLines).flatten
      ++ "final ".toList ++ piece.cadence.name ++ " at tick ".toList
      ++ Word.ofNat piece.cadenceTick.toNat ++ ", degrees [".toList
      ++ Word.join ", ".toList degrees ++ "]\n".toList

end Chorale.Piece
