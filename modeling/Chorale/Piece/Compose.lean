import Chorale.Form
import Chorale.Harmony.Progression
import Chorale.Melody.Grammar
import Chorale.Melody.Performance
import Chorale.Piece

/-!
# Composing

`compose` makes a piece in a key after a form. Everything that is left to chance is drawn in one
order: the lengths of the phrases, the progression that is dealt out to them, the melodies of each
phrase from the bass up, and last the tones of the closing chord. A phrase is composed once,
however often the form has it.
-/

namespace Chorale

/-! ## Phrases -/

/-- The next melody of a grammar. -/
def composeMelody (settings : Settings) (grammar : Melody.Grammar) :
    Draw (Word × Melody.Grammar) := do
  let steps ← Draw.inclusiveRange settings.minGrowth.toUInt64 settings.maxGrowth.toUInt64
  grammar.generate steps.toNat

/-- The melodies of a phrase. -/
def composeMelodies (settings : Settings) (bars barTicks : UInt32) : Draw (Quartet Word) := do
  let grammar := Melody.Grammar.ofBars bars barTicks
  let (bass, grammar) ← composeMelody settings grammar
  let (tenor, grammar) ← composeMelody settings grammar
  let (alto, grammar) ← composeMelody settings grammar
  let (soprano, _) ← composeMelody settings grammar
  pure ⟨bass, tenor, alto, soprano⟩

/-- The length of a phrase in bars. -/
def composeLength (settings : Settings) : Draw UInt32 := do
  let bars ← Draw.inclusiveRange settings.minPhraseBars.toUInt64 settings.maxPhraseBars.toUInt64
  pure bars.toUInt32

/-- The phrases with the given letters and lengths, to which the chords are dealt out. -/
def composePhrases (settings : Settings) (barTicks : UInt32) :
    List (Char × UInt32) → List Chord → Draw (List Phrase)
  | [], _ => pure []
  | (symbol, bars) :: later, chords => do
    let count := bars.toNat * settings.quartersPerBar.toNat
    let melodies ← composeMelodies settings bars barTicks
    let phrases ← composePhrases settings barTicks later (chords.drop count)
    pure (⟨symbol, bars, chords.take count, melodies⟩ :: phrases)

/-! ## Playing -/

/-- What has been played: when the phrases began, when the last one ended, and the tracks. -/
structure Played where
  offsets : List UInt32
  finish : UInt32
  tracks : Quartet Track

/-- The tracks with a phrase that begins at a point in time. -/
def playPhrase (settings : Settings) (octaves : Quartet Int32) (phrase : Phrase)
    (offset : UInt32) (tracks : Quartet Track) : Except Failure (Quartet Track) :=
  Quartet.collect fun voice => do
    let part ← Melody.Part.ofSettings settings phrase.chords (octaves.get voice) offset
    let (_, track) ← Melody.perform part (phrase.melodies.get voice) (tracks.get voice)
    pure track

/-- The tracks with phrases that follow each other from a point in time on. -/
def play (settings : Settings) (octaves : Quartet Int32) (barTicks : UInt32) :
    List Phrase → UInt32 → Quartet Track → Except Failure Played
  | [], offset, tracks => .ok ⟨[], offset, tracks⟩
  | phrase :: later, offset, tracks => do
    let tracks ← playPhrase settings octaves phrase offset tracks
    let length ← Checked.mul phrase.bars barTicks
    let next ← Checked.add offset length
    let played ← play settings octaves barTicks later next tracks
    pure { played with offsets := offset :: played.offsets }

/-- A voice's degree in the closing chord, and its track with that tone held for two bars. -/
def closeVoice (settings : Settings) (barTicks : UInt32) (cadence : Chord) (octave : Int32)
    (offset : UInt32) (track : Track) : Draw (Int32 × Track) := do
  let tone ← Draw.range 0 3
  let degree := Int32.ofNat tone.toNat
  let length ← Checked.mul barTicks 2
  let key ← cadence.keyAt degree octave
  let track ← track.addNote offset length key settings.velocity
  pure (degree, track)

/-! ## The piece -/

/-- Composes a piece in the key of `tonic` and `scale` after the form that `form` stands for. -/
def compose (tonic : PitchClass) (scale : Scale) (form : Word) (settings : Settings) :
    Draw Piece := do
  settings.check
  let form ← Form.ofWord form
  let octaves ← Voice.octaves settings.minOctave
  let barTicks ← settings.barTicks
  let lengths ← form.symbols.mapM fun _ => composeLength settings
  let totalBars ← Checked.sum 0 lengths
  let quarters ← Checked.mul totalBars.toUInt64 settings.quartersPerBar.toUInt64
  let required ← Harmony.requiredLength quarters
  let (outcome, _) ← (Harmony.Grammar.ofScale scale).progression required
  let harmony ← outcome
  let chords ← Harmony.decode tonic harmony
  let phrases ← composePhrases settings barTicks (form.symbols.zip lengths) chords
  let played ← play settings octaves barTicks (form.order.filterMap (phrases[·]?)) 0 (.all .empty)
  let cadence : Chord := ⟨tonic, scale.tonicQuality⟩
  let closing ← Quartet.collect fun voice =>
    closeVoice settings barTicks cadence (octaves.get voice) played.finish
      (played.tracks.get voice)
  pure {
    tonic, scale, phrases, order := form.order, offsets := played.offsets, harmony, cadence
    cadenceDegrees := closing.map (·.1)
    cadenceTick := played.finish
    sequence := ⟨settings.ticksPerQuarter, (closing.map (·.2)).toList⟩ }

end Chorale
