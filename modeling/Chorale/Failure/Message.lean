import Chorale.Failure
import Chorale.Text.Quoted

/-!
# The wording of failures

`Failure.message` says in a sentence why an operation has no answer.
-/

namespace Chorale

/-- What is wrong with the settings, in words. -/
def Defect.message : Defect → Word
  | .resolution => "ticks_per_quarter must be positive".toList
  | .quarters count =>
    "quarters_per_bar must be even and at least 2, got ".toList ++ Word.ofNat count.toNat
  | .barTicks ticks =>
    "bar length of ".toList ++ Word.ofNat ticks.toNat
      ++ " ticks must be a power of two so durations halve cleanly".toList
  | .phraseBars least greatest =>
    "phrase bars range ".toList ++ Word.ofNat least.toNat ++ "..=".toList
      ++ Word.ofNat greatest.toNat ++ " is empty or starts at zero".toList
  | .growthSteps least greatest =>
    "melody iterations range ".toList ++ Word.ofNat least.toNat ++ "..=".toList
      ++ Word.ofNat greatest.toNat ++ " is empty".toList
  | .octaves lowest highest =>
    "voice octaves ".toList ++ Word.ofInt lowest.toInt ++ "..=".toList
      ++ Word.ofInt highest.toInt ++ " fall outside the MIDI range".toList
  | .velocity value =>
    "velocity ".toList ++ Word.ofNat value.toNat ++ " must be within 1..=127".toList
  | .tempo => "tempo_bpm must be positive".toList

/-- Why an operation has no answer, in words. -/
def Failure.message : Failure → Word
  | .overflow => "an integer left the range of its type".toList
  | .divisionByZero => "attempt to divide by zero".toList
  | .emptyRange => "range_u64: low must be less than high".toList
  | .emptyInclusiveRange => "range_usize_inclusive: low must be <= high".toList
  | .endlessRejection => "the generator gives no acceptable word".toList
  | .tooLong => "capacity overflow".toList
  | .weightlessRule => "rule weight must be positive".toList
  | .degreeOutOfScale degree =>
    "index out of bounds: the len is 12 but the index is ".toList ++ Word.ofNat degree
  | .unbalanced melody =>
    "unbalanced ']' in melodic string ".toList ++ Text.quoted '"' melody
  | .pastChords melody count =>
    "melody ".toList ++ Text.quoted '"' melody ++ " runs past its ".toList ++ Word.ofNat count
      ++ " chords".toList
  | .unknownPitch name =>
    "unknown pitch name '".toList ++ name
      ++ "' (expected e.g. C, CSHARP, C#, DFLAT, Db)".toList
  | .unknownScale name =>
    "unknown scale '".toList ++ name ++ "' (expected MAJOR or MINOR)".toList
  | .unreadable => "the settings cannot be read".toList
  | .unparsable => "the settings cannot be parsed".toList
  | .settings defect => "invalid configuration: ".toList ++ defect.message
  | .stalled produced required =>
    "harmony grammar stalled at ".toList ++ Word.ofNat produced ++ " of ".toList
      ++ Word.ofNat required ++ " characters: no rewrite fits the remaining space".toList
  | .malformedToken position token =>
    "malformed chord token '".toList ++ token ++ "' at character ".toList ++ Word.ofNat position
  | .emptyForm => "structure string is empty".toList
  | .resolution ticks =>
    "sequence resolution ".toList ++ Word.ofNat ticks.toNat
      ++ " ticks per quarter does not fit a MIDI header".toList
  | .tempo perMinute =>
    "tempo of ".toList ++ Word.ofNat perMinute.toNat
      ++ " bpm cannot be encoded as a MIDI tempo".toList
  | .delta ticks =>
    "event delta ".toList ++ Word.ofNat ticks.toNat
      ++ " exceeds the MIDI variable-length limit".toList
  | .unwritable => "the file cannot be written".toList

end Chorale
