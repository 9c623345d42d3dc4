import Chorale.Archive.Layout
import Chorale.Rewriting.Rule
import Chorale.Rng
import Chorale.Scale
import Chorale.Settings
import Chorale.Track

/-!
# Archived values

Chords, rules, sequences, settings and generators can be kept as JSON: `toJson` gives the kept form
and `ofJson?` reads it again. Only settings may leave out fields, which then have their default
values.
-/

namespace Chorale

/-! ## Chords and scales -/

namespace PitchClass

/-- The names under which pitch classes are kept, from C up. -/
def archiveNames : Vector Word 12 :=
  #v["C".toList, "CSharp".toList, "D".toList, "DSharp".toList, "E".toList, "F".toList,
    "FSharp".toList, "G".toList, "GSharp".toList, "A".toList, "ASharp".toList, "B".toList]

def toJson (p : PitchClass) : Json := .string (archiveNames.get p.semitones)

def ofJson? (json : Json) : Option PitchClass := do
  let name ← json.choice?
  let semitones ← (List.finRange 12).find? fun i => archiveNames.get i = name
  pure ⟨semitones⟩

end PitchClass

namespace Quality

def toJson : Quality → Json
  | .major => .string "Major".toList
  | .minor => .string "Minor".toList

def ofJson? (json : Json) : Option Quality := do
  let name ← json.choice?
  if name = "Major".toList then some .major
  else if name = "Minor".toList then some .minor
  else none

end Quality

namespace Scale

def toJson : Scale → Json
  | .major => .string "Major".toList
  | .minor => .string "Minor".toList

def ofJson? (json : Json) : Option Scale := do
  let name ← json.choice?
  if name = "Major".toList then some .major
  else if name = "Minor".toList then some .minor
  else none

end Scale

namespace Chord

def toJson (chord : Chord) : Json :=
  .ofRecord [("root", chord.root.toJson), ("triad", chord.quality.toJson)]

def ofJson? (json : Json) : Option Chord := do
  match ← json.record? ["root", "triad"] with
  | [root, quality] => pure ⟨← PitchClass.ofJson? root, ← Quality.ofJson? quality⟩
  | _ => none

end Chord

/-! ## Rules -/

namespace Rule

def toJson (rule : Rule) : Json :=
  .ofRecord [
    ("predecessor", .ofRecord [("left", .string rule.left), ("letter", .string [rule.letter]),
      ("right", .string rule.right), ("weight", .ofFixed rule.weight)]),
    ("successor", .string rule.successor)]

def ofJson? (json : Json) : Option Rule := do
  match ← json.record? ["predecessor", "successor"] with
  | [predecessor, successor] =>
    match ← predecessor.record? ["left", "letter", "right", "weight"] with
    | [left, letter, right, weight] =>
      pure ⟨← left.text?, ← letter.char?, ← right.text?, ← weight.fixed?, ← successor.text?⟩
    | _ => none
  | _ => none

end Rule

/-! ## Sequences -/

namespace EventKind

def toJson : EventKind → Json
  | .on => .string "On".toList
  | .off => .string "Off".toList

def ofJson? (json : Json) : Option EventKind := do
  let name ← json.choice?
  if name = "On".toList then some .on
  else if name = "Off".toList then some .off
  else none

end EventKind

namespace NoteEvent

def toJson (event : NoteEvent) : Json :=
  .ofRecord [("tick", .ofFixed event.tick), ("kind", event.kind.toJson),
    ("key", .ofFixed event.key), ("velocity", .ofFixed event.velocity)]

def ofJson? (json : Json) : Option NoteEvent := do
  match ← json.record? ["tick", "kind", "key", "velocity"] with
  | [tick, kind, key, velocity] =>
    pure ⟨← tick.fixed?, ← EventKind.ofJson? kind, ← key.fixed?, ← velocity.fixed?⟩
  | _ => none

end NoteEvent

namespace Track

def toJson (track : Track) : Json :=
  .ofRecord [("events", .array (track.events.toList.map NoteEvent.toJson))]

def ofJson? (json : Json) : Option Track := do
  match ← json.record? ["events"] with
  | [events] => pure ⟨(← events.list? NoteEvent.ofJson?).toArray⟩
  | _ => none

end Track

namespace Sequence

def toJson (sequence : Sequence) : Json :=
  .ofRecord [("ticks_per_quarter", .ofFixed sequence.ticksPerQuarter),
    ("tracks", .array (sequence.tracks.map Track.toJson))]

def ofJson? (json : Json) : Option Sequence := do
  match ← json.record? ["ticks_per_quarter", "tracks"] with
  | [ticksPerQuarter, tracks] =>
    pure ⟨← ticksPerQuarter.fixed?, ← tracks.list? Track.ofJson?⟩
  | _ => none

end Sequence

/-! ## Settings -/

namespace Settings

/-- The names of the settings, in order. -/
def names : List String :=
  ["ticks_per_quarter", "quarters_per_bar", "min_phrase_bars", "max_phrase_bars",
    "min_melody_iterations", "max_melody_iterations", "min_octave", "velocity", "tempo_bpm"]

def toJson (settings : Settings) : Json :=
  .ofRecord [
    ("ticks_per_quarter", .ofFixed settings.ticksPerQuarter),
    ("quarters_per_bar", .ofFixed settings.quartersPerBar),
    ("min_phrase_bars", .ofFixed settings.minPhraseBars),
    ("max_phrase_bars", .ofFixed settings.maxPhraseBars),
    ("min_melody_iterations", .ofFixed settings.minGrowth),
    ("max_melody_iterations", .ofFixed settings.maxGrowth),
    ("min_octave", .ofFixed settings.minOctave),
    ("velocity", .ofFixed settings.velocity),
    ("tempo_bpm", .ofFixed settings.tempo)]

/-- The number in a field, or the default value if the field is not there. -/
def numberOr? {α : Type} [FixedWidth α] (default : α) : Option Json → Option α
  | none => some default
  | some json => json.fixed?

def ofJson? (json : Json) : Option Settings := do
  match ← json.fields? names with
  | [ticksPerQuarter, quartersPerBar, minPhraseBars, maxPhraseBars, minGrowth, maxGrowth,
      minOctave, velocity, tempo] =>
    pure {
      ticksPerQuarter := ← numberOr? default.ticksPerQuarter ticksPerQuarter
      quartersPerBar := ← numberOr? default.quartersPerBar quartersPerBar
      minPhraseBars := ← numberOr? default.minPhraseBars minPhraseBars
      maxPhraseBars := ← numberOr? default.maxPhraseBars maxPhraseBars
      minGrowth := ← numberOr? default.minGrowth minGrowth
      maxGrowth := ← numberOr? default.maxGrowth maxGrowth
      minOctave := ← numberOr? default.minOctave minOctave
      velocity := ← numberOr? default.velocity velocity
      tempo := ← numberOr? default.tempo tempo }
  | _ => none

end Settings

/-! ## Generators -/

namespace Rng

def toJson (r : Rng) : Json := .ofRecord [("s", .array (r.words.map .ofFixed))]

def ofJson? (json : Json) : Option Rng := do
  match ← json.record? ["s"] with
  | [words] => ofWords? (← words.list? Json.fixed?)
  | _ => none

end Rng

end Chorale
