import Chorale.Midi.Quantity
import Chorale.Quartet
import Chorale.Track

/-!
# MIDI files

`encode` writes a sequence as a Standard MIDI File of format 1: a track with the tempo, then the
tracks of the sequence, of which the first four bear the names of the voices. Times are differences
between events, and the status byte of a note event is left out where it repeats the one before.
-/

namespace Chorale.Midi

/-! ## Events -/

/-- The bytes of a word in ASCII. -/
def ascii (word : Word) : Bytes := word.map fun c => UInt8.ofNat c.toNat

/-- A meta event at the time of the event before it. -/
def metaEvent (kind : UInt8) (contents : Bytes) : Bytes :=
  [0, 0xff, kind] ++ quantity contents.length ++ contents

/-- The event that ends a track. -/
def endOfTrack : Bytes := metaEvent 0x2f []

/-- The event that sets the microseconds in a quarter note. -/
def setTempo (microseconds : Nat) : Bytes := metaEvent 0x51 (bigEndian 3 microseconds)

/-- The event that names a track. -/
def trackName (name : Word) : Bytes := metaEvent 0x03 (ascii name)

/-- The status byte of a note event, on the first channel. -/
def status : EventKind → UInt8
  | .on => 0x90
  | .off => 0x80

/-- The longest time between two events. -/
def maxDelta : Nat := 0x0fffffff

/-- The time since the tick of the event before, which a file can say only up to `maxDelta`. -/
def delta (last tick : UInt32) : Except Failure Nat := do
  let ticks ← Checked.sub tick last
  if ticks.toNat ≤ maxDelta then pure ticks.toNat else throw (.delta ticks)

/-- The note events of a track after the given tick and status byte, and the event that ends it. -/
def noteEvents (last : UInt32) (running : Option UInt8) : List NoteEvent → Except Failure Bytes
  | [] => .ok endOfTrack
  | event :: later => do
    let ticks ← delta last event.tick
    let later ← noteEvents event.tick (some (status event.kind)) later
    let statusByte := if running = some (status event.kind) then [] else [status event.kind]
    pure (quantity ticks ++ statusByte ++ [event.key &&& 0x7f, event.velocity &&& 0x7f] ++ later)

/-! ## Chunks -/

/-- A chunk of a file: its tag, its size and its contents. -/
def chunk (tag : String) (contents : Bytes) : Bytes :=
  ascii tag.toList ++ bigEndian 4 contents.length ++ contents

/-- The chunk that opens a file of `tracks` tracks. -/
def header (tracks ticksPerQuarter : Nat) : Bytes :=
  chunk "MThd" (bigEndian 2 1 ++ bigEndian 2 tracks ++ bigEndian 2 ticksPerQuarter)

/-- The contents of the chunk of a track that may have a name. -/
def trackContents (name : Option Word) (track : Track) : Except Failure Bytes := do
  let notes ← noteEvents 0 none track.events.toList
  pure (name.elim [] trackName ++ notes)

/-- The contents of the chunks of tracks, as long as there are names for them with their names. -/
def allContents : List Word → List Track → Except Failure (List Bytes)
  | _, [] => .ok []
  | names, track :: tracks => do
    let first ← trackContents names.head? track
    let others ← allContents names.tail tracks
    pure (first :: others)

/-! ## Files -/

/-- The ticks in a quarter note, which a file can say from 1 to 32767. -/
def resolution (ticksPerQuarter : UInt32) : Except Failure Nat :=
  if 0 < ticksPerQuarter.toNat ∧ ticksPerQuarter.toNat < 0x8000 then .ok ticksPerQuarter.toNat
  else .error (.resolution ticksPerQuarter)

/-- The microseconds in a quarter note, which a file can say below 2^24. -/
def tempo (perMinute : UInt32) : Except Failure Nat :=
  let microseconds := 60000000 / perMinute.toNat
  if perMinute ≠ 0 ∧ microseconds < 0x1000000 then .ok microseconds else .error (.tempo perMinute)

/-- The most tracks of a file. -/
def maxTracks : Nat := 0xffff

/-- The longest contents of a chunk. -/
def maxContents : Nat := 0xffffffff

/-- The MIDI file of a sequence. -/
def encode (sequence : Sequence) (perMinute : UInt32) : Except Failure Bytes := do
  let resolution ← resolution sequence.ticksPerQuarter
  let microseconds ← tempo perMinute
  let tracks ← allContents (Voice.all.map (·.name)) sequence.tracks
  let count := sequence.tracks.length + 1
  if count ≤ maxTracks ∧ ∀ contents ∈ tracks, contents.length ≤ maxContents then
    let tempoTrack := chunk "MTrk" (setTempo microseconds ++ endOfTrack)
    pure (header count resolution ++ tempoTrack ++ tracks.flatMap (chunk "MTrk"))
  else throw .unwritable

end Chorale.Midi
