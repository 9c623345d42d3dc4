import Chorale.Checked

/-!
# Tracks

A track is a list of events at points in time, counted in ticks. A note is two of them, one that
begins it and one that ends it, and a new event is put behind all that are not later.
-/

namespace Chorale

/-- Whether an event begins or ends a note. -/
inductive EventKind where
  | on
  | off
deriving DecidableEq

/-- The beginning or the end of a note. -/
structure NoteEvent where
  tick : UInt32
  kind : EventKind
  key : UInt8
  velocity : UInt8
deriving DecidableEq

/-- The events of one voice. -/
structure Track where
  events : Array NoteEvent
deriving DecidableEq

namespace Track

/-- A track without events. -/
def empty : Track := ⟨#[]⟩

/-- Where, among `size` places from `base` on, a property that holds up to some place stops to
hold. The places are halved until one is left. -/
def bisect (holds : Nat → Bool) (base size : Nat) : Nat :=
  if size ≤ 1 then
    if size = 1 ∧ holds base then base + 1 else base
  else
    let half := size / 2
    if holds (base + half) then bisect holds (base + half) (size - half)
    else bisect holds base (size - half)
termination_by size

theorem le_bisect (holds : Nat → Bool) (base size : Nat) : base ≤ bisect holds base size := by
  fun_induction bisect holds base size <;> omega

theorem bisect_le (holds : Nat → Bool) (base size : Nat) :
    bisect holds base size ≤ base + size := by
  fun_induction bisect holds base size <;> omega

/-- The track with an event put behind all that are not later. -/
def insert (track : Track) (event : NoteEvent) : Track :=
  let notLater (place : Nat) : Bool := (track.events[place]?).any (·.tick ≤ event.tick)
  ⟨track.events.insertIdxIfInBounds (bisect notLater 0 track.events.size) event⟩

/-- The track with a note of the given duration. -/
def addNote (track : Track) (start duration : UInt32) (key velocity : UInt8) :
    Except Failure Track := do
  let begun := track.insert ⟨start, .on, key, velocity⟩
  let finish ← Checked.add start duration
  pure (begun.insert ⟨finish, .off, key, velocity⟩)

/-- How many notes begin. -/
def noteCount (track : Track) : Nat := track.events.countP (·.kind = .on)

/-- The tick of the last event. -/
def endTick (track : Track) : UInt32 := (track.events.back?).elim 0 (·.tick)

/-- Whether no event is earlier than the one before it. -/
def isOrdered (track : Track) : Bool :=
  let events := track.events.toList
  (events.zip events.tail).all fun pair => pair.1.tick ≤ pair.2.tick

end Track

/-- Tracks that are played together. -/
structure Sequence where
  ticksPerQuarter : UInt32
  tracks : List Track
deriving DecidableEq

namespace Sequence

/-- Empty tracks to be played together. -/
def ofCount (ticksPerQuarter : UInt32) (count : Nat) : Sequence :=
  ⟨ticksPerQuarter, List.replicate count .empty⟩

/-- The sequence with one more track, which is empty. -/
def addTrack (sequence : Sequence) : Sequence :=
  { sequence with tracks := sequence.tracks ++ [.empty] }

/-- The sequence with a note added to the track at an index, if there is one. -/
def addNote? (sequence : Sequence) (index : Nat) (start duration : UInt32) (key velocity : UInt8) :
    Option (Except Failure Sequence) := do
  let track ← sequence.tracks[index]?
  pure do
    let track ← track.addNote start duration key velocity
    pure { sequence with tracks := sequence.tracks.set index track }

/-- The tick of the last event in any track. -/
def endTick (sequence : Sequence) : UInt32 := (sequence.tracks.map (·.endTick)).foldl max 0

end Sequence

end Chorale
