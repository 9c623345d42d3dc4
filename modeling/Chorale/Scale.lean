import Chorale.Chord

/-!
# Scales

A scale gives two things for each of the twelve degrees above its tonic: how consonant the interval
is, and whether the triad on it is major or minor. `Scale.score` combines them into the merit of
moving from one degree to another.
-/

namespace Chorale

/-- A major or minor key, apart from its tonic. -/
inductive Scale where
  | major
  | minor
deriving DecidableEq

namespace Scale

/-- How consonant each interval above the tonic is; dissonant ones are negative. -/
def consonances : Scale → Vector Int 12
  | .major => #v[4, -3, 1, -3, 1, 2, -3, 4, -3, 1, 1, -3]
  | .minor => #v[4, -3, 1, 2, -3, 2, -3, 4, 1, -3, 2, -3]

/-- The triad on each degree. -/
def triads : Scale → Vector Quality 12
  | .major => #v[.major, .minor, .minor, .major, .minor, .major, .minor, .major, .minor, .minor,
      .major, .minor]
  | .minor => #v[.minor, .major, .major, .major, .minor, .minor, .major, .minor, .major, .minor,
      .major, .minor]

/-- How consonant an interval above the tonic is. -/
def consonance (scale : Scale) (interval : Fin 12) : Int := scale.consonances.get interval

/-- The quality of the triad on a degree. -/
def triad (scale : Scale) (degree : Fin 12) : Quality := scale.triads.get degree

/-- The scale that tells how consonant the moves away from a chord are. -/
def ofQuality : Quality → Scale
  | .major => .major
  | .minor => .minor

/-- The quality of the closing chord. -/
def tonicQuality : Scale → Quality
  | .major => .major
  | .minor => .minor

/-- The merit of moving from the chord on `source` to the chord on `target`: how consonant the move
is for the first chord, and the second degree for the scale. -/
def score (scale : Scale) (source target : Fin 12) : Int :=
  (ofQuality (scale.triad source)).consonance (target - source) + scale.consonance target

/-- The merit of a move between degrees that may lie outside the scale. -/
def scoreAt (scale : Scale) (source target : UInt64) : Except Failure Int := do
  let octaveUp ← Checked.add target 12
  let _ ← Checked.sub octaveUp source
  if hs : source.toNat < 12 then
    if ht : target.toNat < 12 then
      pure (scale.score ⟨source.toNat, hs⟩ ⟨target.toNat, ht⟩)
    else throw (.degreeOutOfScale target.toNat)
  else throw (.degreeOutOfScale source.toNat)

/-! ## Names -/

/-- The name in capital letters. -/
def name : Scale → Word
  | .major => "MAJOR".toList
  | .minor => "MINOR".toList

/-- The scale that a name stands for, in capital or small letters. -/
def ofName (name : Word) : Except Failure Scale :=
  let capitals := Text.capitalize (Text.trim name)
  if capitals = Scale.major.name then .ok .major
  else if capitals = Scale.minor.name then .ok .minor
  else .error (.unknownScale name)

end Scale

end Chorale
