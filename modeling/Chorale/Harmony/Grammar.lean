import Chorale.Harmony.Token
import Chorale.Rewriting.System
import Chorale.Scale

/-!
# The harmony grammar of a scale

The words of the grammar are made of chord tokens. A rule fits the letter of a token, with the
token's digits as left context, and puts another token behind it: from each chord the grammar moves
to those that the scale scores at least 1, a better move being more likely. So every step doubles
the number of chords and keeps those that were there.
-/

namespace Chorale.Harmony

/-- The digits of the triad on a degree. -/
def degreeDigits (degree : Fin 12) : Word := twoDigits (degree.val + 1)

/-- The token of the scale's triad on a degree. -/
def degreeToken (scale : Scale) (degree : Fin 12) : Word :=
  degreeDigits degree ++ [(scale.triad degree).letter]

/-- The rule for a move between two degrees, if the scale scores it at least 1. -/
def moveRule? (scale : Scale) (source target : Fin 12) : Option Rule :=
  let score := scale.score source target
  let letter := (scale.triad source).letter
  if 1 ≤ score then
    some ⟨degreeDigits source, letter, [], UInt32.ofNat score.toNat,
      letter :: degreeToken scale target⟩
  else none

/-- The moves of a scale, by their first degree and then by their second. -/
def rules (scale : Scale) : List Rule :=
  (List.finRange 12).flatMap fun source => (List.finRange 12).filterMap (moveRule? scale source)

/-- The chord that a progression starts with. -/
def start (scale : Scale) : Word := degreeToken scale 0

/-- The grammar of a scale. -/
structure Grammar where
  system : RewriteSystem

/-- The grammar of a scale, at rest. -/
def Grammar.ofScale (scale : Scale) : Grammar :=
  ⟨RewriteSystem.make (start scale) (rules scale) true⟩

end Chorale.Harmony
