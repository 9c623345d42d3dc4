import Chorale.Draw
import Chorale.Rewriting.Rule

/-!
# Rewriting systems

A system holds an ordered list of rules and a word that starts as the system's `start`. One pass
rewrites all letters of a word at once: at each site that some rule fits, one of the fitting rules
is drawn and its successor put in the letter's place; other letters stay. Draws are made from left
to right, and rules always look at the word that is being rewritten.
-/

namespace Chorale

/-- A list of rules with the word that they rewrite. -/
structure RewriteSystem where
  /-- The word of a system at rest. -/
  start : Word
  /-- The word that has been reached. -/
  current : Word
  rules : List Rule
  /-- Whether the contexts of rules count. -/
  contextual : Bool
  /-- How many steps led from `start` to `current`. -/
  steps : Nat

namespace RewriteSystem

/-- A system at rest. -/
def make (start : Word) (rules : List Rule) (contextual : Bool) : RewriteSystem :=
  ⟨start, start, rules, contextual, 0⟩

/-- Back to rest. -/
def reset (system : RewriteSystem) : RewriteSystem :=
  { system with current := system.start, steps := 0 }

/-- The given word as the result of one step. -/
def advanceTo (system : RewriteSystem) (next : Word) : RewriteSystem :=
  { system with current := next, steps := system.steps + 1 }

/-- The rules that fit a site, in the order of the system. -/
def candidates (system : RewriteSystem) (site : Site) : List Rule :=
  system.rules.filter (·.fits system.contextual site)

/-- What replaces the letter of a site: the successor of a fitting rule, drawn by weight, or the
letter if no rule fits. -/
def rewriteSite (system : RewriteSystem) (site : Site) : Draw Word := do
  let rules := system.candidates site
  let place ← Draw.weighted (rules.map (·.weight.toUInt64))
  match place.bind (rules[·]?) with
  | some rule => pure rule.successor
  | none => pure [site.letter]

/-- One pass over a word. -/
def rewrite (system : RewriteSystem) (w : Word) : Draw Word := do
  let pieces ← (Site.ofWord w).mapM system.rewriteSite
  pure pieces.flatten

/-- One pass over the system's own word. -/
def step (system : RewriteSystem) : Draw RewriteSystem := do
  let next ← system.rewrite system.current
  pure (system.advanceTo next)

end RewriteSystem

end Chorale
