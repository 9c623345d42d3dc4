import Chorale.Melody.Command
import Chorale.Rewriting.System

/-!
# The melody grammar

A melody grows from one note for each bar. In each step a note mostly stays as it is and sometimes
is divided into two; a note after a step up or down may take that step further. What replaces a note
always lasts as long as the note. A rewriting that is not playable is thrown away and made anew, up
to `maxAttempts` times, and if none is playable the melody stays as it is for that step.
-/

namespace Chorale.Melody

/-- The rules for a note with the given context before it, all with weight one. -/
def divisions (left : Word) (successors : List String) : List Rule :=
  successors.map fun successor => ⟨left, 'F', [], 1, successor.toList⟩

/-- The rules of the melody grammar. -/
def rules : List Rule :=
  ⟨[], 'F', [], 26, ['F']⟩
    :: divisions [] ["dFFD", "[dFF]", "d-F+FD", "[d-F+F]", "d+F-FD", "[d+F-F]"]
    ++ divisions ['F'] ["d+F-FD", "[d+F-F]", "d-F+FD", "[d-F+F]"]
    ++ divisions ['F', '+'] ["d+F-FD", "[d+F-F]-", "d++F--FD", "[d++F--F]-", "d--F++FD",
      "[d--F++F]-", "d---F+++FD", "[d---F+++F]-"]
    ++ divisions ['F', '-'] ["d++F-FD", "[d++F-F]+", "d+++F--FD", "[d+++F--F]+", "d-F++FD",
      "[d-F++F]+", "d--F+++FD", "[d--F+++F]+"]

/-- One note for each bar. -/
def start (bars : UInt32) : Word := List.replicate bars.toNat 'F'

/-- The rewritings tried in one step: those thrown away, in order, and the one kept. -/
structure Attempts where
  rejected : List Word
  accepted : Option Word

/-- Rewritings of one word, at most `limit` of them, up to the first that is accepted. -/
def attempt (system : RewriteSystem) (source : Word) (accept : Word → Except Failure Bool) :
    Nat → Draw Attempts
  | 0 => pure ⟨[], none⟩
  | limit + 1 => do
    let candidate ← system.rewrite source
    let accepted ← accept candidate
    if accepted then pure ⟨[], some candidate⟩
    else
      let later ← attempt system source accept limit
      pure ⟨candidate :: later.rejected, later.accepted⟩

/-- How many rewritings are tried in one step. -/
def maxAttempts : Nat := 20

/-- The grammar of melodies over bars of a given number of ticks. -/
structure Grammar where
  system : RewriteSystem
  barTicks : UInt32

namespace Grammar

/-- The grammar that starts from any word. -/
def ofWord (word : Word) (barTicks : UInt32) : Grammar :=
  ⟨RewriteSystem.make word rules true, barTicks⟩

/-- The grammar of melodies of `bars` bars. -/
def ofBars (bars barTicks : UInt32) : Grammar := ofWord (start bars) barTicks

/-- The grammar at rest. -/
def reset (grammar : Grammar) : Grammar := { grammar with system := grammar.system.reset }

/-- One step: the first playable rewriting, or else the same word again. -/
def step (grammar : Grammar) : Draw Grammar := do
  let source := grammar.system.current
  let attempts ← attempt grammar.system source (isPlayable grammar.barTicks) maxAttempts
  pure { grammar with system := grammar.system.advanceTo (attempts.accepted.getD source) }

/-- Several steps. -/
def stepTimes (grammar : Grammar) : Nat → Draw Grammar
  | 0 => pure grammar
  | count + 1 => do
    let grown ← grammar.step
    grown.stepTimes count

/-- The melody after `count` steps from rest, together with the grammar as it was left. -/
def generate (grammar : Grammar) (count : Nat) : Draw (Word × Grammar) := do
  let grown ← grammar.reset.stepTimes count
  pure (grown.system.current, grown)

end Grammar

end Chorale.Melody
