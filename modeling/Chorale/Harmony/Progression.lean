import Chorale.Harmony.Grammar

/-!
# Progressions

`Grammar.progression` grows a progression of a given length and closes it with two dominant chords.
It lays one *run* after another, each grown from the start of the grammar as long as it fits into
what is left; a run that cannot fit at all leaves the progression stalled, and one that would be
longer than any word is not begun.

* `closedLength_eq_ok_iff`: which progressions are begun, and how long they get.
-/

namespace Chorale.Harmony

/-- The chords that close a progression: twice the major triad on the fifth. -/
def cadence : Word := "08M08M".toList

/-- How many letters a progression of `quarters` chords has before its closing ones. -/
def requiredLength (quarters : UInt64) : Except Failure UInt64 :=
  Checked.ofInt ((quarters.toNat - 2) * 3 : Nat)

/-- The longest word of at most `room` letters that the system grows to step by step, or `best` if
its next word is no such word, together with the system after the first step too far. -/
def growRun (room : Nat) (best : Word) (system : RewriteSystem) : Draw (Word × RewriteSystem) := do
  let grown ← system.step
  if _ : best.length < grown.current.length ∧ grown.current.length ≤ room then
    growRun room grown.current grown
  else pure (best, grown)
termination_by room - best.length

/-- The progression completed to `required` letters and closed, if runs of the system fill it,
together with the system as it was left. -/
def fill (required : Nat) (laid : Word) (system : RewriteSystem) :
    Draw (Except Failure Word × RewriteSystem) :=
  if laid.length < required then do
    let (run, grown) ← growRun (required - laid.length) [] system.reset
    if _ : run = [] then pure (.error (.stalled laid.length required), grown)
    else fill required (laid ++ run) grown
  else pure (.ok (laid ++ cadence), system)
termination_by required - laid.length
decreasing_by
  have := List.length_pos_iff.2 ‹run ≠ []›
  simp only [List.length_append]
  omega

/-- The greatest length of a word: half of what a memory of 64-bit addresses has room for. -/
def greatestLength : UInt64 := 0x7fffffffffffffff

/-- How many letters a progression of `required` letters has with its closing ones, unless they are
too many for a word. -/
def closedLength (required : UInt64) : Except Failure UInt64 := do
  let length ← Checked.add required 6
  if length ≤ greatestLength then pure length else throw .tooLong

theorem closedLength_eq_ok_iff {required length : UInt64} :
    closedLength required = .ok length ↔
      length.toNat = required.toNat + 6 ∧ length ≤ greatestLength := by
  have hsum {n : UInt64} : Checked.add required 6 = .ok n ↔ n.toNat = required.toNat + 6 := by
    rw [Checked.add_eq_ok_iff, ← Int.natCast_inj, Int.natCast_add]
    rfl
  rw [← hsum, closedLength]
  cases Checked.add required 6 with
  | error failure => simp [bind, Except.bind]
  | ok n =>
    simp only [bind, Except.bind, Except.ok.injEq]
    split
    · rename_i hn
      exact ⟨fun h => by cases h; exact ⟨rfl, hn⟩, fun h => by rw [h.1]; rfl⟩
    · rename_i hn
      exact ⟨nofun, fun h => absurd (h.1 ▸ h.2) hn⟩

/-- A progression of `required` letters and its closing chords, together with the grammar as it was
left. -/
def Grammar.progression (grammar : Grammar) (required : UInt64) :
    Draw (Except Failure Word × Grammar) := do
  let _ ← closedLength required
  let (outcome, system) ← fill required.toNat [] grammar.system
  pure (outcome, ⟨system⟩)

end Chorale.Harmony
