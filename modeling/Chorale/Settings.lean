import Chorale.Chord
import Chorale.PowerOfTwo

/-!
# Settings

The numbers that a composition depends on, apart from its key and form. `Settings.check` refuses
those that cannot be composed with: bars must have an even number of quarter notes (chords come in
pairs) and a power of two of ticks (so that they halve exactly), no range may be empty, and all
voices must lie on the keyboard.
-/

namespace Chorale

/-- The settings of a composition. -/
structure Settings where
  /-- Ticks in a quarter note. -/
  ticksPerQuarter : UInt32
  /-- Quarter notes in a bar. -/
  quartersPerBar : UInt32
  /-- The shortest phrase, in bars. -/
  minPhraseBars : UInt32
  /-- The longest phrase, in bars. -/
  maxPhraseBars : UInt32
  /-- The fewest steps that a melody grows by. -/
  minGrowth : UInt32
  /-- The most steps that a melody grows by. -/
  maxGrowth : UInt32
  /-- The octave of the lowest voice. -/
  minOctave : Int32
  /-- How hard every note is struck. -/
  velocity : UInt8
  /-- Quarter notes in a minute. -/
  tempo : UInt32
deriving DecidableEq

namespace Settings

/-- Bars of four quarter notes, phrases of up to four bars, and voices from octave 3 up. -/
def default : Settings where
  ticksPerQuarter := 8
  quartersPerBar := 4
  minPhraseBars := 1
  maxPhraseBars := 4
  minGrowth := 2
  maxGrowth := 7
  minOctave := 3
  velocity := 64
  tempo := 120

/-- Ticks in a bar. -/
def barTicks (settings : Settings) : Except Failure UInt32 :=
  Checked.mul settings.ticksPerQuarter settings.quartersPerBar

/-- Refuses settings with a defect unless a condition holds. -/
def require (condition : Prop) [Decidable condition] (defect : Defect) : Except Failure Unit :=
  if condition then .ok () else .error (.settings defect)

/-- Refuses settings that cannot be composed with. -/
def check (settings : Settings) : Except Failure Unit := do
  require (settings.ticksPerQuarter ≠ 0) .resolution
  require (2 ≤ settings.quartersPerBar ∧ settings.quartersPerBar % 2 = 0)
    (.quarters settings.quartersPerBar)
  let barTicks ← settings.barTicks
  require (isPowerOfTwo barTicks.toNat) (.barTicks barTicks)
  require (settings.minPhraseBars ≠ 0 ∧ settings.minPhraseBars ≤ settings.maxPhraseBars)
    (.phraseBars settings.minPhraseBars settings.maxPhraseBars)
  require (settings.minGrowth ≤ settings.maxGrowth)
    (.growthSteps settings.minGrowth settings.maxGrowth)
  let aboveTop ← Checked.add settings.minOctave 4
  let top ← Checked.sub aboveTop 1
  require (0 ≤ settings.minOctave) (.octaves settings.minOctave top)
  let topKey ← Checked.mul top 12
  require (topKey.toInt ≤ Chord.highestKey) (.octaves settings.minOctave top)
  require (settings.velocity ≠ 0 ∧ settings.velocity ≤ 127) (.velocity settings.velocity)
  require (settings.tempo ≠ 0) .tempo

theorem require_eq_ok_iff {condition : Prop} [Decidable condition] {defect : Defect} :
    require condition defect = .ok () ↔ condition := by
  rw [require]
  split <;> simp_all

end Settings

end Chorale
