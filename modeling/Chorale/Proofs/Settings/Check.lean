import Chorale.Proofs.Draw.WP
import Chorale.Settings

/-!
# Settings that pass

What `Settings.check` asks for, as one statement about numbers (`check_eq_ok_iff`): settings that
pass have a number of ticks in a bar, which is a power of two, an even number of quarter notes in a
bar, and no empty range to draw from.
-/

namespace Chorale

namespace Settings

/-- The settings can be composed with, and a bar has so many ticks. -/
structure Valid (settings : Settings) (barTicks : UInt32) : Prop where
  resolution : settings.ticksPerQuarter ≠ 0
  quarters : 2 ≤ settings.quartersPerBar ∧ settings.quartersPerBar % 2 = 0
  barTicks_eq : settings.barTicks = .ok barTicks
  power : isPowerOfTwo barTicks.toNat = true
  phraseBars : settings.minPhraseBars ≠ 0 ∧ settings.minPhraseBars ≤ settings.maxPhraseBars
  growth : settings.minGrowth ≤ settings.maxGrowth
  octaves : 0 ≤ settings.minOctave.toInt ∧ (settings.minOctave.toInt + 3) * 12 ≤ Chord.highestKey
  velocity : settings.velocity ≠ 0 ∧ settings.velocity ≤ 127
  tempo : settings.tempo ≠ 0

theorem require_eq_ok_unit_iff {condition : Prop} [Decidable condition] {defect : Defect} {u : Unit} :
    require condition defect = .ok u ↔ condition := require_eq_ok_iff

/-- The octave of the highest voice, and its lowest key. -/
theorem exists_top_iff (lowest : Int32) :
    (∃ above, Checked.add lowest 4 = .ok above ∧ ∃ top, Checked.sub above 1 = .ok top ∧
      0 ≤ lowest ∧ ∃ key, Checked.mul top 12 = .ok key ∧ key.toInt ≤ Chord.highestKey) ↔
      0 ≤ lowest.toInt ∧ (lowest.toInt + 3) * 12 ≤ Chord.highestKey := by
  have hlow : 0 ≤ lowest ↔ 0 ≤ lowest.toInt := Int32.le_iff_toInt_le
  constructor
  · rintro ⟨above, habove, top, htop, hle, key, hkey, hhigh⟩
    have habove : above.toInt = lowest.toInt + 4 := Checked.add_eq_ok_iff.1 habove
    have htop : top.toInt = above.toInt - 1 := Checked.sub_eq_ok_iff.1 htop
    have hkey : key.toInt = top.toInt * 12 := Checked.mul_eq_ok_iff.1 hkey
    exact ⟨hlow.1 hle, by omega⟩
  · rintro ⟨hle, hhigh⟩
    rw [Chord.highestKey] at hhigh
    have hexists {n : Int} (h₁ : 0 ≤ n) (h₂ : n < 2 ^ 31) : ∃ a : Int32, a.toInt = n :=
      ⟨Int32.ofInt n, Int32.toInt_ofInt_of_le (by omega) (by omega)⟩
    obtain ⟨above, habove⟩ := hexists (n := lowest.toInt + 4) (by omega) (by omega)
    obtain ⟨top, htop⟩ := hexists (n := lowest.toInt + 3) (by omega) (by omega)
    obtain ⟨key, hkey⟩ := hexists (n := top.toInt * 12) (by omega) (by omega)
    have hsub : top.toInt = above.toInt - 1 := by omega
    exact ⟨above, Checked.add_eq_ok_iff.2 habove, top, Checked.sub_eq_ok_iff.2 hsub, hlow.2 hle, key,
      Checked.mul_eq_ok_iff.2 hkey, by rw [hkey, htop, Chord.highestKey]; exact hhigh⟩

/-- Settings pass if they can be composed with. -/
theorem check_eq_ok_iff {settings : Settings} :
    settings.check = .ok () ↔ ∃ barTicks, settings.Valid barTicks := by
  have htop := exists_top_iff settings.minOctave
  simp only [check, Checked.bind_eq_ok_iff, require_eq_ok_unit_iff, exists_const]
  constructor
  · rintro ⟨hresolution, hquarters, barTicks, hbar, hpower, hbars, hgrowth, above, habove, top, htop',
      hlow, key, hkey, hhigh, hvelocity, htempo⟩
    exact ⟨barTicks, hresolution, hquarters, hbar, hpower, hbars, hgrowth,
      htop.1 ⟨above, habove, top, htop', hlow, key, hkey, hhigh⟩, hvelocity, htempo⟩
  · rintro ⟨barTicks, h⟩
    obtain ⟨above, habove, top, htop', hlow, key, hkey, hhigh⟩ := htop.2 h.octaves
    exact ⟨h.resolution, h.quarters, barTicks, h.barTicks_eq, h.power, h.phraseBars, h.growth, above,
      habove, top, htop', hlow, key, hkey, hhigh, h.velocity, h.tempo⟩

end Settings

end Chorale
