import Chorale.Proofs.Settings.Check
import Chorale.Settings.File

/-!
# Settings that overflow

`Settings.check` computes with numbers before it has looked at all of them: the ticks in a bar, which
it needs for the check of their number, and the lowest key of the highest voice. These need not fit
into 32 bits, and settings for which they do not (`Overflows`) are not refused with a defect: the
check overflows (`check_eq_overflow_iff`, `check_overflow_highOctave`), and so does the loading of a
file that holds them (`load_eq_overflow_iff`). All other settings pass or are refused, and all other
files are loaded or refused (`load_reports`).
-/

namespace Chorale

namespace Settings

/-- A number that the check computes does not fit into 32 bits: the ticks in a bar or, if nothing is
wrong with what is looked at before, the lowest key of the highest voice. -/
structure Overflows (settings : Settings) : Prop where
  resolution : settings.ticksPerQuarter ≠ 0
  quarters : 2 ≤ settings.quartersPerBar ∧ settings.quartersPerBar % 2 = 0
  large : 2 ^ 32 ≤ settings.ticksPerQuarter.toNat * settings.quartersPerBar.toNat ∨
    isPowerOfTwo (settings.ticksPerQuarter.toNat * settings.quartersPerBar.toNat) = true ∧
    (settings.minPhraseBars ≠ 0 ∧ settings.minPhraseBars ≤ settings.maxPhraseBars) ∧
    settings.minGrowth ≤ settings.maxGrowth ∧ 2 ^ 31 ≤ (settings.minOctave.toInt + 3) * 12

theorem require_ne_overflow {condition : Prop} [Decidable condition] {defect : Defect} :
    require condition defect ≠ .error .overflow := by
  rw [require]
  intro h
  split at h <;> cases h

theorem toNat_of_barTicks_eq {settings : Settings} {barTicks : UInt32}
    (h : settings.barTicks = .ok barTicks) :
    barTicks.toNat = settings.ticksPerQuarter.toNat * settings.quartersPerBar.toNat := by
  have h : (barTicks.toNat : Int) = settings.ticksPerQuarter.toNat * settings.quartersPerBar.toNat :=
    Checked.mul_eq_ok_iff.1 h
  exact_mod_cast h

/-- The highest voice is three octaves above the lowest, and its octave is found by way of the fourth
one. Of these numbers the lowest key of the octave is the first to be too large. -/
theorem top_overflows_iff (lowest : Int32) :
    (Checked.add lowest 4 = .error .overflow ∨
      ∃ above, Checked.add lowest 4 = .ok above ∧ (Checked.sub above 1 = .error .overflow ∨
        ∃ top, Checked.sub above 1 = .ok top ∧ 0 ≤ lowest ∧
          Checked.mul top 12 = .error .overflow)) ↔ 2 ^ 31 ≤ (lowest.toInt + 3) * 12 := by
  have hleast := lowest.le_toInt
  constructor
  · rintro (h | ⟨above, habove, h | ⟨top, htop, hlow, h⟩⟩)
    · have h : lowest.toInt + 4 < -2 ^ 31 ∨ 2 ^ 31 ≤ lowest.toInt + 4 :=
        Checked.ofInt_eq_overflow_iff_of_signed.1 h
      omega
    · have habove : above.toInt = lowest.toInt + 4 := Checked.add_eq_ok_iff.1 habove
      have h : above.toInt - 1 < -2 ^ 31 ∨ 2 ^ 31 ≤ above.toInt - 1 :=
        Checked.ofInt_eq_overflow_iff_of_signed.1 h
      omega
    · have habove : above.toInt = lowest.toInt + 4 := Checked.add_eq_ok_iff.1 habove
      have htop : top.toInt = above.toInt - 1 := Checked.sub_eq_ok_iff.1 htop
      have hlow : 0 ≤ lowest.toInt := Int32.le_iff_toInt_le.1 hlow
      have h : top.toInt * 12 < -2 ^ 31 ∨ 2 ^ 31 ≤ top.toInt * 12 :=
        Checked.ofInt_eq_overflow_iff_of_signed.1 h
      omega
  · intro hhigh
    by_cases hfits : lowest.toInt + 4 < 2 ^ 31
    · obtain ⟨above, habove, eabove⟩ := Checked.exists_ofInt_eq_ok (n := lowest.toInt + 4)
        (by omega) hfits
      obtain ⟨top, htop, etop⟩ := Checked.exists_ofInt_eq_ok (n := above.toInt - 1) (by omega)
        (by omega)
      have hlow : 0 ≤ lowest := Int32.le_iff_toInt_le.2 (show 0 ≤ lowest.toInt by omega)
      have hkey : 2 ^ 31 ≤ top.toInt * 12 := by omega
      exact .inr ⟨above, habove, .inr ⟨top, htop, hlow,
        Checked.ofInt_eq_overflow_iff_of_signed.2 (.inr hkey)⟩⟩
    · exact .inl (Checked.ofInt_eq_overflow_iff_of_signed.2 (.inr (Int.not_lt.1 hfits)))

/-- The check overflows just if one of its numbers does not fit. -/
theorem check_eq_overflow_iff {settings : Settings} :
    settings.check = .error .overflow ↔ settings.Overflows := by
  have htop := top_overflows_iff settings.minOctave
  have hbar : settings.barTicks = .error .overflow ↔ _ := Checked.mul_eq_overflow_iff_of_unsigned
  simp only [check, Checked.bind_eq_error_iff, require_eq_ok_unit_iff, require_ne_overflow,
    exists_const, false_or, or_false, and_false, hbar, htop]
  constructor
  · rintro ⟨hresolution, hquarters, hlong | ⟨barTicks, hticks, hpower, hrest⟩⟩
    · exact ⟨hresolution, hquarters, .inl hlong⟩
    · rw [toNat_of_barTicks_eq hticks] at hpower
      exact ⟨hresolution, hquarters, .inr ⟨hpower, hrest⟩⟩
  · rintro ⟨hresolution, hquarters, hlarge⟩
    refine ⟨hresolution, hquarters, ?_⟩
    rcases Nat.lt_or_ge (settings.ticksPerQuarter.toNat * settings.quartersPerBar.toNat) (2 ^ 32)
      with hfits | hlong
    · obtain ⟨barTicks, hticks, eticks⟩ := Checked.unsigned32.mul_eq_ok hfits
      obtain ⟨hpower, hrest⟩ := hlarge.resolve_left (Nat.not_le.2 hfits)
      exact .inr ⟨barTicks, hticks, eticks ▸ hpower, hrest⟩
    · exact .inl hlong

/-- A check of settings fails with a defect or overflows. -/
def FailsAsCheck (e : Failure) : Prop := (∃ defect, e = .settings defect) ∨ e = .overflow

theorem WP.require {condition : Prop} [Decidable condition] {defect : Defect} :
    Checked.WP FailsAsCheck (Settings.require condition defect) fun _ => True := by
  rw [Settings.require]
  split
  · exact .ok trivial
  · exact .error (.inl ⟨defect, rfl⟩)

theorem WP.check (settings : Settings) :
    Checked.WP FailsAsCheck settings.check fun _ => True := by
  have hover : FailsAsCheck .overflow := .inr rfl
  refine .seq require fun _ => .seq require fun _ => .seq (.mul hover _ _) fun barTicks => ?_
  refine .seq require fun _ => .seq require fun _ => .seq require fun _ => ?_
  refine .seq (.add hover _ _) fun above => .seq (.sub hover _ _) fun top => ?_
  refine .seq require fun _ => .seq (.mul hover _ _) fun topKey => ?_
  exact .seq require fun _ => .seq require fun _ => require

theorem check_cases (settings : Settings) :
    (settings.check = .ok () ∨ ∃ defect, settings.check = .error (.settings defect)) ∨
      settings.check = .error .overflow := by
  rcases h : settings.check with e | ⟨⟩
  · rcases (WP.check settings).of_error h with ⟨defect, rfl⟩ | rfl
    · exact .inl (.inr ⟨defect, rfl⟩)
    · exact .inr rfl
  · exact .inl (.inl rfl)

/-- Settings pass or are refused with a defect just if all numbers of the check fit. -/
theorem check_reports_iff {settings : Settings} :
    (settings.check = .ok () ∨ ∃ defect, settings.check = .error (.settings defect)) ↔
      ¬ settings.Overflows := by
  rw [← check_eq_overflow_iff]
  constructor
  · rintro (h | ⟨defect, h⟩) hover <;> cases h.symm.trans hover
  · exact (check_cases settings).resolve_right

/-! ## Files of settings -/

/-- The file holds the settings, which need not pass. -/
def Holds (contents : Option ByteArray) (settings : Settings) : Prop :=
  ∃ text, contents.bind String.fromUTF8? = some text ∧ parse text.toList = .ok settings

section

variable {contents : Option ByteArray} {settings : Settings}

theorem Holds.load_eq (h : Holds contents settings) :
    load contents = settings.check.map fun _ => settings := by
  obtain ⟨text, htext, hparse⟩ := h
  rw [load, htext]
  simp only [hparse]
  rfl

theorem Holds.load_eq_overflow_iff (h : Holds contents settings) :
    load contents = .error .overflow ↔ settings.Overflows := by
  rw [h.load_eq, ← check_eq_overflow_iff]
  cases settings.check <;> simp [Except.map]

theorem load_of_forall_not_holds (h : ∀ settings, ¬ Holds contents settings) :
    load contents = .error .unreadable ∨ load contents = .error .unparsable := by
  rw [load]
  split
  case h_1 => exact .inl rfl
  case h_2 text htext =>
    rcases hparse : parse text.toList with e | settings
    · rw [parse] at hparse
      split at hparse <;> cases hparse
      exact .inr rfl
    · exact absurd ⟨text, htext, hparse⟩ (h settings)

theorem load_eq_overflow_iff :
    load contents = .error .overflow ↔ ∃ settings, Holds contents settings ∧ settings.Overflows := by
  constructor
  · intro hload
    by_contra hnone
    have hholds (settings : Settings) : ¬ Holds contents settings := fun h =>
      hnone ⟨settings, h, h.load_eq_overflow_iff.1 hload⟩
    rcases load_of_forall_not_holds hholds with h | h <;> cases h.symm.trans hload
  · rintro ⟨settings, h, hover⟩
    exact h.load_eq_overflow_iff.2 hover

/-- A file is loaded, or refused since it cannot be read, cannot be parsed or holds settings with a
defect. -/
def Reports (contents : Option ByteArray) : Prop :=
  (∃ settings, load contents = .ok settings) ∨ load contents = .error .unreadable ∨
    load contents = .error .unparsable ∨ ∃ defect, load contents = .error (.settings defect)

theorem Holds.reports (h : Holds contents settings) (hfits : ¬ settings.Overflows) :
    Reports contents := by
  have hload := h.load_eq
  rcases check_reports_iff.2 hfits with hcheck | ⟨defect, hcheck⟩ <;> rw [hcheck] at hload
  · exact .inl ⟨settings, hload⟩
  · exact .inr (.inr (.inr ⟨defect, hload⟩))

theorem reports_iff :
    Reports contents ↔ ¬ ∃ settings, Holds contents settings ∧ settings.Overflows := by
  constructor
  · rw [← load_eq_overflow_iff]
    rintro (⟨settings, h⟩ | h | h | ⟨defect, h⟩) hover <;> cases h.symm.trans hover
  · intro hfits
    by_cases hholds : ∃ settings, Holds contents settings
    · obtain ⟨settings, h⟩ := hholds
      exact h.reports fun hover => hfits ⟨settings, h, hover⟩
    · rcases load_of_forall_not_holds (not_exists.1 hholds) with h | h
      · exact .inr (.inl h)
      · exact .inr (.inr (.inl h))

end

/-- Settings pass or are refused with a defect just if every number that the check computes fits, and
else the check overflows. So a file is loaded or refused just if it holds no settings with a number
that does not fit. -/
theorem load_reports (settings : Settings) (contents : Option ByteArray) :
    ((settings.check = .ok () ∨ ∃ defect, settings.check = .error (.settings defect)) ↔
      ¬ settings.Overflows) ∧
    (settings.check = .error .overflow ↔ settings.Overflows) ∧
    (Reports contents ↔ ¬ ∃ settings, Holds contents settings ∧ settings.Overflows) ∧
    (load contents = .error .overflow ↔
      ∃ settings, Holds contents settings ∧ settings.Overflows) :=
  ⟨check_reports_iff, check_eq_overflow_iff, reports_iff, load_eq_overflow_iff⟩

/-- Octaves far above the keyboard are to be refused, but the check overflows on them. -/
theorem check_overflow_highOctave :
    check { default with minOctave := 2147483647 } = .error .overflow ∧
      load (some "\x7b\"min_octave\": 2147483647\x7d".toUTF8) = .error .overflow := by
  have hcheck : check { default with minOctave := 2147483647 } = .error .overflow := by decide
  have htext : String.fromUTF8? "\x7b\"min_octave\": 2147483647\x7d".toUTF8 =
      some "\x7b\"min_octave\": 2147483647\x7d" := by decide +kernel
  have hparse : parse "\x7b\"min_octave\": 2147483647\x7d".toList =
      .ok { default with minOctave := 2147483647 } := by decide +kernel
  have hholds : Holds (some _) { default with minOctave := 2147483647 } := ⟨_, htext, hparse⟩
  exact ⟨hcheck, hholds.load_eq_overflow_iff.2 (check_eq_overflow_iff.1 hcheck)⟩

end Settings

end Chorale
