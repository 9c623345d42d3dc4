import Chorale.Chord
import Chorale.Proofs.Settings.Check
import Mathlib.Order.Monotone.Basic

/-!
# The tones of a chord

A degree stands a tone of the triad above a multiple of octaves, one for every three degrees
(`Quality.height`), and from each degree to the next it is as far as the step between their tones
(`Quality.height_succ`). So a walk up, which takes the steps in their order, and a walk down, which
takes them the other way round, both end at the height of the degree. Their moves go one way only:
where a note on the way does not fit, the last one does not fit either (`Chord.travel_eq_ofInt`), and
so a walk is one checked sum (`Chord.walk_eq_ofInt`).

However far a degree lies above or below the root and in whatever octave it is taken, its key is one
of the keyboard, and lies above the root by the height of the degree but for whole octaves
(`Chord.keyAt_eq_ok`): whole turns of the steps and the octaves that bring a note onto the keyboard
are multiples of twelve semitones. So it sounds the root, the third or the fifth of the chord
(`Chord.sounds_of_keyAt`).
-/

namespace Chorale

/-! ## Pitch classes -/

namespace PitchClass

/-- The pitch class that a key sounds. -/
def ofKey (key : UInt8) : PitchClass := ofInt key.toNat

theorem ofInt_eq_of_emod {m n : Int} (h : m % 12 = n % 12) : ofInt m = ofInt n := by
  simp only [ofInt, h]

theorem height_ofInt (n : Int) : (ofInt n).height = n % 12 := by
  simp only [height, ofInt]
  omega

theorem height_range (p : PitchClass) : 0 ≤ p.height ∧ p.height < 12 := by
  obtain ⟨⟨semitones, hlt⟩⟩ := p
  simp only [height]
  omega

theorem ofInt_height (p : PitchClass) : ofInt p.height = p := by
  obtain ⟨semitones, hlt⟩ := p
  simp only [ofInt, height, PitchClass.mk.injEq, Fin.mk.injEq]
  omega

end PitchClass

/-! ## Heights -/

namespace Quality

/-- The heights of the root, the third and the fifth above the root. -/
def tones : Quality → List Int
  | .major => [0, 4, 7]
  | .minor => [0, 3, 7]

/-- The height of a degree above the root: twelve semitones for every three degrees, and the tone of
the triad that is left. Degrees below the root are rounded down. -/
def height (q : Quality) (degree : Int) : Int :=
  12 * (degree / 3) + q.tones.getD (degree % 3).toNat 0

theorem height_zero (q : Quality) : q.height 0 = 0 := by cases q <;> rfl

/-- Each step leads from its tone to the next, and the last one to the octave. -/
theorem toInt_stepAt (q : Quality) (place : Fin 3) :
    (q.stepAt place).toInt = (q.tones ++ [12]).getD (place + 1) 0 - q.tones.getD place 0 := by
  revert place
  cases q <;> decide

/-- From each degree to the next it is as far as the step that the degree has in the triad. -/
theorem height_succ (q : Quality) (degree : Int) {place : Nat} (hplace : place < 3)
    (hdegree : degree % 3 = place) :
    q.height (degree + 1) = q.height degree + (q.stepAt ⟨place, hplace⟩).toInt := by
  rcases (by omega : place = 0 ∨ place = 1 ∨ place = 2) with rfl | rfl | rfl
  · have hdiv : (degree + 1) / 3 = degree / 3 := by omega
    have hmod : (degree + 1) % 3 = 1 := by omega
    cases q <;> simp [height, toInt_stepAt, tones, hdegree, hdiv, hmod]
  · have hdiv : (degree + 1) / 3 = degree / 3 := by omega
    have hmod : (degree + 1) % 3 = 2 := by omega
    cases q <;> simp [height, toInt_stepAt, tones, hdegree, hdiv, hmod] <;> omega
  · have hdiv : (degree + 1) / 3 = degree / 3 + 1 := by omega
    have hmod : (degree + 1) % 3 = 0 := by omega
    cases q <;> simp [height, toInt_stepAt, tones, hdegree, hdiv, hmod] <;> omega

/-- The steps are four semitones on average. -/
theorem height_bounds (q : Quality) (degree : Int) :
    4 * degree - 1 ≤ q.height degree ∧ q.height degree ≤ 4 * degree := by
  rcases (by omega : degree % 3 = 0 ∨ degree % 3 = 1 ∨ degree % 3 = 2) with h | h | h <;>
    cases q <;> simp [height, tones, h] <;> omega

theorem stepAt_nonneg (q : Quality) (place : Fin 3) : 0 ≤ (q.stepAt place).toInt := by
  revert place
  cases q <;> decide

theorem height_le_succ (q : Quality) (degree : Int) : q.height degree ≤ q.height (degree + 1) := by
  have hplace : (degree % 3).toNat < 3 := by omega
  have hstep := q.height_succ degree hplace (by omega)
  have hnonneg := q.stepAt_nonneg ⟨_, hplace⟩
  omega

/-- How far the third is above the root. -/
def third : Quality → Int
  | .major => 4
  | .minor => 3

/-- An interval from the root up to a tone of the triad, but for octaves. -/
def IsInterval (q : Quality) (interval : Int) : Prop :=
  interval % 12 = 0 ∨ interval % 12 = q.third ∨ interval % 12 = 7

theorem isInterval_height (q : Quality) (degree : Int) : q.IsInterval (q.height degree) := by
  rcases (by omega : degree % 3 = 0 ∨ degree % 3 = 1 ∨ degree % 3 = 2) with h | h | h <;>
    cases q <;> simp [IsInterval, height, tones, third, h]

/-! ## Moves -/

theorem moveUp_eq_ofInt (q : Quality) (note : Int32) (step : Nat) :
    q.moveUp note step =
      Checked.ofInt (note.toInt + (q.height ↑(step + 1) - q.height step)) := by
  have hstep := q.height_succ step (Nat.mod_lt step (by decide : 0 < 3)) (by omega)
  rw [Int.natCast_succ, hstep, Int.add_comm (q.height step), Int.add_sub_cancel]
  rfl

theorem moveDown_eq_ofInt (q : Quality) (note : Int32) (step : Nat) :
    q.moveDown note step =
      Checked.ofInt (note.toInt + (q.height (-↑(step + 1)) - q.height (-step))) := by
  have hplace : 2 - step % 3 < 3 := by omega
  have hstep := q.height_succ (-↑(step + 1)) hplace (by omega)
  rw [show (-↑(step + 1) : Int) + 1 = -step by omega] at hstep
  rw [show q.height (-↑(step + 1)) - q.height (-step) = -(q.stepAt ⟨_, hplace⟩).toInt by omega,
    ← Int.sub_eq_add_neg]
  rfl

end Quality

/-! ## Keys -/

namespace Chord

/-- The root, the third and the fifth. -/
def pitchClasses (chord : Chord) : List PitchClass :=
  [chord.root, chord.root.above chord.quality.third, chord.root.above 7]

/-- The key is one of the keyboard and sounds a tone of the chord. -/
structure Sounds (chord : Chord) (key : UInt8) : Prop where
  keyboard : key ≤ 127
  tone : PitchClass.ofKey key ∈ chord.pitchClasses

theorem ofInt_mem_pitchClasses {chord : Chord} {interval note : Int}
    (h : chord.quality.IsInterval interval) (hnote : note % 12 = (chord.root.height + interval) % 12) :
    PitchClass.ofInt note ∈ chord.pitchClasses := by
  simp only [pitchClasses, PitchClass.above, List.mem_cons, List.not_mem_nil, or_false]
  rcases h with h | h | h
  · left
    rw [← PitchClass.ofInt_height chord.root]
    exact PitchClass.ofInt_eq_of_emod (by omega)
  · right; left
    exact PitchClass.ofInt_eq_of_emod (by omega)
  · right; right
    exact PitchClass.ofInt_eq_of_emod (by omega)

/-- A walk whose moves are the differences of heights that only rise, or only fall, ends at the
height of its last move, and overflows on the way just if it overflows in the end. -/
theorem travel_eq_ofInt {move : Int32 → Nat → Except Failure Int32} (height : Nat → Int)
    (hmove : ∀ note step,
      move note step = Checked.ofInt (note.toInt + (height (step + 1) - height step)))
    (hway : (∀ step, height step ≤ height (step + 1)) ∨ ∀ step, height (step + 1) ≤ height step)
    (count step : Nat) (note : Int32) :
    travel move count step note =
      Checked.ofInt (note.toInt + (height (step + count) - height step)) := by
  induction count generalizing step note with
  | zero =>
    rw [Nat.add_zero, Int.sub_self, Int.add_zero]
    exact (Checked.ofInt_eq_ok_iff.2 rfl).symm
  | succ count ih =>
    rw [travel, hmove]
    rcases Checked.eq_ok_or_overflow (α := Int32) (note.toInt + (height (step + 1) - height step))
      with ⟨next, hnext⟩ | hover
    · have hnote : next.toInt = _ := Checked.ofInt_eq_ok_iff.1 hnext
      rw [hnext]
      show travel move count (step + 1) next = _
      rw [ih, hnote, show step + 1 + count = step + (count + 1) by omega]
      congr 1
      omega
    · -- The moves that are left go further the same way.
      rw [hover]
      refine (Checked.ofInt_eq_overflow_iff_of_signed.2 ?_).symm
      have hout := Checked.ofInt_eq_overflow_iff_of_signed.1 hover
      have hlow := note.le_toInt
      have hhigh := note.toInt_lt
      have hle : step + 1 ≤ step + (count + 1) := by omega
      rcases hway with hup | hdown
      · have hfirst := hup step
        have hrest : height (step + 1) ≤ height (step + (count + 1)) := monotone_nat_of_le_succ hup hle
        omega
      · have hfirst := hdown step
        have hrest : height (step + (count + 1)) ≤ height (step + 1) :=
          antitone_nat_of_succ_le hdown hle
        omega

theorem travel_moveUp (q : Quality) (count : Nat) (note : Int32) :
    travel q.moveUp count 0 note = Checked.ofInt (note.toInt + q.height count) := by
  have hup (step : Nat) : q.height step ≤ q.height ↑(step + 1) := q.height_le_succ step
  have hend := travel_eq_ofInt (fun step : Nat => q.height step) q.moveUp_eq_ofInt (.inl hup)
    count 0 note
  rwa [Nat.zero_add, Int.natCast_zero, q.height_zero, Int.sub_zero] at hend

theorem travel_moveDown (q : Quality) (count : Nat) (note : Int32) :
    travel q.moveDown count 0 note = Checked.ofInt (note.toInt + q.height (-count)) := by
  have hdown (step : Nat) : q.height (-↑(step + 1)) ≤ q.height (-step) := by
    have hle := q.height_le_succ (-↑(step + 1))
    rwa [show (-↑(step + 1) : Int) + 1 = -step by omega] at hle
  have hend := travel_eq_ofInt (fun step : Nat => q.height (-step)) q.moveDown_eq_ofInt (.inr hdown)
    count 0 note
  rwa [Nat.zero_add, Int.natCast_zero, Int.neg_zero, q.height_zero, Int.sub_zero] at hend

/-- The walk to a degree is one checked sum of the heights of the root and of the degree. -/
theorem walk_eq_ofInt (chord : Chord) (degree : Int32) :
    chord.walk degree = Checked.ofInt (chord.root.height + chord.quality.height degree.toInt) := by
  have hrange := chord.root.height_range
  have hroot : (Int32.ofInt chord.root.height).toInt = chord.root.height :=
    Int32.toInt_ofInt_of_le (by omega) (by omega)
  unfold walk
  by_cases hup : 0 ≤ degree.toInt
  · rw [if_pos hup, travel_moveUp, hroot, Int.toNat_of_nonneg hup]
  · rw [if_neg hup]
    rcases Checked.eq_ok_or_overflow (α := Int32) (-degree.toInt) with ⟨count, hcount⟩ | hover
    · have hneg : count.toInt = -degree.toInt := Checked.ofInt_eq_ok_iff.1 hcount
      rw [show Checked.neg degree = _ from hcount]
      show travel chord.quality.moveDown count.toInt.toNat 0 _ = _
      rw [travel_moveDown, hroot, show (-(count.toInt.toNat : Int)) = degree.toInt by omega]
    · -- The lowest degree has no negative, and the note there does not fit.
      have hout := Checked.ofInt_eq_overflow_iff_of_signed.1 hover
      have hhigh := degree.toInt_lt
      have hbounds := chord.quality.height_bounds degree.toInt
      rw [show Checked.neg degree = _ from hover]
      exact (Checked.ofInt_eq_overflow_iff_of_signed.2 (.inl (by omega))).symm

theorem walk_eq_ok {chord : Chord} {degree note : Int32} (h : chord.walk degree = .ok note) :
    note.toInt = chord.root.height + chord.quality.height degree.toInt := by
  rw [walk_eq_ofInt] at h
  exact Checked.ofInt_eq_ok_iff.1 h

/-- The key that a note is played on: the note itself if there is a key for it, and otherwise the
note moved onto the keyboard by octaves. -/
structure Nearest (note : Int) (key : UInt8) : Prop where
  keyboard : key.toNat ≤ 127
  octaves : (key.toNat : Int) % 12 = note % 12
  self : 0 ≤ note → note ≤ 127 → (key.toNat : Int) = note
  low : note < 0 → key.toNat ≤ 11
  high : 127 < note → 116 ≤ key.toNat
  /-- No fewer octaves would do. -/
  least : ∃ moved : Int, (key.toNat : Int) = note + 12 * moved ∧
    ∀ other : Int, 0 ≤ note + 12 * other → note + 12 * other ≤ 127 → moved.natAbs ≤ other.natAbs

/-- A note that is moved to an end of the keyboard is moved by the fewest octaves. -/
theorem Nearest.of_bounds {note : Int} {key : UInt8} (hkeyboard : key.toNat ≤ 127)
    (hoctaves : (key.toNat : Int) % 12 = note % 12)
    (hself : 0 ≤ note → note ≤ 127 → (key.toNat : Int) = note) (hlow : note < 0 → key.toNat ≤ 11)
    (hhigh : 127 < note → 116 ≤ key.toNat) : Nearest note key := by
  refine ⟨hkeyboard, hoctaves, hself, hlow, hhigh, (key.toNat - note) / 12, by omega, ?_⟩
  intro other hfrom hto
  omega

/-- Octaves bring a note onto the keyboard, and not farther than to its end. -/
theorem fold_eq_ok {note : Int32} {key : UInt8} (h : fold note = .ok key) :
    Nearest note.toInt key := by
  have hkey {n : Int} (hlow : 0 ≤ n) (hhigh : n ≤ 127) : ((UInt8.ofNat n.toNat).toNat : Int) = n := by
    rw [UInt8.toNat_ofNat', Nat.mod_eq_of_lt (by omega)]
    omega
  rw [fold, highestKey] at h
  split at h
  · rename_i hlow
    obtain ⟨depth, hdepth, h⟩ := Checked.bind_eq_ok_iff.1 h
    obtain ⟨reach, hreach, h⟩ := Checked.bind_eq_ok_iff.1 h
    have hdepth : depth.toInt = -note.toInt := Checked.neg_eq_ok_iff.1 hdepth
    have hreach : reach.toInt = depth.toInt + 12 := Checked.add_eq_ok_iff.1 hreach
    cases h
    have := hkey (n := note.toInt + (reach.toInt - 1) / 12 * 12) (by omega) (by omega)
    apply Nearest.of_bounds <;> omega
  · split at h
    · cases h
      have := hkey (n := note.toInt - (note.toInt - 127 + 12 - 1) / 12 * 12) (by omega) (by omega)
      apply Nearest.of_bounds <;> omega
    · cases h
      have := hkey (n := note.toInt) (by omega) (by omega)
      apply Nearest.of_bounds <;> omega

/-- The key of a degree is the one for its height above the root, in the given octave. -/
theorem nearest_of_keyAt {chord : Chord} {degree octave : Int32} {key : UInt8}
    (h : chord.keyAt degree octave = .ok key) :
    Nearest (chord.root.height + chord.quality.height degree.toInt + 12 * octave.toInt) key := by
  obtain ⟨note, hwalk, h⟩ := Checked.bind_eq_ok_iff.1 h
  obtain ⟨lift, hlift, h⟩ := Checked.bind_eq_ok_iff.1 h
  obtain ⟨lifted, hadd, h⟩ := Checked.bind_eq_ok_iff.1 h
  have hnote := walk_eq_ok hwalk
  have hlift : lift.toInt = octave.toInt * 12 := Checked.mul_eq_ok_iff.1 hlift
  have hadd : lifted.toInt = note.toInt + lift.toInt := Checked.add_eq_ok_iff.1 hadd
  rw [show chord.root.height + chord.quality.height degree.toInt + 12 * octave.toInt =
    lifted.toInt by omega]
  exact fold_eq_ok h

/-- The key of a degree lies on the keyboard, at the height of the degree but for octaves. -/
theorem keyAt_eq_ok {chord : Chord} {degree octave : Int32} {key : UInt8}
    (h : chord.keyAt degree octave = .ok key) : key.toNat ≤ 127 ∧
      (key.toNat : Int) % 12 = (chord.root.height + chord.quality.height degree.toInt) % 12 := by
  have hnearest := nearest_of_keyAt h
  have hmod := hnearest.octaves
  exact ⟨hnearest.keyboard, by omega⟩

/-- Every degree in every octave sounds a tone of the chord. -/
theorem sounds_of_keyAt {chord : Chord} {degree octave : Int32} {key : UInt8}
    (h : chord.keyAt degree octave = .ok key) : chord.Sounds key := by
  obtain ⟨hhigh, hmod⟩ := keyAt_eq_ok h
  exact ⟨UInt8.le_iff_toNat_le.2 hhigh,
    ofInt_mem_pitchClasses (chord.quality.isInterval_height degree.toInt) hmod⟩

end Chord

end Chorale
