import Chorale.Proofs.Chord.Tones

/-!
# How far a chord reaches

A degree lies at most four semitones away from the root for each of its steps, and one more below it
(`Quality.height_bounds`). So no number overflows on the way to the key of a degree unless the degree
or the octave is hundreds of millions away (`Chord.exists_keyAt_eq_ok`), and nothing else can fail
there (`Chord.WP.keyAt`).
-/

namespace Chorale

namespace Chord

variable {allowed : Failure → Prop} {chord : Chord} {degree octave note : Int32}

theorem WP.walk (h : allowed .overflow) (chord : Chord) (degree : Int32) :
    Checked.WP allowed (chord.walk degree) fun _ => True := by
  rw [walk_eq_ofInt]
  exact .mono (.ofInt h _) fun _ _ => trivial

theorem WP.fold (h : allowed .overflow) (note : Int32) :
    Checked.WP allowed (Chord.fold note) fun _ => True := by
  rw [Chord.fold]
  by_cases hlow : note.toInt < 0
  · rw [if_pos hlow]
    exact .bind (.mono (.neg h note) fun _ _ => .bind (.mono (.add h _ 12) fun _ _ => .ok trivial))
  · rw [if_neg hlow]
    split <;> exact .ok trivial

/-- A tone has a key, unless a number does not fit on the way. -/
theorem WP.keyAt (h : allowed .overflow) (chord : Chord) (degree octave : Int32) :
    Checked.WP allowed (chord.keyAt degree octave) fun key => chord.keyAt degree octave = .ok key := by
  have hkey : Checked.WP allowed (chord.keyAt degree octave) fun _ => True := by
    refine .bind (.mono (walk h chord degree) fun note _ => ?_)
    refine .bind (.mono (.mul h octave 12) fun lift _ => ?_)
    exact .bind (.mono (.add h note lift) fun note _ => fold h note)
  exact hkey.run.mono fun _ hrun => hrun.1

theorem exists_walk_eq_ok (chord : Chord) (h : 4 * degree.toInt.natAbs + 12 < 2 ^ 31) :
    ∃ note, chord.walk degree = .ok note ∧ note.toInt.natAbs ≤ 4 * degree.toInt.natAbs + 12 := by
  have hroot := chord.root.height_range
  have hheight := chord.quality.height_bounds degree.toInt
  obtain ⟨note, hnote, heq⟩ := Checked.exists_ofInt_eq_ok
    (n := chord.root.height + chord.quality.height degree.toInt) (by omega) (by omega)
  exact ⟨note, chord.walk_eq_ofInt degree ▸ hnote, by omega⟩

/-- A note that is folded onto the keyboard is first brought an octave beyond its end. -/
theorem exists_fold_eq_ok (h : note.toInt.natAbs + 12 < 2 ^ 31) : ∃ key, fold note = .ok key := by
  rw [fold]
  by_cases hlow : note.toInt < 0
  · rw [if_pos hlow]
    obtain ⟨depth, hdepth, hneg⟩ :=
      Checked.exists_ofInt_eq_ok (n := -note.toInt) (by omega) (by omega)
    obtain ⟨reach, hreach, -⟩ :=
      Checked.exists_ofInt_eq_ok (n := depth.toInt + 12) (by omega) (by omega)
    exact ⟨_, Checked.bind_eq_ok_iff.2 ⟨depth, hdepth, Checked.bind_eq_ok_iff.2 ⟨reach, hreach, rfl⟩⟩⟩
  · rw [if_neg hlow]
    split <;> exact ⟨_, rfl⟩

/-- A tone has a key if its degree and its octave are not too far away. -/
theorem exists_keyAt_eq_ok (chord : Chord)
    (h : 4 * degree.toInt.natAbs + 12 * octave.toInt.natAbs + 24 < 2 ^ 31) :
    ∃ key, chord.keyAt degree octave = .ok key := by
  have hdegree : 4 * degree.toInt.natAbs + 12 < 2 ^ 31 := by omega
  obtain ⟨note, hwalk, hnote⟩ := chord.exists_walk_eq_ok hdegree
  obtain ⟨lift, hlift, hmul⟩ :=
    Checked.exists_ofInt_eq_ok (n := octave.toInt * 12) (by omega) (by omega)
  obtain ⟨lifted, hlifted, hadd⟩ :=
    Checked.exists_ofInt_eq_ok (n := note.toInt + lift.toInt) (by omega) (by omega)
  have hfold : lifted.toInt.natAbs + 12 < 2 ^ 31 := by omega
  obtain ⟨key, hkey⟩ := exists_fold_eq_ok hfold
  refine ⟨key, Checked.bind_eq_ok_iff.2 ⟨note, hwalk, ?_⟩⟩
  exact Checked.bind_eq_ok_iff.2 ⟨lift, hlift, Checked.bind_eq_ok_iff.2 ⟨lifted, hlifted, hkey⟩⟩

end Chord

end Chorale
