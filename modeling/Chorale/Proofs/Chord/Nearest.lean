import Chorale.Proofs.Chord.Range

/-!
# The nearest key

The note of a degree in an octave has no bound (`Chord.noteAt`), and is played on the key that is
nearest to it by octaves (`Chord.keyAt_nearest`).
-/

namespace Chorale

namespace Chord

/-- The note of a degree in an octave, counted in semitones from the lowest key. It may lie beyond
both ends of the keyboard. -/
def noteAt (chord : Chord) (degree octave : Int) : Int :=
  chord.root.height + chord.quality.height degree + 12 * octave

/-- A degree is played on the key that is nearest to its note, unless a number overflows on the way:
for that its degree or its octave has to be many millions away. -/
theorem keyAt_nearest (chord : Chord) (degree octave : Int32) :
    Checked.WP
      (fun e => e = .overflow ∧ ¬ (degree.toInt.natAbs ≤ 2 ^ 28 ∧ octave.toInt.natAbs ≤ 2 ^ 25))
      (chord.keyAt degree octave)
      fun key => Nearest (chord.noteAt degree.toInt octave.toInt) key := by
  refine .of_fits (fun hfar => ⟨rfl, hfar⟩) ?_ fun ⟨hdegree, hoctave⟩ => ?_
  · exact .mono (WP.keyAt rfl chord degree octave) fun key hkey => nearest_of_keyAt hkey
  · exact chord.exists_keyAt_eq_ok (by omega)

/-- The fifth of C major below the lowest C is played an octave higher. -/
example : keyAt ⟨⟨0⟩, .major⟩ (-1) 0 = .ok 7 := by decide

end Chord

end Chorale
