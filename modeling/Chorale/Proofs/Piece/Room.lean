import Chorale.Proofs.Melody.Reach
import Chorale.Proofs.Piece.Playing

/-!
# Room for a piece

Settings leave room for a form of `count` letters if that many of the longest phrases, with the two
bars of the closing chord behind them, last no longer than `2 ^ 26` ticks (`Settings.HasRoom`). Then
the phrases drawn have not too many quarter notes (`Settings.HasRoom.quarterCount_le`), and every
phrase played comes to its end, since a melody has no more signs than seven for each tick
(`exists_play`).
-/

namespace Chorale

variable {settings : Settings} {octaves : Quartet Int32} {barTicks : UInt32}

/-! ## Octaves -/

/-- The octaves of settings that pass lie on the keyboard. -/
theorem exists_octaves (h : settings.Valid barTicks) :
    ∃ octaves, Voice.octaves settings.minOctave = .ok octaves ∧
      ∀ voice, (octaves.get voice).toInt.natAbs ≤ 10 := by
  obtain ⟨hlow, hhigh⟩ := h.octaves
  rw [Chord.highestKey] at hhigh
  have hindex (voice : Voice) : (Int32.ofNat voice.index).toInt = voice.index := by
    cases voice <;> rfl
  have hle (voice : Voice) : voice.index ≤ 3 := by cases voice <;> decide
  have hoctave (voice : Voice) :
      ∃ octave, Checked.add settings.minOctave (Int32.ofNat voice.index) = .ok octave := by
    have := hle voice
    have := hindex voice
    obtain ⟨octave, hadd, -⟩ := Checked.exists_ofInt_eq_ok
      (n := settings.minOctave.toInt + (Int32.ofNat voice.index).toInt) (by omega) (by omega)
    exact ⟨octave, hadd⟩
  obtain ⟨octaves, hoctaves⟩ := Checked.WP.exists_collect_eq_ok hoctave
  have hwp : Checked.WP (fun _ => True) (Voice.octaves settings.minOctave) fun octaves =>
      ∀ voice, (octaves.get voice).toInt =
        settings.minOctave.toInt + (Int32.ofNat voice.index).toInt :=
    .collect _ fun voice => .add trivial settings.minOctave (Int32.ofNat voice.index)
  refine ⟨octaves, hoctaves, fun voice => ?_⟩
  have hsum := hwp.of_ok hoctaves voice
  have := hle voice
  rw [hindex] at hsum
  omega

/-! ## Ticks -/

/-- A form of `count` letters with the longest phrases and the closing chord lasts no longer than
`2 ^ 26` ticks. -/
def Settings.HasRoom (settings : Settings) (barTicks : UInt32) (count : Nat) : Prop :=
  (count * settings.maxPhraseBars.toNat + 2) * barTicks.toNat ≤ 2 ^ 26

namespace Settings.HasRoom

variable {count : Nat} {lengths : List UInt32}

/-- As many phrases as the form has letters, or fewer, last no longer than they may. -/
theorem ticks_le (h : settings.HasRoom barTicks count) (hcount : lengths.length ≤ count)
    (hbars : ∀ bars ∈ lengths, bars ≤ settings.maxPhraseBars) :
    (lengths.map (·.toNat)).sum * barTicks.toNat + 2 * barTicks.toNat ≤ 2 ^ 26 := by
  have hsum : (lengths.map (·.toNat)).sum ≤ count * settings.maxPhraseBars.toNat := by
    calc (lengths.map (·.toNat)).sum
        ≤ (lengths.map (·.toNat)).length * settings.maxPhraseBars.toNat := by
          refine List.sum_le_card_nsmul _ _ fun bars hmem => ?_
          obtain ⟨length, hlength, rfl⟩ := List.mem_map.1 hmem
          exact UInt32.le_iff_toNat_le.1 (hbars length hlength)
      _ ≤ count * settings.maxPhraseBars.toNat := by
          rw [List.length_map]
          exact Nat.mul_le_mul_right _ hcount
  rw [← Nat.add_mul]
  exact Nat.le_trans (Nat.mul_le_mul_right _ (Nat.add_le_add_right hsum 2)) h

theorem sum_le (h : settings.HasRoom barTicks count) (hvalid : settings.Valid barTicks)
    (hcount : lengths.length ≤ count) (hbars : ∀ bars ∈ lengths, bars ≤ settings.maxPhraseBars) :
    (lengths.map (·.toNat)).sum ≤ 2 ^ 26 := by
  have hticks := h.ticks_le hcount hbars
  have hpos := ((Melody.within_self hvalid.power).bounds barTicks.toNat_lt).1
  have := Nat.le_mul_of_pos_right (lengths.map (·.toNat)).sum hpos
  omega

/-- A quarter note lasts for a tick or more. -/
theorem quarterCount_le (h : settings.HasRoom barTicks count) (hvalid : settings.Valid barTicks)
    (hcount : lengths.length ≤ count) (hbars : ∀ bars ∈ lengths, bars ≤ settings.maxPhraseBars) :
    quarterCount settings lengths ≤ 2 ^ 26 := by
  have hticks := h.ticks_le hcount hbars
  have hquarters : settings.quartersPerBar.toNat ≤ barTicks.toNat := by
    have hpos : 0 < settings.ticksPerQuarter.toNat :=
      Nat.pos_of_ne_zero fun hzero => hvalid.resolution (UInt32.toNat_inj.1 hzero)
    have hbar : barTicks.toNat = settings.ticksPerQuarter.toNat * settings.quartersPerBar.toNat :=
      Int.ofNat.inj (Checked.mul_eq_ok_iff.1 hvalid.barTicks_eq)
    rw [hbar]
    exact Nat.le_mul_of_pos_left _ hpos
  rw [quarterCount_eq]
  have := Nat.mul_le_mul_left (lengths.map (·.toNat)).sum hquarters
  omega

end Settings.HasRoom

/-! ## Playing -/

/-- A phrase of no more than `2 ^ 26` ticks has no melody with too many signs. -/
theorem Phrase.Filled.signs_le {phrase : Phrase} (h : phrase.Filled settings barTicks)
    (hpower : isPowerOfTwo barTicks.toNat = true) (voice : Voice) :
    Melody.signs (phrase.melodies.get voice) ≤ 7 * (phrase.bars.toNat * barTicks.toNat) := by
  have hsigns := (h.divided voice).signs_le
  have hnotes := (h.melodies voice).count_note_le (Melody.within_self hpower)
    fun l hl => (hl.bounds barTicks.toNat_lt).1
  omega

theorem exists_playPhrase (h : settings.Valid barTicks)
    (hoctaves : ∀ voice, (octaves.get voice).toInt.natAbs ≤ 10) {phrase : Phrase}
    (hphrase : phrase.Filled settings barTicks) (offset : UInt32)
    (hroom : offset.toNat + phrase.bars.toNat * barTicks.toNat ≤ 2 ^ 26) (tracks : Quartet Track) :
    ∃ tracks', playPhrase settings octaves phrase offset tracks = .ok tracks' := by
  refine Checked.WP.exists_collect_eq_ok fun voice => ?_
  have hsigns := hphrase.signs_le h.power voice
  have hoctave := hoctaves voice
  obtain ⟨⟨elapsed, track⟩, hperform⟩ := Melody.exists_perform
    (phrase.part settings octaves barTicks voice offset)
    (fun l hl => hl.bounds barTicks.toNat_lt) h.resolution (hphrase.melodies voice)
    (Melody.within_self h.power)
    (show 4 * Melody.signs _ + 12 * (octaves.get voice).toInt.natAbs + 24 < 2 ^ 31 by omega)
    (Nat.le_of_eq (hphrase.ticks h)) (show offset.toNat + _ < 2 ^ 32 by omega) (tracks.get voice)
  refine ⟨track, Checked.bind_eq_ok_iff.2 ⟨_, phrase.ofSettings_part h voice offset, ?_⟩⟩
  exact Checked.bind_eq_ok_iff.2 ⟨_, hperform, rfl⟩

/-- Phrases that last no longer than `2 ^ 26` ticks together are played to the end. -/
theorem exists_play (h : settings.Valid barTicks)
    (hoctaves : ∀ voice, (octaves.get voice).toInt.natAbs ≤ 10) {phrases : List Phrase}
    (hphrases : ∀ phrase ∈ phrases, phrase.Filled settings barTicks) (offset : UInt32)
    (hroom : offset.toNat + (phrases.map (·.bars.toNat)).sum * barTicks.toNat ≤ 2 ^ 26)
    (tracks : Quartet Track) :
    ∃ played, play settings octaves barTicks phrases offset tracks = .ok played := by
  induction phrases generalizing offset tracks with
  | nil => exact ⟨_, rfl⟩
  | cons phrase later ih =>
    obtain ⟨hphrase, hlater⟩ := List.forall_mem_cons.1 hphrases
    rw [List.map_cons, List.sum_cons, Nat.add_mul] at hroom
    obtain ⟨tracks', hfirst⟩ := exists_playPhrase h hoctaves hphrase offset (by omega) tracks
    obtain ⟨length, hmul, hlength⟩ :=
      Checked.unsigned32.mul_eq_ok (a := phrase.bars) (b := barTicks) (by omega)
    obtain ⟨next, hadd, hnext⟩ :=
      Checked.unsigned32.add_eq_ok (a := offset) (b := length) (by omega)
    obtain ⟨played, hrest⟩ := ih hlater next (by omega) tracks'
    refine ⟨{ played with offsets := offset :: played.offsets }, ?_⟩
    refine Checked.bind_eq_ok_iff.2 ⟨tracks', hfirst, Checked.bind_eq_ok_iff.2 ⟨length, hmul, ?_⟩⟩
    refine Checked.bind_eq_ok_iff.2 ⟨next, hadd, ?_⟩
    exact Checked.bind_eq_ok_iff.2 ⟨played, hrest, rfl⟩

end Chorale
