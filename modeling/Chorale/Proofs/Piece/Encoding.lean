import Chorale.Proofs.Midi.Encoding
import Chorale.Proofs.Piece.Composing

/-!
# Pieces in MIDI files

Which composed pieces fit into a MIDI file. The tracks of a piece are lines, so the times between
their events are the lengths of its tones (`Line.gaps_eq`), of which the closing one is the longest
with two bars (`Piece.Composed.gaps_le`). So it depends on the settings alone whether the header and
the times fit, though settings that pass need not fit (`compose_encode_slow`), and `compose_encode`
says what becomes of a piece in each case.
-/

namespace Chorale

open Midi

variable {settings : Settings} {octaves : Quartet Int32} {barTicks : UInt32}

/-! ## The times between the events of a piece -/

/-- Between the events of a line there are no times but the lengths of its tones. -/
theorem Line.gaps_eq {start finish : Nat} {tones : List Tone} (h : Line start tones finish)
    {last : UInt32} (hlast : last.toNat = start) :
    gaps last (tones.flatMap Tone.events) =
      tones.flatMap fun tone => [0, tone.finish - tone.start] := by
  induction h generalizing last with
  | nil => rfl
  | @cons start finish tone tones hstart hlater rest ih =>
    have hfirst : tone.start - last = 0 := by
      rw [UInt32.toNat_inj.1 (hstart.trans hlast.symm), UInt32.sub_self]
    rw [List.flatMap_cons, List.flatMap_cons, ← ih rfl, ← hfirst]
    rfl

namespace Piece.Composed

variable {tonic : PitchClass} {scale : Scale} {form : Word} {piece : Piece}

/-- The tracks are in order, and the longest time between two events is the length of the closing
tone. -/
theorem gaps_le (h : piece.Composed tonic scale form settings octaves barTicks)
    (hpower : isPowerOfTwo barTicks.toNat = true) {track : Track}
    (htrack : track ∈ piece.sequence.tracks) :
    track.isOrdered = true ∧
      (∀ gap ∈ gaps 0 track.events.toList, gap.toNat ≤ 2 * barTicks.toNat) ∧
      ∃ gap ∈ gaps 0 track.events.toList, gap.toNat = 2 * barTicks.toNat := by
  obtain ⟨tracks, hsequence, htracks⟩ := h.tracks
  rw [hsequence] at htrack
  obtain ⟨voice, rfl⟩ := Quartet.exists_get_of_mem htrack
  obtain ⟨tones, closing, hvoice, heq⟩ := htracks voice
  have hgapless := hvoice.gapless hpower heq
  have hlength {tone : Tone} (hmem : tone ∈ tones ++ [closing]) :
      (tone.finish - tone.start).toNat = tone.finish.toNat - tone.start.toNat := by
    have hbounds := hgapless.line.bounds_of_mem hmem
    exact toNat_gap (UInt32.le_iff_toNat_le.2 (by omega))
  have hclosing : (closing.finish - closing.start).toNat = 2 * barTicks.toNat := by
    rw [hlength (List.mem_append_right _ List.mem_cons_self), hvoice.start, hvoice.finish,
      Nat.add_sub_cancel_left]
  rw [hgapless.events, hgapless.line.gaps_eq rfl]
  refine ⟨hgapless.ordered, ?_, closing.finish - closing.start, ?_, hclosing⟩
  · intro gap hgap
    obtain ⟨tone, hmem, hgap⟩ := List.mem_flatMap.1 hgap
    simp only [List.mem_cons, List.not_mem_nil, or_false] at hgap
    rcases hgap with rfl | rfl
    · exact Nat.zero_le _
    · rcases List.mem_append.1 hmem with hphrase | hlast
      · have hbar := hvoice.plays.finish_le hpower h.filled_of_mem_played tone hphrase
        rw [hlength hmem]
        omega
      · rw [List.mem_singleton.1 hlast, hclosing]
  · exact List.mem_flatMap.2 ⟨closing, List.mem_append_right _ List.mem_cons_self, by simp⟩

theorem isOrdered (h : piece.Composed tonic scale form settings octaves barTicks)
    (hpower : isPowerOfTwo barTicks.toNat = true) :
    ∀ track ∈ piece.sequence.tracks, track.isOrdered = true :=
  fun _ htrack => (h.gaps_le hpower htrack).1

/-- If two bars are too long for a file, then so is a time between two events of the piece. -/
theorem exists_gap (h : piece.Composed tonic scale form settings octaves barTicks)
    (hpower : isPowerOfTwo barTicks.toNat = true) (hlong : maxDelta < 2 * barTicks.toNat) :
    ∃ gap, (piece.sequence.tracks.flatMap fun track => gaps 0 track.events.toList).find?
        (maxDelta < ·.toNat) = some gap ∧
      maxDelta < gap.toNat ∧ gap.toNat ≤ 2 * barTicks.toNat := by
  obtain ⟨tracks, hsequence, -⟩ := h.tracks
  have hbass : tracks.bass ∈ piece.sequence.tracks := by
    rw [hsequence]
    exact List.mem_cons_self
  obtain ⟨-, -, last, hlast, hlength⟩ := h.gaps_le hpower hbass
  have hsome : ((piece.sequence.tracks.flatMap fun track => gaps 0 track.events.toList).find?
      (maxDelta < ·.toNat)).isSome = true := by
    rw [List.find?_isSome]
    exact ⟨last, List.mem_flatMap.2 ⟨_, hbass, hlast⟩, decide_eq_true (hlength ▸ hlong)⟩
  obtain ⟨gap, hgap⟩ := Option.isSome_iff_exists.1 hsome
  obtain ⟨track, htrack, hmem⟩ := List.mem_flatMap.1 (List.mem_of_find?_eq_some hgap)
  have htooLong : maxDelta < gap.toNat := by simpa using List.find?_some hgap
  exact ⟨gap, hgap, htooLong, (h.gaps_le hpower htrack).2.1 gap hmem⟩

end Piece.Composed

/-! ## What becomes of a piece -/

/-- A composed piece is encoded if its resolution, its tempo and two bars fit into a file. They are
looked at in this order, and the time that is too long is the length of one of its tones. The only
thing that may be wrong besides is the size of a track. -/
theorem compose_encode {tonic : PitchClass} {scale : Scale} {form : Word} {settings : Settings}
    {piece : Piece} {r r' : Rng}
    (h : (Chorale.compose tonic scale form settings).run r = (.ok piece, r')) :
    ∃ barTicks, settings.barTicks = .ok barTicks ∧
      if 32767 < settings.ticksPerQuarter.toNat then
        encode piece.sequence settings.tempo = .error (.resolution settings.ticksPerQuarter)
      else if settings.tempo.toNat < 4 then
        encode piece.sequence settings.tempo = .error (.tempo settings.tempo)
      else if 2 ^ 28 ≤ 2 * barTicks.toNat then
        ∃ gap, encode piece.sequence settings.tempo = .error (.delta gap) ∧
          2 ^ 28 ≤ gap.toNat ∧ gap.toNat ≤ 2 * barTicks.toNat
      else
        ∃ tracks, allContents (Voice.all.map (·.name)) piece.sequence.tracks = .ok tracks ∧
          if ∀ contents ∈ tracks, contents.length ≤ maxContents then
            ∃ bytes, encode piece.sequence settings.tempo = .ok bytes
          else encode piece.sequence settings.tempo = .error .unwritable := by
  obtain ⟨octaves, barTicks, hvalid, hpiece⟩ := composed_of_run h
  obtain ⟨tracks, hsequence, -⟩ := hpiece.tracks
  have hticks : piece.sequence.ticksPerQuarter = settings.ticksPerQuarter := by rw [hsequence]
  have hcount : piece.sequence.tracks.length < maxTracks := by
    rw [hsequence]
    exact (by decide : 4 < maxTracks)
  have hpos : 0 < settings.ticksPerQuarter.toNat :=
    Nat.pos_of_ne_zero fun hzero => hvalid.resolution (UInt32.toNat_inj.1 hzero)
  have hordered := hpiece.isOrdered hvalid.power
  refine ⟨barTicks, hvalid.barTicks_eq, ?_⟩
  rw [← hticks] at hpos ⊢
  split
  case isTrue hlarge => exact encode_resolution (by omega)
  case isFalse hsmall =>
  have hresolution : 0 < piece.sequence.ticksPerQuarter.toNat ∧
      piece.sequence.ticksPerQuarter.toNat < 0x8000 := ⟨hpos, by omega⟩
  split
  case isTrue hslow => exact encode_tempo hresolution hslow
  case isFalse hfast =>
  have hsayable : Sayable piece.sequence.ticksPerQuarter settings.tempo :=
    ⟨hresolution, Nat.not_lt.1 hfast⟩
  split
  case isTrue hlong =>
    obtain ⟨gap, hgap, hbounds⟩ := hpiece.exists_gap hvalid.power hlong
    exact ⟨gap, encode_delta hsayable hordered hgap, hbounds⟩
  case isFalse hshort =>
    refine encode_of_gaps hsayable hcount hordered fun track htrack gap hgap => ?_
    have hle := (hpiece.gaps_le hvalid.power htrack).2.1 gap hgap
    rw [maxDelta]
    omega

/-- Two phrases of two bars with the first one played again, at a common tempo. -/
theorem compose_encode_aba : ∃ piece r',
    (Chorale.compose ⟨0⟩ .major ['a', 'b', 'a'] ⟨2, 2, 2, 2, 1, 1, 3, 64, 120⟩).run ⟨1, 2, 3, 4⟩ =
      (.ok piece, r') ∧
    ∃ tracks, allContents (Voice.all.map (·.name)) piece.sequence.tracks = .ok tracks ∧
      if ∀ contents ∈ tracks, contents.length ≤ maxContents then
        ∃ bytes, encode piece.sequence 120 = .ok bytes
      else encode piece.sequence 120 = .error .unwritable := by
  obtain ⟨piece, r', hrun⟩ := exists_compose_aba
  obtain ⟨barTicks, hbar, hencode⟩ := compose_encode hrun
  have hbar : (barTicks.toNat : Int) = 2 * 2 := Checked.mul_eq_ok_iff.1 hbar
  rw [if_neg (by decide), if_neg (by decide), if_neg (by omega)] at hencode
  exact ⟨piece, r', hrun, hencode⟩

/-- Settings that pass can be too slow for a file. -/
theorem compose_encode_slow : ∃ piece r',
    Settings.check ⟨2, 2, 1, 1, 1, 1, 3, 64, 3⟩ = .ok () ∧
    (Chorale.compose ⟨0⟩ .major ['a'] ⟨2, 2, 1, 1, 1, 1, 3, 64, 3⟩).run (.ofSeed 1) =
      (.ok piece, r') ∧
    encode piece.sequence 3 = .error (.tempo 3) := by
  obtain ⟨piece, r', hrun⟩ := Draw.exists_run_eq_ok
    (x := Chorale.compose ⟨0⟩ .major ['a'] ⟨2, 2, 1, 1, 1, 1, 3, 64, 3⟩) (r := .ofSeed 1)
    (by decide +kernel)
  obtain ⟨octaves, barTicks, hvalid, hpiece⟩ := composed_of_run hrun
  obtain ⟨tracks, hsequence, -⟩ := hpiece.tracks
  refine ⟨piece, r', Settings.check_eq_ok_iff.2 ⟨barTicks, hvalid⟩, hrun, encode_tempo ?_ (by decide)⟩
  rw [hsequence]
  exact (by decide : 0 < 2 ∧ 2 < 0x8000)

end Chorale
