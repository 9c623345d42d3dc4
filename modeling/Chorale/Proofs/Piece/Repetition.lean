import Chorale.Proofs.Melody.Solo
import Chorale.Proofs.Piece.Composing

/-!
# Phrases played again

A phrase that is played several times is heard in the same way each time. What a voice plays of it by
itself (`Phrase.solo`) is put on the voice's track unchanged, at the tick where the bars of the
phrases before it are over (`Plays.exists_solos`), and the closing tone follows the last phrase
(`compose_repeats`).
-/

namespace Chorale

variable {settings : Settings} {octaves : Quartet Int32} {barTicks : UInt32} {voice : Voice}

/-! ## Phrases by themselves -/

/-- What a voice plays of a phrase by itself, from tick 0 on. -/
def Phrase.solo (settings : Settings) (octaves : Quartet Int32) (voice : Voice) (phrase : Phrase) :
    Except Failure Track := do
  let part ← Melody.Part.ofSettings settings phrase.chords (octaves.get voice) 0
  let (_, track) ← Melody.perform part (phrase.melodies.get voice) .empty
  pure track

theorem Track.heardFrom_line {tones : List Tone} {finish : Nat} (h : Line 0 tones finish)
    (start : Nat) : (tones.foldl Track.addTone .empty).heardFrom start =
      (tones.flatMap Tone.events).map (·.heardFrom start) := by
  rw [Track.heardFrom, Track.events_foldl_addTone h (by simp [Track.empty])]
  simp [Track.empty]

/-- In the course of a piece a phrase is heard as it is by itself. -/
theorem PlaysPhrase.exists_solo (h : settings.Valid barTicks) {phrase : Phrase}
    (hphrase : phrase.Filled settings barTicks) {offset : UInt32} {next : Nat} {tones : List Tone}
    (hplays : PlaysPhrase settings octaves barTicks voice phrase offset next tones) :
    ∃ solo, phrase.solo settings octaves voice = .ok solo ∧
      (tones.flatMap Tone.events).map (·.heardFrom 0) = solo.heardFrom offset.toNat := by
  obtain ⟨track, ⟨ticks, track'⟩, hrun⟩ := hplays.performed
  obtain ⟨solo, hsolo⟩ := Melody.exists_perform_alone hrun .empty
  have hsolo : Melody.perform (phrase.part settings octaves barTicks voice 0)
      (phrase.melodies.get voice) .empty = .ok (ticks, solo) := hsolo
  have hwp : Checked.WP (fun _ => True) (Melody.perform
      (phrase.part settings octaves barTicks voice 0) (phrase.melodies.get voice) .empty) _ :=
    WP.playVoice h trivial hphrase voice 0 .empty
  obtain ⟨alone, halone, hfold⟩ := hwp.of_ok hsolo
  have hfold : solo = alone.foldl Track.addTone .empty := hfold
  refine ⟨solo, ?_, ?_⟩
  · rw [Phrase.solo, phrase.ofSettings_part h voice 0]
    exact Checked.bind_eq_ok_iff.2 ⟨_, rfl, Checked.bind_eq_ok_iff.2 ⟨_, hsolo, rfl⟩⟩
  · rw [hfold, Track.heardFrom_line halone.line]
    exact Melody.Part.heardFrom_of_renders hplays.renders halone.renders

/-- Phrases played one after another are heard as they are by themselves, each from its tick on. -/
theorem Plays.exists_solos (h : settings.Valid barTicks) {phrases : List Phrase}
    (hphrases : ∀ phrase ∈ phrases, phrase.Filled settings barTicks) {offsets : List UInt32}
    {start finish : UInt32} {tones : List Tone}
    (hplays : Plays settings octaves barTicks voice phrases offsets start finish tones) :
    ∃ solos, phrases.map (·.solo settings octaves voice) = solos.map .ok ∧
      (tones.flatMap Tone.events).map (·.heardFrom 0) =
        (List.zipWith (fun solo offset => solo.heardFrom offset.toNat) solos offsets).flatten := by
  induction hplays with
  | nil => exact ⟨[], rfl, rfl⟩
  | cons first _ _ ih =>
    obtain ⟨hphrase, hlater⟩ := List.forall_mem_cons.1 hphrases
    obtain ⟨solo, hsolo, hfirst⟩ := first.exists_solo h hphrase
    obtain ⟨solos, hsolos, hrest⟩ := ih hlater
    refine ⟨solo :: solos, by rw [List.map_cons, List.map_cons, hsolo, hsolos], ?_⟩
    rw [List.flatMap_append, List.map_append, hfirst, hrest, List.zipWith_cons_cons,
      List.flatten_cons]

/-! ## The piece -/

/-- The bars played can be counted, since the tick at which they are over fits. -/
theorem Piece.totalBars_eq_ok {piece : Piece} (hvalid : settings.Valid barTicks)
    (hfinish : piece.cadenceTick.toNat =
      (piece.played.map (·.bars.toNat)).sum * barTicks.toNat) :
    ∃ total, piece.totalBars = .ok total ∧
      piece.cadenceTick.toNat = total.toNat * barTicks.toNat := by
  have hpos : 1 ≤ barTicks.toNat :=
    ((Melody.within_self hvalid.power).bounds barTicks.toNat_lt).1
  have hle := Nat.le_mul_of_pos_right (piece.played.map (·.bars.toNat)).sum hpos
  have hlt := piece.cadenceTick.toNat_lt
  obtain ⟨total, htotal, hsum⟩ := Checked.unsigned32.sum_eq_ok 0 (piece.played.map (·.bars)) (by
    rw [List.map_map]
    show 0 + (piece.played.map (·.bars.toNat)).sum < 2 ^ 32
    omega)
  refine ⟨total, htotal, ?_⟩
  rw [hfinish, hsum, List.map_map]
  show _ = (0 + (piece.played.map (·.bars.toNat)).sum) * barTicks.toNat
  rw [Nat.zero_add]

/-- A voice's track is what the voice plays of each phrase by itself, from the tick of the phrase on,
and then a tone of the closing chord for two bars. -/
structure Piece.Joins (settings : Settings) (octaves : Quartet Int32) (barTicks : UInt32)
    (piece : Piece) (voice : Voice) (track : Track) (solos : List Track) (closing : Tone) : Prop where
  solos_eq : piece.played.map (·.solo settings octaves voice) = solos.map .ok
  start : closing.start = piece.cadenceTick
  finish : closing.finish.toNat = piece.cadenceTick.toNat + 2 * barTicks.toNat
  key : piece.cadence.keyAt (piece.cadenceDegrees.get voice) (octaves.get voice) = .ok closing.key
  velocity : closing.velocity = settings.velocity
  heard : track.heardFrom 0 =
    (List.zipWith (fun solo offset => solo.heardFrom offset.toNat) solos piece.offsets).flatten ++
      closing.events.map (·.heardFrom 0)

/-- A piece repeats its phrases as its form does: each begins when the bars of those before it are
over, and letters that are equal are heard alike. -/
structure Piece.Repeats (form : Word) (settings : Settings) (octaves : Quartet Int32)
    (barTicks : UInt32) (piece : Piece) : Prop where
  octaves_eq : Voice.octaves settings.minOctave = .ok octaves
  barTicks_eq : settings.barTicks = .ok barTicks
  played : piece.played.map some = piece.order.map (piece.phrases[·]?)
  symbols : piece.played.map (·.symbol) = form
  offsets_length : piece.offsets.length = form.length
  offset_eq : ∀ i offset, piece.offsets[i]? = some offset →
    offset.toNat = barTicks.toNat * ((piece.played.take i).map (·.bars.toNat)).sum
  cadenceTick_eq : ∃ total, piece.totalBars = .ok total ∧
    piece.cadenceTick.toNat = total.toNat * barTicks.toNat
  tracks_length : piece.sequence.tracks.length = 4
  tracks : ∀ voice, ∃ track solos closing, piece.sequence.tracks[voice.index]? = some track ∧
    piece.Joins settings octaves barTicks voice track solos closing ∧
    ∀ i j : Nat, form[i]? = form[j]? → solos[i]? = solos[j]?

/-- One phrase is heard in one way wherever it is played. -/
theorem Piece.Joins.solos_getElem?_congr {piece : Piece} {track : Track} {solos : List Track}
    {closing : Tone} (h : piece.Joins settings octaves barTicks voice track solos closing) {i j : Nat}
    (hij : piece.played[i]? = piece.played[j]?) : solos[i]? = solos[j]? := by
  have hsolo (i : Nat) : (solos[i]?).map .ok =
      (piece.played[i]?).map (·.solo settings octaves voice) := by
    rw [← List.getElem?_map, ← h.solos_eq, List.getElem?_map]
  refine Option.map_injective (fun _ _ => Except.ok.inj) ((hsolo i).trans ?_)
  rw [hij, hsolo j]

theorem Piece.Voices.joins {piece : Piece} {tones : List Tone} {closing : Tone} {track : Track}
    (h : piece.Voices settings octaves barTicks voice tones closing) (hvalid : settings.Valid barTicks)
    (hfilled : ∀ phrase ∈ piece.played, phrase.Filled settings barTicks)
    (htrack : track = (tones ++ [closing]).foldl Track.addTone .empty) :
    ∃ solos, piece.Joins settings octaves barTicks voice track solos closing := by
  obtain ⟨solos, hsolos, htones⟩ := h.plays.exists_solos hvalid hfilled
  have hgapless := h.gapless hvalid.power htrack
  refine ⟨solos, hsolos, h.start, h.finish, h.key, h.velocity, ?_⟩
  rw [htrack, Track.heardFrom_line hgapless.line, List.flatMap_append, List.map_append, htones,
    List.flatMap_singleton]

/-- What is composed repeats its phrases exactly. -/
theorem compose_repeats {tonic : PitchClass} {scale : Scale} {form : Word} {settings : Settings}
    {piece : Piece} {r r' : Rng}
    (h : (Chorale.compose tonic scale form settings).run r = (.ok piece, r')) :
    ∃ octaves barTicks, piece.Repeats form settings octaves barTicks := by
  obtain ⟨octaves, barTicks, hvalid, hpiece⟩ := composed_of_run h
  obtain ⟨tracks, hsequence, htracks⟩ := hpiece.tracks
  obtain ⟨_, _, hbass, -⟩ := htracks .bass
  have hfinish := hbass.plays.finish_eq
  have hlength : piece.played.length = form.length := by
    rw [← hpiece.played_symbols, List.length_map]
  refine ⟨octaves, barTicks, {
    octaves_eq := hpiece.octaves_eq
    barTicks_eq := hvalid.barTicks_eq
    played := hpiece.map_some_played
    symbols := hpiece.played_symbols
    offsets_length := hbass.plays.length_offsets.trans hlength
    offset_eq := fun i offset hi => ?_
    cadenceTick_eq := Piece.totalBars_eq_ok hvalid (hfinish.trans (Nat.zero_add _))
    tracks_length := by rw [hsequence]; exact tracks.length_toList
    tracks := fun voice => ?_ }⟩
  · rw [hbass.plays.offset_eq hi, Nat.mul_comm]
    exact Nat.zero_add _
  · obtain ⟨tones, closing, hvoice, htrack⟩ := htracks voice
    obtain ⟨solos, hjoins⟩ := hvoice.joins hvalid hpiece.filled_of_mem_played htrack
    refine ⟨tracks.get voice, solos, closing, ?_, hjoins, fun i j hij => ?_⟩
    · rw [hsequence]
      exact tracks.getElem?_toList voice
    · exact hjoins.solos_getElem?_congr (hpiece.played_getElem?_congr hij)

/-- The first of two phrases is heard twice. -/
theorem compose_repeats_aba : ∃ piece r',
    (Chorale.compose ⟨0⟩ .major ['a', 'b', 'a'] ⟨2, 2, 2, 2, 1, 1, 3, 64, 120⟩).run ⟨1, 2, 3, 4⟩ =
      (.ok piece, r') ∧
    ∃ octaves barTicks, piece.Repeats ['a', 'b', 'a'] ⟨2, 2, 2, 2, 1, 1, 3, 64, 120⟩ octaves
      barTicks := by
  obtain ⟨piece, r', hrun⟩ := exists_compose_aba
  exact ⟨piece, r', hrun, compose_repeats hrun⟩

end Chorale
