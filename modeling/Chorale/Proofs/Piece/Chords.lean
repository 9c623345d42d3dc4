import Chorale.Proofs.Chord.Tones
import Chorale.Proofs.Piece.Composing

/-!
# The chords of a piece

The progression of a piece is dealt out to its phrases, one chord for each quarter note and none left
over (`compose_dealsChords`). Each tick before the closing chord lies in the bars of one phrase played
(`PlayedAt`), and a note that begins there sounds a tone of the phrase's chord for that quarter note
(`Plays.sounds`); the last note of each voice sounds a tone of the closing chord
(`compose_consonant`).
-/

namespace Chorale

variable {settings : Settings} {octaves : Quartet Int32} {barTicks : UInt32} {voice : Voice}

/-! ## Dealing out -/

/-- The phrases have as many bars as the settings allow and a chord for each of their quarter notes;
one after another, in the order of the letters of the form, these are the chords of the
progression. -/
theorem compose_dealsChords {tonic : PitchClass} {scale : Scale} {form : Word} {settings : Settings}
    {piece : Piece} {r r' : Rng}
    (h : (Chorale.compose tonic scale form settings).run r = (.ok piece, r')) :
    (∀ phrase ∈ piece.phrases,
      settings.minPhraseBars ≤ phrase.bars ∧ phrase.bars ≤ settings.maxPhraseBars ∧
        phrase.chords.length = phrase.bars.toNat * settings.quartersPerBar.toNat) ∧
      piece.phrases.map (·.symbol) = form.eraseDups ∧
      Harmony.decode tonic piece.harmony = .ok (piece.phrases.flatMap (·.chords)) ∧
      piece.harmony.length =
        3 * settings.quartersPerBar.toNat * (piece.phrases.map (·.bars.toNat)).sum := by
  obtain ⟨octaves, barTicks, -, hpiece⟩ := composed_of_run h
  refine ⟨fun phrase hmem => ?_, hpiece.symbols, hpiece.harmony, ?_⟩
  · obtain ⟨hlow, hhigh⟩ := hpiece.bars phrase hmem
    exact ⟨hlow, hhigh, (hpiece.filled phrase hmem).chords⟩
  · rw [hpiece.harmony_length, quarterCount_eq, List.map_map, Nat.mul_assoc,
      Nat.mul_comm settings.quartersPerBar.toNat]
    rfl

/-- Both phrases of two bars have four chords. -/
theorem compose_dealsChords_aba : ∃ piece r',
    (Chorale.compose ⟨0⟩ .major ['a', 'b', 'a'] ⟨2, 2, 2, 2, 1, 1, 3, 64, 120⟩).run ⟨1, 2, 3, 4⟩ =
      (.ok piece, r') ∧
    (∀ phrase ∈ piece.phrases, 2 ≤ phrase.bars ∧ phrase.bars ≤ 2 ∧
      phrase.chords.length = phrase.bars.toNat * 2) ∧
    piece.phrases.map (·.symbol) = ['a', 'b', 'a'].eraseDups ∧
    Harmony.decode ⟨0⟩ piece.harmony = .ok (piece.phrases.flatMap (·.chords)) ∧
    piece.harmony.length = 3 * 2 * (piece.phrases.map (·.bars.toNat)).sum := by
  obtain ⟨piece, r', hrun⟩ := exists_compose_aba
  exact ⟨piece, r', hrun, compose_dealsChords hrun⟩

/-! ## The phrase at a tick -/

/-- The phrase that is played in a certain place, from the tick `offset` on, is heard at a tick. -/
structure PlayedAt (barTicks : UInt32) (phrases : List Phrase) (offsets : List UInt32) (place : Nat)
    (phrase : Phrase) (offset : UInt32) (tick : Nat) : Prop where
  phrase_eq : phrases[place]? = some phrase
  offset_eq : offsets[place]? = some offset
  begun : offset.toNat ≤ tick
  lasting : tick < offset.toNat + phrase.bars.toNat * barTicks.toNat

/-- The phrase is the first one or one that is played later. -/
theorem PlayedAt.cases_cons {first phrase : Phrase} {phrases : List Phrase} {start offset : UInt32}
    {offsets : List UInt32} {place tick : Nat}
    (h : PlayedAt barTicks (first :: phrases) (start :: offsets) place phrase offset tick) :
    (phrase = first ∧ offset = start) ∨
      ∃ later, PlayedAt barTicks phrases offsets later phrase offset tick := by
  obtain ⟨hphrase, hoffset, hbegun, hlasting⟩ := h
  cases place with
  | zero => exact .inl ⟨(Option.some.inj hphrase).symm, (Option.some.inj hoffset).symm⟩
  | succ later => exact .inr ⟨later, hphrase, hoffset, hbegun, hlasting⟩

namespace Plays

variable {phrases : List Phrase} {offsets : List UInt32} {start finish offset : UInt32}
  {tones : List Tone} {phrase : Phrase} {place tick : Nat}

/-- Every tick of the phrases lies in one of them. -/
theorem exists_playedAt (h : Plays settings octaves barTicks voice phrases offsets start finish tones)
    (hstart : start.toNat ≤ tick) (hfinish : tick < finish.toNat) :
    ∃ place phrase offset, PlayedAt barTicks phrases offsets place phrase offset tick := by
  induction h with
  | nil => omega
  | @cons first later offsets start next finish _ _ _ hnext _ ih =>
    by_cases htick : tick < next.toNat
    · exact ⟨0, first, start, rfl, rfl, hstart, hnext ▸ htick⟩
    · obtain ⟨place, phrase, offset, hphrase, hoffset, hbegun, hlasting⟩ := ih (by omega) hfinish
      exact ⟨place + 1, phrase, offset, hphrase, hoffset, hbegun, hlasting⟩

/-- No phrase is heard before they begin or after they are over. -/
theorem bounds_of_playedAt
    (h : Plays settings octaves barTicks voice phrases offsets start finish tones)
    (hat : PlayedAt barTicks phrases offsets place phrase offset tick) :
    start.toNat ≤ tick ∧ tick < finish.toNat := by
  induction h generalizing place with
  | nil => cases hat.phrase_eq
  | cons _ hnext rest ih =>
    have hle := rest.line.le
    rcases hat.cases_cons with ⟨rfl, rfl⟩ | ⟨later, hlater⟩
    · have hbegun := hat.begun
      have hlasting := hat.lasting
      omega
    · have hbounds := ih hlater
      omega

/-- A tone that begins in a phrase sounds a tone of its chord for the quarter note. -/
theorem sounds (h : Plays settings octaves barTicks voice phrases offsets start finish tones)
    {tone : Tone} (htone : tone ∈ tones)
    (hat : PlayedAt barTicks phrases offsets place phrase offset tone.start.toNat) :
    ∃ chord, phrase.chords[(tone.start.toNat - offset.toNat) / settings.ticksPerQuarter.toNat]? =
      some chord ∧ chord.Sounds tone.key := by
  induction h generalizing place with
  | nil => simp at htone
  | @cons first later offsets start next finish tones tones' hfirst hnext rest ih =>
    rcases List.mem_append.1 htone with htone | htone
    · have hbounds := hfirst.line.bounds_of_mem htone
      rcases hat.cases_cons with ⟨rfl, rfl⟩ | ⟨_, hlater⟩
      · obtain ⟨i, hi, rfl⟩ := List.getElem_of_mem htone
        have hi' := hfirst.renders.length_eq ▸ hi
        have hrenders := hfirst.renders.get hi' hi
        obtain ⟨chord, degree, hchord, -, hkey⟩ := hrenders.key
        have hstart : tones[i].start.toNat = offset.toNat + _ := hrenders.start
        refine ⟨chord, ?_, Chord.sounds_of_keyAt hkey⟩
        rw [hstart, Nat.add_sub_cancel_left]
        exact hchord
      · have hafter := (rest.bounds_of_playedAt hlater).1
        omega
    · have hbounds := rest.line.bounds_of_mem htone
      rcases hat.cases_cons with ⟨rfl, rfl⟩ | ⟨_, hlater⟩
      · have hlasting := hat.lasting
        omega
      · exact ih htone hlater

end Plays

/-! ## Sounding -/

/-- Every note of a track sounds the chord of the quarter note in which it begins, and the note at
the closing chord that chord. -/
structure Piece.Consonant (settings : Settings) (barTicks : UInt32) (piece : Piece) (closing : Chord)
    (track : Track) : Prop where
  /-- A note that begins in a phrase sounds a tone of the phrase's chord for the quarter note. -/
  phrases : ∀ e ∈ track.events.toList, e.kind = .on → ∀ place phrase offset,
    PlayedAt barTicks piece.played piece.offsets place phrase offset e.tick.toNat →
    ∃ chord, phrase.chords[(e.tick.toNat - offset.toNat) / settings.ticksPerQuarter.toNat]? =
      some chord ∧ chord.Sounds e.key
  /-- There is a note at the closing chord. -/
  closes : ∃ e ∈ track.events.toList, e.kind = .on ∧ e.tick = piece.cadenceTick
  closing : ∀ e ∈ track.events.toList, e.kind = .on → e.tick = piece.cadenceTick →
    closing.Sounds e.key
  /-- There are no other notes. -/
  covered : ∀ e ∈ track.events.toList, e.kind = .on → e.tick = piece.cadenceTick ∨
    ∃ place phrase offset,
      PlayedAt barTicks piece.played piece.offsets place phrase offset e.tick.toNat

theorem Tone.eq_on_of_kind {tone : Tone} {e : NoteEvent} (he : e ∈ tone.events)
    (hkind : e.kind = .on) : e = tone.on := by
  simp only [Tone.events, List.mem_cons, List.not_mem_nil, or_false] at he
  rcases he with rfl | rfl
  · rfl
  · cases hkind

theorem Piece.Voices.consonant {piece : Piece} {tones : List Tone} {closing : Tone} {track : Track}
    (h : piece.Voices settings octaves barTicks voice tones closing)
    (hpower : isPowerOfTwo barTicks.toNat = true)
    (htrack : track = (tones ++ [closing]).foldl Track.addTone .empty) :
    piece.Consonant settings barTicks piece.cadence track := by
  have hevents := (h.gapless hpower htrack).events
  -- A note is begun by a tone of the phrases, before the closing chord, or by the closing tone.
  have hon : ∀ e ∈ track.events.toList, e.kind = .on →
      (∃ tone ∈ tones, e = tone.on ∧ tone.start.toNat < piece.cadenceTick.toNat) ∨
        e = closing.on := by
    intro e he hkind
    rw [hevents, List.mem_flatMap] at he
    obtain ⟨tone, htone, he⟩ := he
    have he := Tone.eq_on_of_kind he hkind
    rcases List.mem_append.1 htone with htone | htone
    · have hbounds := h.plays.line.bounds_of_mem htone
      exact .inl ⟨tone, htone, he, by omega⟩
    · cases List.mem_singleton.1 htone
      exact .inr he
  have hclosing : closing.on.tick = piece.cadenceTick := h.start
  refine ⟨fun e he hkind place phrase offset hat => ?_, ⟨closing.on, ?_, rfl, hclosing⟩,
    fun e he hkind htick => ?_, fun e he hkind => ?_⟩
  · rcases hon e he hkind with ⟨tone, htone, rfl, -⟩ | rfl
    · exact h.plays.sounds htone hat
    · have hbounds := h.plays.bounds_of_playedAt hat
      rw [hclosing] at hbounds
      omega
  · rw [hevents, List.flatMap_append, List.mem_append]
    exact .inr List.mem_cons_self
  · rcases hon e he hkind with ⟨tone, htone, rfl, hlt⟩ | rfl
    · have htick : tone.start = piece.cadenceTick := htick
      rw [htick] at hlt
      omega
    · exact Chord.sounds_of_keyAt h.key
  · rcases hon e he hkind with ⟨tone, htone, rfl, hlt⟩ | rfl
    · exact .inr (h.plays.exists_playedAt (Nat.zero_le _) hlt)
    · exact .inl hclosing

/-- Every note of a composed piece sounds a tone of its chord, which is that of the quarter note in
its phrase or the tonic triad of the scale. -/
theorem compose_consonant {tonic : PitchClass} {scale : Scale} {form : Word} {settings : Settings}
    {piece : Piece} {r r' : Rng}
    (h : (Chorale.compose tonic scale form settings).run r = (.ok piece, r')) :
    ∃ barTicks, settings.barTicks = .ok barTicks ∧
      piece.played.map some = piece.order.map (piece.phrases[·]?) ∧
      piece.sequence.tracks.length = 4 ∧
      ∀ track ∈ piece.sequence.tracks,
        piece.Consonant settings barTicks ⟨tonic, scale.tonicQuality⟩ track := by
  obtain ⟨octaves, barTicks, hvalid, hpiece⟩ := composed_of_run h
  obtain ⟨tracks, hsequence, htracks⟩ := hpiece.tracks
  refine ⟨barTicks, hvalid.barTicks_eq, hpiece.map_some_played, ?_, ?_⟩
  · rw [hsequence]
    exact tracks.length_toList
  · rw [hsequence, ← hpiece.cadence_eq]
    intro track hmem
    obtain ⟨voice, rfl⟩ := Quartet.exists_get_of_mem hmem
    obtain ⟨tones, closing, hvoice, htrack⟩ := htracks voice
    exact hvoice.consonant hvalid.power htrack

/-- Two phrases of two bars with the first one played again, in C major. -/
theorem compose_consonant_aba : ∃ piece r',
    (Chorale.compose ⟨0⟩ .major ['a', 'b', 'a'] ⟨2, 2, 2, 2, 1, 1, 3, 64, 120⟩).run ⟨1, 2, 3, 4⟩ =
      (.ok piece, r') ∧
    ∃ barTicks, Settings.barTicks ⟨2, 2, 2, 2, 1, 1, 3, 64, 120⟩ = .ok barTicks ∧
      piece.played.map some = piece.order.map (piece.phrases[·]?) ∧
      piece.sequence.tracks.length = 4 ∧
      ∀ track ∈ piece.sequence.tracks,
        piece.Consonant ⟨2, 2, 2, 2, 1, 1, 3, 64, 120⟩ barTicks ⟨⟨0⟩, .major⟩ track := by
  obtain ⟨piece, r', hrun⟩ := exists_compose_aba
  exact ⟨piece, r', hrun, compose_consonant hrun⟩

end Chorale
