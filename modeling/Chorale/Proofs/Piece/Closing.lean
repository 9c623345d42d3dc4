import Chorale.Proofs.Piece.Chords

/-!
# How a piece closes

The progression of a piece ends with two dominant chords, which are dealt out to the phrase that the
form brings in last. What is heard before the closing chord is the end of the phrase played last
(`Plays.exists_last`), so that a piece closes with two dominants and the tonic if these are the same
phrase (`compose_closes`). A form that ends with a phrase it had before need not close in this way
(`compose_not_dominant`).
-/

namespace Chorale

variable {settings : Settings} {octaves : Quartet Int32} {barTicks : UInt32} {voice : Voice}

/-! ## The chord at a tick -/

/-- A chord is that of the quarter note at a tick, in a phrase that is played there. -/
def Piece.Carries (settings : Settings) (barTicks : UInt32) (piece : Piece) (tick : Nat)
    (chord : Chord) : Prop :=
  ∃ place phrase offset, PlayedAt barTicks piece.played piece.offsets place phrase offset tick ∧
    phrase.chords[(tick - offset.toNat) / settings.ticksPerQuarter.toNat]? = some chord

/-- Two chords, and no others, are those of the last two quarter notes before the closing chord. -/
structure Piece.EndsWith (settings : Settings) (barTicks : UInt32) (piece : Piece)
    (first second : Chord) : Prop where
  /-- There are two quarter notes before the closing chord. -/
  long : 2 * settings.ticksPerQuarter.toNat ≤ piece.cadenceTick.toNat
  first : ∀ tick, piece.cadenceTick.toNat ≤ tick + 2 * settings.ticksPerQuarter.toNat →
    tick + settings.ticksPerQuarter.toNat < piece.cadenceTick.toNat →
    ∀ chord, piece.Carries settings barTicks tick chord ↔ chord = first
  second : ∀ tick, piece.cadenceTick.toNat ≤ tick + settings.ticksPerQuarter.toNat →
    tick < piece.cadenceTick.toNat →
    ∀ chord, piece.Carries settings barTicks tick chord ↔ chord = second

/-- The last two chords are given by what is carried. -/
theorem Piece.EndsWith.unique {piece : Piece} {first first' second second' : Chord}
    (h : piece.EndsWith settings barTicks first second)
    (h' : piece.EndsWith settings barTicks first' second')
    (hticks : 0 < settings.ticksPerQuarter.toNat) : first = first' ∧ second = second' := by
  have hlong := h.long
  have hfirst := h.first (piece.cadenceTick.toNat - 2 * settings.ticksPerQuarter.toNat) (by omega)
    (by omega)
  have hfirst' := h'.first (piece.cadenceTick.toNat - 2 * settings.ticksPerQuarter.toNat) (by omega)
    (by omega)
  have hsecond := h.second (piece.cadenceTick.toNat - settings.ticksPerQuarter.toNat) (by omega)
    (by omega)
  have hsecond' := h'.second (piece.cadenceTick.toNat - settings.ticksPerQuarter.toNat) (by omega)
    (by omega)
  exact ⟨(hfirst' first).1 ((hfirst first).2 rfl), (hsecond' second).1 ((hsecond second).2 rfl)⟩

namespace Plays

variable {phrases : List Phrase} {offsets : List UInt32} {start finish : UInt32} {tones : List Tone}

/-- No two phrases are heard at one tick. -/
theorem playedAt_unique
    (h : Plays settings octaves barTicks voice phrases offsets start finish tones)
    {place place' tick : Nat} {phrase phrase' : Phrase} {offset offset' : UInt32}
    (hat : PlayedAt barTicks phrases offsets place phrase offset tick)
    (hat' : PlayedAt barTicks phrases offsets place' phrase' offset' tick) :
    phrase = phrase' ∧ offset = offset' := by
  induction h generalizing place place' with
  | nil => cases hat.phrase_eq
  | cons _ hnext rest ih =>
    have hlasting := hat.lasting
    have hlasting' := hat'.lasting
    rcases hat.cases_cons with ⟨rfl, rfl⟩ | ⟨later, hlater⟩ <;>
      rcases hat'.cases_cons with ⟨rfl, rfl⟩ | ⟨later', hlater'⟩
    · exact ⟨rfl, rfl⟩
    · have hbounds := rest.bounds_of_playedAt hlater'
      omega
    · have hbounds := rest.bounds_of_playedAt hlater
      omega
    · exact ih hlater hlater'

/-- The last phrase is heard up to the end. -/
theorem exists_last
    (h : Plays settings octaves barTicks voice phrases offsets start finish tones) {last : Phrase}
    (hlast : phrases.getLast? = some last) :
    ∃ offset : UInt32, offset.toNat + last.bars.toNat * barTicks.toNat = finish.toNat ∧
      ∀ tick, offset.toNat ≤ tick → tick < finish.toNat →
        ∃ place, PlayedAt barTicks phrases offsets place last offset tick := by
  induction h with
  | nil => cases hlast
  | @cons first later offsets start next finish _ _ _ hnext rest ih =>
    cases later with
    | nil =>
      cases hlast
      cases rest
      exact ⟨start, hnext.symm, fun tick hbegun hover => ⟨0, rfl, rfl, hbegun, hnext ▸ hover⟩⟩
    | cons second later =>
      obtain ⟨offset, hfinish, hat⟩ := ih hlast
      refine ⟨offset, hfinish, fun tick hbegun hover => ?_⟩
      obtain ⟨place, hphrase, hoffset, hbegun, hlasting⟩ := hat tick hbegun hover
      exact ⟨place + 1, hphrase, hoffset, hbegun, hlasting⟩

end Plays

/-! ## The last chords -/

theorem exists_last_two {α : Type} {l : List α} (h : 2 ≤ l.length) :
    ∃ before first second, l = before ++ [first, second] := by
  have hdrop : (l.drop (l.length - 2)).length = 2 := by rw [List.length_drop]; omega
  obtain ⟨first, second, hlast⟩ := List.length_eq_two.1 hdrop
  refine ⟨l.take (l.length - 2), first, second, ?_⟩
  rw [← hlast, List.take_append_drop]

namespace Piece.Composed

variable {tonic : PitchClass} {scale : Scale} {form : Word} {piece : Piece}

/-- There are two chords for every phrase, or more. -/
theorem two_le_length_chords (h : piece.Composed tonic scale form settings octaves barTicks)
    (hvalid : settings.Valid barTicks) {phrase : Phrase} (hmem : phrase ∈ piece.phrases) :
    2 ≤ phrase.chords.length := by
  have hbars : ∀ bars ∈ [phrase.bars], settings.minPhraseBars ≤ bars := fun bars hbars =>
    List.mem_singleton.1 hbars ▸ (h.bars phrase hmem).1
  have hcount := (quarterCount_bounds hvalid (List.cons_ne_nil phrase.bars []) hbars).1
  rw [quarterCount_cons, quarterCount_nil, Nat.add_zero] at hcount
  rw [(h.filled phrase hmem).chords]
  exact hcount

/-- The last phrase played is the one in the last place of the order. -/
theorem exists_last_played (h : piece.Composed tonic scale form settings octaves barTicks)
    (hform : form ≠ []) : ∃ place last, piece.order.getLast? = some place ∧
      piece.phrases[place]? = some last ∧ piece.played.getLast? = some last := by
  have horder : piece.order ≠ [] := by
    rw [h.order_eq]
    exact mt List.map_eq_nil_iff.1 hform
  obtain ⟨place, hplace⟩ := Option.isSome_iff_exists.1 (List.getLast?_isSome.2 horder)
  have hmap := congrArg List.getLast? h.map_some_played
  rw [List.getLast?_map, List.getLast?_map, hplace, Option.map_some, Option.map_eq_some_iff] at hmap
  obtain ⟨last, hplayed, hlast⟩ := hmap
  exact ⟨place, last, hplace, hlast.symm, hplayed⟩

/-- The phrase that the form brings in last ends with two dominant chords. -/
theorem exists_last_phrase (h : piece.Composed tonic scale form settings octaves barTicks)
    (hvalid : settings.Valid barTicks) (hform : form ≠ []) :
    ∃ final before, piece.phrases.getLast? = some final ∧
      final.chords = before ++ [⟨tonic.above 7, .major⟩, ⟨tonic.above 7, .major⟩] := by
  have hphrases : piece.phrases ≠ [] := by
    obtain ⟨place, last, -, hlast, -⟩ := h.exists_last_played hform
    exact List.ne_nil_of_mem (List.mem_of_getElem? hlast)
  obtain ⟨final, hfinal⟩ := Option.isSome_iff_exists.1 (List.getLast?_isSome.2 hphrases)
  obtain ⟨earlier, hearlier⟩ := List.getLast?_eq_some_iff.1 hfinal
  obtain ⟨chords, hchords⟩ := h.closes
  have hsuffix : final.chords <:+ piece.phrases.flatMap (·.chords) := by
    rw [hearlier, List.flatMap_append, List.flatMap_singleton]
    exact List.suffix_append _ _
  have hlength := h.two_le_length_chords hvalid (List.mem_of_getLast? hfinal)
  obtain ⟨before, hbefore⟩ :=
    List.suffix_of_suffix_length_le ⟨chords, hchords.symm⟩ hsuffix hlength
  exact ⟨final, before, hfinal, hbefore.symm⟩

/-- The last two chords of the phrase played last are those heard before the closing chord. -/
theorem endsWith (h : piece.Composed tonic scale form settings octaves barTicks)
    (hvalid : settings.Valid barTicks) {last : Phrase} (hlast : piece.played.getLast? = some last)
    {before : List Chord} {first second : Chord} (hchords : last.chords = before ++ [first, second]) :
    piece.EndsWith settings barTicks first second := by
  obtain ⟨_, -, htracks⟩ := h.tracks
  obtain ⟨tones, closing, hvoice, -⟩ := htracks .bass
  obtain ⟨offset, hfinish, hat⟩ := hvoice.plays.exists_last hlast
  have hticks := (h.filled_of_mem_played last (List.mem_of_getLast? hlast)).ticks hvalid
  have hpos : 0 < settings.ticksPerQuarter.toNat :=
    Nat.pos_of_ne_zero fun hzero => hvalid.resolution (UInt32.toNat_inj.1 hzero)
  rw [hchords, List.length_append, show [first, second].length = 2 from rfl, Nat.add_mul] at hticks
  -- In the last phrase a chord is carried if it is that of the quarter note.
  have hcarries {tick i : Nat} (hbegun : offset.toNat ≤ tick)
      (hover : tick < piece.cadenceTick.toNat)
      (hquarter : (tick - offset.toNat) / settings.ticksPerQuarter.toNat = before.length + i)
      (chord : Chord) :
      piece.Carries settings barTicks tick chord ↔ [first, second][i]? = some chord := by
    have hget : [first, second][i]? =
        last.chords[(tick - offset.toNat) / settings.ticksPerQuarter.toNat]? := by
      rw [hquarter, hchords, List.getElem?_append_right (Nat.le_add_right _ _),
        Nat.add_sub_cancel_left]
    rw [hget]
    obtain ⟨place, hplayed⟩ := hat tick hbegun hover
    constructor
    · rintro ⟨place', phrase, offset', hplayed', hchord⟩
      obtain ⟨rfl, rfl⟩ := hvoice.plays.playedAt_unique hplayed hplayed'
      exact hchord
    · intro hchord
      exact ⟨place, last, offset, hplayed, hchord⟩
  refine ⟨by omega, fun tick hlow hhigh chord => ?_, fun tick hlow hhigh chord => ?_⟩
  · have hquarter : (tick - offset.toNat) / settings.ticksPerQuarter.toNat = before.length + 0 :=
      Nat.div_eq_of_lt_le (by rw [Nat.add_zero]; omega) (by rw [Nat.succ_mul]; omega)
    rw [hcarries (by omega) (by omega) hquarter]
    exact ⟨fun e => (Option.some.inj e).symm, fun e => congrArg some e.symm⟩
  · have hquarter : (tick - offset.toNat) / settings.ticksPerQuarter.toNat = before.length + 1 :=
      Nat.div_eq_of_lt_le (by rw [Nat.succ_mul]; omega) (by rw [Nat.succ_mul, Nat.succ_mul]; omega)
    rw [hcarries (by omega) hhigh hquarter]
    exact ⟨fun e => (Option.some.inj e).symm, fun e => congrArg some e.symm⟩

end Piece.Composed

/-! ## Closing -/

/-- Before the closing chord, which is the tonic triad of the scale, the last two chords of the
phrase played last are heard. The last two chords of the phrase that the form brings in last are
dominant, so if this is the phrase played last, the piece closes with two dominants and the tonic. -/
theorem compose_closes {tonic : PitchClass} {scale : Scale} {form : Word} {settings : Settings}
    {piece : Piece} {r r' : Rng}
    (h : (Chorale.compose tonic scale form settings).run r = (.ok piece, r')) :
    ∃ barTicks, settings.barTicks = .ok barTicks ∧
      (∃ place last before first second, piece.order.getLast? = some place ∧
        piece.phrases[place]? = some last ∧ last.chords = before ++ [first, second] ∧
        piece.EndsWith settings barTicks first second) ∧
      (∃ final before, piece.phrases.getLast? = some final ∧
        final.chords = before ++ [⟨tonic.above 7, .major⟩, ⟨tonic.above 7, .major⟩]) ∧
      (piece.order.getLast? = some (piece.phrases.length - 1) →
        piece.EndsWith settings barTicks ⟨tonic.above 7, .major⟩ ⟨tonic.above 7, .major⟩) ∧
      piece.cadence = ⟨tonic, scale.tonicQuality⟩ := by
  have hform := form_ne_nil_of_run h
  obtain ⟨octaves, barTicks, hvalid, hpiece⟩ := composed_of_run h
  obtain ⟨place, last, hplace, hlast, hplayed⟩ := hpiece.exists_last_played hform
  have hlength := hpiece.two_le_length_chords hvalid (List.mem_of_getElem? hlast)
  obtain ⟨before, first, second, hchords⟩ := exists_last_two hlength
  obtain ⟨final, before', hfinal, hdominant⟩ := hpiece.exists_last_phrase hvalid hform
  refine ⟨barTicks, hvalid.barTicks_eq, ⟨place, last, before, first, second, hplace, hlast, hchords,
    hpiece.endsWith hvalid hplayed hchords⟩, ⟨final, before', hfinal, hdominant⟩, ?_,
    hpiece.cadence_eq⟩
  intro hsame
  cases hplace.symm.trans hsame
  rw [← List.getLast?_eq_getElem?] at hlast
  cases hlast.symm.trans hfinal
  exact hpiece.endsWith hvalid hplayed hdominant

/-- Two phrases of two bars, with the first one played again. -/
theorem compose_closes_aba : ∃ piece r',
    (Chorale.compose ⟨0⟩ .major ['a', 'b', 'a'] ⟨2, 2, 2, 2, 1, 1, 3, 64, 120⟩).run ⟨1, 2, 3, 4⟩ =
      (.ok piece, r') ∧
    ∃ barTicks, Settings.barTicks ⟨2, 2, 2, 2, 1, 1, 3, 64, 120⟩ = .ok barTicks ∧
      (∃ place last before first second, piece.order.getLast? = some place ∧
        piece.phrases[place]? = some last ∧ last.chords = before ++ [first, second] ∧
        piece.EndsWith ⟨2, 2, 2, 2, 1, 1, 3, 64, 120⟩ barTicks first second) ∧
      (∃ final before, piece.phrases.getLast? = some final ∧
        final.chords = before ++ [⟨⟨7⟩, .major⟩, ⟨⟨7⟩, .major⟩]) ∧
      (piece.order.getLast? = some (piece.phrases.length - 1) →
        piece.EndsWith ⟨2, 2, 2, 2, 1, 1, 3, 64, 120⟩ barTicks ⟨⟨7⟩, .major⟩ ⟨⟨7⟩, .major⟩) ∧
      piece.cadence = ⟨⟨0⟩, .major⟩ := by
  obtain ⟨piece, r', hrun⟩ := exists_compose_aba
  exact ⟨piece, r', hrun, compose_closes hrun⟩

/-- If the first of two phrases is played again, the piece need not close with a dominant: here both
chords before the closing one are the tonic. -/
theorem compose_not_dominant : ∃ piece r',
    Settings.check ⟨2, 2, 1, 1, 1, 1, 3, 64, 120⟩ = .ok () ∧
    (Chorale.compose ⟨0⟩ .major ['a', 'b', 'a'] ⟨2, 2, 1, 1, 1, 1, 3, 64, 120⟩).run (.ofSeed 1) =
      (.ok piece, r') ∧
    (∃ place last, piece.order.getLast? = some place ∧ piece.phrases[place]? = some last ∧
      last.chords = [⟨⟨0⟩, .major⟩, ⟨⟨0⟩, .major⟩]) ∧
    ∀ barTicks, Settings.barTicks ⟨2, 2, 1, 1, 1, 1, 3, 64, 120⟩ = .ok barTicks →
      ¬ piece.EndsWith ⟨2, 2, 1, 1, 1, 1, 3, 64, 120⟩ barTicks ⟨PitchClass.above ⟨0⟩ 7, .major⟩
        ⟨PitchClass.above ⟨0⟩ 7, .major⟩ := by
  have hlast : ((Chorale.compose ⟨0⟩ .major ['a', 'b', 'a'] ⟨2, 2, 1, 1, 1, 1, 3, 64, 120⟩).run
      (.ofSeed 1)).1.toOption.map (fun piece => piece.played.getLast?.map (·.chords)) =
        some (some [⟨⟨0⟩, .major⟩, ⟨⟨0⟩, .major⟩]) := by
    decide +kernel
  rcases hrun : (Chorale.compose ⟨0⟩ .major ['a', 'b', 'a'] ⟨2, 2, 1, 1, 1, 1, 3, 64, 120⟩).run
      (.ofSeed 1) with ⟨e | piece, r'⟩
  · rw [hrun] at hlast
    cases hlast
  rw [hrun] at hlast
  have hlast : piece.played.getLast?.map (·.chords) = some [⟨⟨0⟩, .major⟩, ⟨⟨0⟩, .major⟩] :=
    Option.some.inj hlast
  obtain ⟨octaves, barTicks, hvalid, hpiece⟩ := composed_of_run hrun
  obtain ⟨place, last, hplace, hphrase, hplayed⟩ := hpiece.exists_last_played (by decide)
  rw [hplayed] at hlast
  have hchords : last.chords = [] ++ [⟨⟨0⟩, .major⟩, ⟨⟨0⟩, .major⟩] := Option.some.inj hlast
  refine ⟨piece, r', Settings.check_eq_ok_iff.2 ⟨barTicks, hvalid⟩, rfl,
    ⟨place, last, hplace, hphrase, hchords⟩, fun barTicks' hbar hends => ?_⟩
  cases hvalid.barTicks_eq.symm.trans hbar
  have hsame := (hpiece.endsWith hvalid hplayed hchords).unique hends (by decide)
  exact absurd hsame.1 (by decide)

end Chorale
