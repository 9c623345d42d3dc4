import Chorale.Proofs.Chord.Tones
import Chorale.Proofs.Draw.Agree
import Chorale.Proofs.Piece.Composing
import Mathlib.Data.Int.ModEq

/-!
# Pieces composed side by side

Two pieces that are composed from one state of the generator, under settings that draw alike
(`Settings.DrawsAlike`) and after forms of as many letters, are alike phrase by phrase: chance gives
both the same lengths, progression, melodies and closing degrees, and leaves one state
(`Agree.compose`). Their chords are as far apart as their tonics (`Chord.Alike`), and phrases alike
that are played in one order are tones that sound together on each track (`Plays.alike`).
-/

namespace Chorale

variable {tonic tonic' : PitchClass} {settings settings' : Settings}

/-! ## Chords -/

/-- Two chords of one quality, whose roots are as far apart as two tonics. -/
structure Chord.Alike (tonic tonic' : PitchClass) (chord chord' : Chord) : Prop where
  quality : chord.quality = chord'.quality
  root : chord.root.height - chord'.root.height ≡ tonic.height - tonic'.height [ZMOD 12]

namespace Chord.Alike

variable {chord chord' : Chord}

/-- A token is read alike in two keys. -/
theorem of_token (tonic tonic' : PitchClass) (token : Harmony.Token) :
    Alike tonic tonic' (token.chord tonic) (token.chord tonic') where
  quality := rfl
  root := by
    simp only [Harmony.Token.chord, PitchClass.above, PitchClass.height_ofInt, Int.ModEq]
    omega

/-- So are the chords on the tonics themselves. -/
theorem of_tonic (tonic tonic' : PitchClass) (quality : Quality) :
    Alike tonic tonic' ⟨tonic, quality⟩ ⟨tonic', quality⟩ := ⟨rfl, .refl _⟩

/-- Chords that are alike over one tonic are equal. -/
theorem eq (h : Alike tonic tonic chord chord') : chord = chord' := by
  obtain ⟨⟨root, hlt⟩, quality⟩ := chord
  obtain ⟨⟨root', hlt'⟩, quality'⟩ := chord'
  have hroot : ((root : Nat) : Int) - (root' : Nat) ≡ 0 [ZMOD 12] := by
    have := h.root
    rwa [sub_self] at this
  have hroot : root = root' := by
    unfold Int.ModEq at hroot
    omega
  cases hroot
  cases h.quality
  rfl

/-- The keys of one degree are as far apart as the tonics, but for octaves. -/
theorem key (h : Alike tonic tonic' chord chord') {degree octave octave' : Int32} {key key' : UInt8}
    (hkey : chord.keyAt degree octave = .ok key) (hkey' : chord'.keyAt degree octave' = .ok key') :
    (key.toNat : Int) - key'.toNat ≡ tonic.height - tonic'.height [ZMOD 12] := by
  obtain ⟨-, hmod⟩ := keyAt_eq_ok hkey
  obtain ⟨-, hmod'⟩ := keyAt_eq_ok hkey'
  have hroot := h.root
  rw [← h.quality] at hmod'
  unfold Int.ModEq at hroot ⊢
  omega

end Chord.Alike

/-- A progression is read alike in two keys. -/
theorem Agree.decodeFrom (tonic tonic' : PitchClass) (position : Nat) (w : Word) :
    Checked.Agree (Harmony.decodeFrom tonic position w) (Harmony.decodeFrom tonic' position w)
      (List.Forall₂ (Chord.Alike tonic tonic')) := by
  fun_induction Harmony.decodeFrom tonic position w with
  | case1 position =>
    rw [Harmony.decodeFrom]
    exact .ok .nil
  | case2 position a b c rest token htoken ih =>
    rw [Harmony.decodeFrom, htoken]
    exact .bind (ih.mono fun chords chords' hrest => .ok (.cons (.of_token _ _ token) hrest))
  | case3 => exact .error
  | case4 => exact .error

/-! ## What is left to chance -/

/-- Settings that agree in all that a draw depends on: they may differ in the octave of the voices,
the velocity and the tempo. -/
structure Settings.DrawsAlike (settings settings' : Settings) : Prop where
  ticksPerQuarter : settings.ticksPerQuarter = settings'.ticksPerQuarter
  quartersPerBar : settings.quartersPerBar = settings'.quartersPerBar
  minPhraseBars : settings.minPhraseBars = settings'.minPhraseBars
  maxPhraseBars : settings.maxPhraseBars = settings'.maxPhraseBars
  minGrowth : settings.minGrowth = settings'.minGrowth
  maxGrowth : settings.maxGrowth = settings'.maxGrowth

namespace Settings.DrawsAlike

theorem refl (settings : Settings) : settings.DrawsAlike settings := ⟨rfl, rfl, rfl, rfl, rfl, rfl⟩

variable (h : settings.DrawsAlike settings')

include h

theorem barTicks : settings.barTicks = settings'.barTicks := by
  rw [Settings.barTicks, Settings.barTicks, h.ticksPerQuarter, h.quartersPerBar]

theorem composeLength : composeLength settings = composeLength settings' := by
  rw [Chorale.composeLength, Chorale.composeLength, h.minPhraseBars, h.maxPhraseBars]

theorem composeMelody : composeMelody settings = composeMelody settings' := by
  funext grammar
  rw [Chorale.composeMelody, Chorale.composeMelody, h.minGrowth, h.maxGrowth]

theorem composeMelodies (bars barTicks : UInt32) :
    composeMelodies settings bars barTicks = composeMelodies settings' bars barTicks := by
  rw [Chorale.composeMelodies, Chorale.composeMelodies, h.composeMelody]

end Settings.DrawsAlike

/-- Two phrases of one length and with the same melodies, whose chords are alike. -/
structure Phrase.Alike (tonic tonic' : PitchClass) (phrase phrase' : Phrase) : Prop where
  bars : phrase.bars = phrase'.bars
  melodies : phrase.melodies = phrase'.melodies
  chords : List.Forall₂ (Chord.Alike tonic tonic') phrase.chords phrase'.chords

/-- Two pieces that chance has made alike. -/
structure Piece.Alike (tonic tonic' : PitchClass) (piece piece' : Piece) : Prop where
  harmony : piece.harmony = piece'.harmony
  phrases : List.Forall₂ (Phrase.Alike tonic tonic') piece.phrases piece'.phrases
  cadenceDegrees : piece.cadenceDegrees = piece'.cadenceDegrees

namespace Agree

theorem composePhrases (h : settings.DrawsAlike settings') (barTicks : UInt32)
    {items items' : List (Char × UInt32)} (hitems : items.map (·.2) = items'.map (·.2))
    {chords chords' : List Chord} (hchords : List.Forall₂ (Chord.Alike tonic tonic') chords chords') :
    Draw.Agree (composePhrases settings barTicks items chords)
      (composePhrases settings' barTicks items' chords')
      (List.Forall₂ (Phrase.Alike tonic tonic')) := by
  induction items generalizing items' chords chords' with
  | nil =>
    cases items' with
    | nil => exact .pure .nil
    | cons => cases hitems
  | cons item later ih =>
    obtain ⟨symbol, bars⟩ := item
    cases items' with
    | nil => cases hitems
    | cons item' later' =>
      obtain ⟨symbol', bars'⟩ := item'
      rw [List.map_cons, List.map_cons, List.cons.injEq] at hitems
      obtain ⟨rfl, hlater⟩ := hitems
      rw [Chorale.composePhrases, Chorale.composePhrases, h.composeMelodies, h.quartersPerBar]
      refine .bind (.mono (.self _) ?_)
      rintro melodies _ rfl
      refine .bind (.mono (ih hlater (List.forall₂_drop _ hchords)) fun phrases phrases' hrest => ?_)
      exact .pure (.cons ⟨rfl, rfl, List.forall₂_take _ hchords⟩ hrest)

theorem closeVoice {barTicks barTicks' : UInt32} (cadence cadence' : Chord) (octave octave' : Int32)
    (offset offset' : UInt32) (track track' : Track) :
    Draw.Agree (closeVoice settings barTicks cadence octave offset track)
      (closeVoice settings' barTicks' cadence' octave' offset' track') fun closed closed' =>
        closed.1 = closed'.1 := by
  refine .bind (.mono (.self _) ?_)
  rintro tone _ rfl
  refine .bind (.lift (.mono (.any _ _) fun _ _ _ => ?_))
  refine .bind (.lift (.mono (.any _ _) fun _ _ _ => ?_))
  exact .bind (.lift (.mono (.any _ _) fun _ _ _ => .pure rfl))

/-- What is drawn for each element of a list depends on their number alone. -/
theorem mapM_const {α β γ : Type} {l : List α} {l' : List β} (h : l.length = l'.length) (x : Draw γ) :
    l.mapM (fun _ => x) = l'.mapM fun _ => x := by
  induction l generalizing l' with
  | nil => rw [List.eq_nil_of_length_eq_zero h.symm, List.mapM_nil, List.mapM_nil]
  | cons _ l ih =>
    obtain ⟨_, l', rfl⟩ := List.exists_cons_of_length_eq_add_one h.symm
    rw [List.mapM_cons, List.mapM_cons, ih (Nat.succ.inj h)]

theorem map_snd_zip_congr {α β γ : Type} {l : List α} {l' : List β} (h : l.length = l'.length)
    (k : List γ) : (l.zip k).map (·.2) = (l'.zip k).map (·.2) := by
  induction l generalizing l' k with
  | nil => rw [List.eq_nil_of_length_eq_zero h.symm]; rfl
  | cons _ l ih =>
    obtain ⟨_, l', rfl⟩ := List.exists_cons_of_length_eq_add_one h.symm
    cases k with
    | nil => rfl
    | cons c k =>
      rw [List.zip_cons_cons, List.zip_cons_cons, List.map_cons, List.map_cons, ih (Nat.succ.inj h)]

theorem ofWord {form form' : Word} (hletters : form.eraseDups.length = form'.eraseDups.length) :
    Checked.Agree (Form.ofWord form) (Form.ofWord form') fun analysis analysis' =>
      analysis.symbols.length = analysis'.symbols.length :=
  ⟨fun h h' => by rwa [Form.symbols_of_ofWord h, Form.symbols_of_ofWord h']⟩

/-- Chance depends neither on the key nor on the octave, velocity and tempo, and of a form only on
the number of its letters. -/
theorem compose (h : settings.DrawsAlike settings') (tonic tonic' : PitchClass) (scale : Scale)
    {form form' : Word} (hletters : form.eraseDups.length = form'.eraseDups.length) :
    Draw.Agree (Chorale.compose tonic scale form settings)
      (Chorale.compose tonic' scale form' settings') (Piece.Alike tonic tonic') := by
  refine .bind (.lift (.mono (.any _ _) fun _ _ _ => ?_))
  refine .bind (.lift (.mono (ofWord hletters) fun analysis analysis' hsymbols => ?_))
  refine .bind (.lift (.mono (.any _ _) fun octaves octaves' _ => ?_))
  rw [h.barTicks]
  refine .bind (.lift (.mono (.self _) ?_))
  rintro barTicks _ rfl
  rw [h.composeLength, mapM_const hsymbols]
  refine .bind (.mono (.self _) ?_)
  rintro lengths _ rfl
  refine .bind (.lift (.mono (.self _) ?_))
  rintro totalBars _ rfl
  rw [h.quartersPerBar]
  refine .bind (.lift (.mono (.self _) ?_))
  rintro quarters _ rfl
  refine .bind (.lift (.mono (.self _) ?_))
  rintro required _ rfl
  refine .bind (.mono (.self _) ?_)
  rintro ⟨outcome, grammar⟩ _ rfl
  refine .bind (.lift (.mono (.self _) ?_))
  rintro harmony _ rfl
  refine .bind (.lift (.mono (decodeFrom tonic tonic' 0 harmony) fun chords chords' hchords => ?_))
  have hitems := map_snd_zip_congr hsymbols lengths
  refine .bind (.mono (composePhrases h barTicks hitems hchords) fun phrases phrases' hphrases => ?_)
  refine .bind (.lift (.mono (.any _ _) fun played played' _ => ?_))
  refine .bind (.mono (.collect fun voice => closeVoice _ _ _ _ _ _ _ _) ?_)
  intro closing closing' hclosing
  refine .pure ⟨rfl, hphrases, Quartet.ext_get fun voice => ?_⟩
  rw [Quartet.get_map, Quartet.get_map]
  exact hclosing voice

end Agree

/-! ## What is heard -/

/-- Two tones that sound together, on keys that are alike. -/
structure Tone.Alike (sameKey : UInt8 → UInt8 → Prop) (tone tone' : Tone) : Prop where
  start : tone.start = tone'.start
  finish : tone.finish = tone'.finish
  key : sameKey tone.key tone'.key

variable {octaves octaves' : Quartet Int32} {barTicks : UInt32} {voice : Voice}

/-- The keys of chords that are alike are alike, degree by degree, in the octaves of a voice. -/
def KeysAlike (tonic tonic' : PitchClass) (octave octave' : Int32) (sameKey : UInt8 → UInt8 → Prop) :
    Prop :=
  ∀ ⦃chord chord' : Chord⦄ ⦃degree : Int32⦄ ⦃key key' : UInt8⦄, chord.Alike tonic tonic' chord' →
    chord.keyAt degree octave = .ok key → chord'.keyAt degree octave' = .ok key' → sameKey key key'

variable {sameKey : UInt8 → UInt8 → Prop}

/-- One note is heard alike in two parts that differ in the key and the octave. -/
theorem Melody.Part.Renders.alike {part part' : Part} {note : Note} {tone tone' : Tone}
    (h : part.Renders note tone) (h' : part'.Renders note tone')
    (hkeys : KeysAlike tonic tonic' part.octave part'.octave sameKey)
    (hchords : List.Forall₂ (Chord.Alike tonic tonic') part.chords part'.chords)
    (hoffset : part.offset = part'.offset)
    (hticks : part.ticksPerQuarter = part'.ticksPerQuarter) : tone.Alike sameKey tone' := by
  obtain ⟨chord, degree, hchord, hdegree, hkey⟩ := h.key
  obtain ⟨chord', degree', hchord', hdegree', hkey'⟩ := h'.key
  have hquarter : part.quarter note = part'.quarter note := by rw [quarter, quarter, hticks]
  have hstart : tone.start = tone'.start := by
    rw [← UInt32.toNat_inj, h.start, h'.start, hoffset]
  refine ⟨hstart, ?_, ?_⟩
  · rw [← UInt32.toNat_inj, h.finish, h'.finish, hstart]
  · rw [← hquarter] at hchord'
    obtain ⟨hlt, rfl⟩ := List.getElem?_eq_some_iff.1 hchord
    obtain ⟨hlt', rfl⟩ := List.getElem?_eq_some_iff.1 hchord'
    cases Int32.toInt_inj.1 (hdegree.trans hdegree'.symm)
    exact hkeys (hchords.get hlt hlt') hkey hkey'

/-- So are the notes of a melody, one by one. -/
theorem Melody.Part.alike_of_renders {part part' : Part} {notes : List Note} {tones tones' : List Tone}
    (h : List.Forall₂ part.Renders notes tones) (h' : List.Forall₂ part'.Renders notes tones')
    (hkeys : KeysAlike tonic tonic' part.octave part'.octave sameKey)
    (hchords : List.Forall₂ (Chord.Alike tonic tonic') part.chords part'.chords)
    (hoffset : part.offset = part'.offset)
    (hticks : part.ticksPerQuarter = part'.ticksPerQuarter) :
    List.Forall₂ (Tone.Alike sameKey) tones tones' := by
  induction h generalizing tones' with
  | nil => cases h'; exact .nil
  | cons htone _ ih =>
    cases h' with
    | cons htone' hrest => exact .cons (htone.alike htone' hkeys hchords hoffset hticks) (ih hrest)

/-- Phrases alike, played in one order from one tick on, begin and end together and are tones that
sound together. -/
theorem Plays.alike {phrases phrases' : List Phrase} {offsets offsets' : List UInt32}
    {start finish finish' : UInt32} {tones tones' : List Tone}
    (h : Plays settings octaves barTicks voice phrases offsets start finish tones)
    (h' : Plays settings' octaves' barTicks voice phrases' offsets' start finish' tones')
    (hticks : settings.ticksPerQuarter = settings'.ticksPerQuarter)
    (hkeys : KeysAlike tonic tonic' (octaves.get voice) (octaves'.get voice) sameKey)
    (hphrases : List.Forall₂ (Phrase.Alike tonic tonic') phrases phrases') :
    offsets = offsets' ∧ finish = finish' ∧ List.Forall₂ (Tone.Alike sameKey) tones tones' := by
  induction h generalizing phrases' offsets' tones' with
  | nil =>
    cases hphrases
    cases h'
    exact ⟨rfl, rfl, .nil⟩
  | cons first hnext _ ih =>
    cases hphrases with
    | cons hphrase hlater =>
      cases h' with
      | cons first' hnext' rest' =>
        rw [← hphrase.bars, ← hnext] at hnext'
        cases UInt32.toNat_inj.1 hnext'
        obtain ⟨rfl, rfl, hrest⟩ := ih rest' hlater
        have hnotes := first'.renders
        rw [← hphrase.melodies] at hnotes
        have htones := Melody.Part.alike_of_renders first.renders hnotes hkeys hphrase.chords rfl hticks
        exact ⟨rfl, rfl, List.rel_append htones hrest⟩

/-- Phrases of one place are alike, and so are those played in one order. -/
theorem Phrase.alike_played {phrases phrases' : List Phrase}
    (h : List.Forall₂ (Phrase.Alike tonic tonic') phrases phrases') (order : List Nat) :
    List.Forall₂ (Phrase.Alike tonic tonic') (order.filterMap (phrases[·]?))
      (order.filterMap (phrases'[·]?)) := by
  induction order with
  | nil => exact .nil
  | cons place order ih =>
    by_cases hlt : place < phrases.length
    · have hlt' := h.length_eq ▸ hlt
      rw [List.filterMap_cons_some (List.getElem?_eq_getElem hlt),
        List.filterMap_cons_some (List.getElem?_eq_getElem hlt')]
      exact .cons (h.get hlt hlt') ih
    · have hge := Nat.le_of_not_lt hlt
      have hge' := h.length_eq ▸ hge
      rw [List.filterMap_cons_none (List.getElem?_eq_none hge),
        List.filterMap_cons_none (List.getElem?_eq_none hge')]
      exact ih

/-- Two events at one tick that both begin or both end a note, each with the velocity of its own
settings. -/
structure NoteEvent.Alike (sameKey : UInt8 → UInt8 → Prop) (settings settings' : Settings)
    (event event' : NoteEvent) : Prop where
  tick : event.tick = event'.tick
  kind : event.kind = event'.kind
  key : sameKey event.key event'.key
  velocity : event.velocity = settings.velocity
  velocity' : event'.velocity = settings'.velocity

/-- Two tracks of as many events, each alike to the one at its place. -/
def Track.Alike (sameKey : UInt8 → UInt8 → Prop) (settings settings' : Settings)
    (track track' : Track) : Prop :=
  List.Forall₂ (NoteEvent.Alike sameKey settings settings') track.events.toList track'.events.toList

theorem Tone.Alike.events {tones tones' : List Tone}
    (h : List.Forall₂ (Tone.Alike sameKey) tones tones')
    (hvelocity : ∀ tone ∈ tones, tone.velocity = settings.velocity)
    (hvelocity' : ∀ tone ∈ tones', tone.velocity = settings'.velocity) :
    List.Forall₂ (NoteEvent.Alike sameKey settings settings') (tones.flatMap Tone.events)
      (tones'.flatMap Tone.events) := by
  induction h with
  | nil => exact .nil
  | @cons tone tone' _ _ htone _ ih =>
    obtain ⟨hfirst, hrest⟩ := List.forall_mem_cons.1 hvelocity
    obtain ⟨hfirst', hrest'⟩ := List.forall_mem_cons.1 hvelocity'
    have hon : NoteEvent.Alike sameKey settings settings' tone.on tone'.on :=
      ⟨htone.start, rfl, htone.key, hfirst, hfirst'⟩
    have hoff : NoteEvent.Alike sameKey settings settings' tone.off tone'.off :=
      ⟨htone.finish, rfl, htone.key, hfirst, hfirst'⟩
    exact .cons hon (.cons hoff (ih hrest hrest'))

namespace Piece

/-- All tones of a voice have the velocity of the settings. -/
theorem Voices.velocity_of_mem {piece : Piece} {tones : List Tone} {closing : Tone}
    (h : piece.Voices settings octaves barTicks voice tones closing) :
    ∀ tone ∈ tones ++ [closing], tone.velocity = settings.velocity := by
  intro tone htone
  rcases List.mem_append.1 htone with hplayed | hclosing
  · exact h.plays.velocity tone hplayed
  · rw [List.mem_singleton.1 hclosing]
    exact h.velocity

/-- Two pieces that are heard alike: everything in them comes at one tick. -/
structure HeardAlike (sameKey : UInt8 → UInt8 → Prop) (settings settings' : Settings)
    (piece piece' : Piece) : Prop where
  offsets : piece.offsets = piece'.offsets
  cadenceTick : piece.cadenceTick = piece'.cadenceTick
  ticksPerQuarter : piece.sequence.ticksPerQuarter = piece'.sequence.ticksPerQuarter
  tracks : List.Forall₂ (Track.Alike sameKey settings settings') piece.sequence.tracks
    piece'.sequence.tracks

/-- Pieces that chance has made alike are heard alike if they are played in one order. -/
theorem Alike.heard {scale : Scale} {form form' : Word} {piece piece' : Piece}
    (h : piece.Alike tonic tonic' piece') (hdraws : settings.DrawsAlike settings')
    (hvalid : settings.Valid barTicks)
    (hpiece : piece.Composed tonic scale form settings octaves barTicks)
    (hpiece' : piece'.Composed tonic' scale form' settings' octaves' barTicks)
    (horder : piece.order = piece'.order)
    (hkeys : ∀ voice, KeysAlike tonic tonic' (octaves.get voice) (octaves'.get voice) sameKey) :
    piece.HeardAlike sameKey settings settings' piece' := by
  obtain ⟨tracks, hsequence, htracks⟩ := hpiece.tracks
  obtain ⟨tracks', hsequence', htracks'⟩ := hpiece'.tracks
  have hplayed : List.Forall₂ (Phrase.Alike tonic tonic') piece.played piece'.played := by
    rw [played, played, ← horder]
    exact Phrase.alike_played h.phrases piece.order
  have hvoice (voice : Voice) : piece.offsets = piece'.offsets ∧
      piece.cadenceTick = piece'.cadenceTick ∧
      (tracks.get voice).Alike sameKey settings settings' (tracks'.get voice) := by
    obtain ⟨tones, closing, hvoice, htrack⟩ := htracks voice
    obtain ⟨tones', closing', hvoice', htrack'⟩ := htracks' voice
    obtain ⟨hoffsets, htick, htones⟩ :=
      hvoice.plays.alike hvoice'.plays hdraws.ticksPerQuarter (hkeys voice) hplayed
    have hclosing : closing.Alike sameKey closing' := by
      refine ⟨?_, ?_, ?_⟩
      · rw [hvoice.start, hvoice'.start, htick]
      · rw [← UInt32.toNat_inj, hvoice.finish, hvoice'.finish, htick]
      · have hkey := hvoice.key
        have hkey' := hvoice'.key
        rw [hpiece.cadence_eq, h.cadenceDegrees] at hkey
        rw [hpiece'.cadence_eq] at hkey'
        exact hkeys voice (.of_tonic tonic tonic' scale.tonicQuality) hkey hkey'
    refine ⟨hoffsets, htick, ?_⟩
    have hevents := (hvoice.gapless hvalid.power htrack).events
    have hevents' := (hvoice'.gapless hvalid.power htrack').events
    rw [Track.Alike, hevents, hevents']
    exact Tone.Alike.events (List.rel_append htones (.cons hclosing .nil)) hvoice.velocity_of_mem
      hvoice'.velocity_of_mem
  refine ⟨(hvoice .bass).1, (hvoice .bass).2.1, ?_, ?_⟩
  · rw [hsequence, hsequence']
    exact hdraws.ticksPerQuarter
  · rw [hsequence, hsequence', Quartet.toList_eq_map_get, Quartet.toList_eq_map_get,
      List.forall₂_map_left_iff, List.forall₂_map_right_iff, List.forall₂_same]
    exact fun voice _ => (hvoice voice).2.2

end Piece

end Chorale
