import Chorale.Proofs.Chord.Range
import Chorale.Proofs.Melody.Performance
import Chorale.Proofs.Piece.Phrases

/-!
# How a piece is played

Each voice plays a phrase as a line that lasts as long as the bars of the phrase (`WP.playPhrase`),
so that phrases played one after another join into one line on each track (`Plays.line`, `WP.play`),
each beginning when the bars of those before it are over (`Plays.offset_eq`), and the closing chord
is one more tone of two bars (`WP.closeVoice`).
-/

namespace Chorale

variable {allowed : Failure → Prop} {settings : Settings} {octaves : Quartet Int32}
  {barTicks : UInt32} {voice : Voice}

/-- The part of a voice in a phrase that begins at `offset`. -/
def Phrase.part (settings : Settings) (octaves : Quartet Int32) (barTicks : UInt32) (voice : Voice)
    (offset : UInt32) (phrase : Phrase) : Melody.Part :=
  ⟨phrase.chords, octaves.get voice, offset, settings.ticksPerQuarter, barTicks, settings.velocity⟩

/-- The settings have this part, if they pass. -/
theorem Phrase.ofSettings_part (h : settings.Valid barTicks) (phrase : Phrase) (voice : Voice)
    (offset : UInt32) :
    Melody.Part.ofSettings settings phrase.chords (octaves.get voice) offset =
      .ok (phrase.part settings octaves barTicks voice offset) := by
  rw [Melody.Part.ofSettings, h.barTicks_eq]
  rfl

/-- The tones of a voice in a phrase that begins at `offset` and is over at `next`. -/
structure PlaysPhrase (settings : Settings) (octaves : Quartet Int32) (barTicks : UInt32)
    (voice : Voice) (phrase : Phrase) (offset : UInt32) (next : Nat) (tones : List Tone) : Prop where
  performed : ∃ track result, Melody.perform (phrase.part settings octaves barTicks voice offset)
    (phrase.melodies.get voice) track = .ok result
  renders : List.Forall₂ (phrase.part settings octaves barTicks voice offset).Renders
    ((phrase.part settings octaves barTicks voice offset).notes (phrase.melodies.get voice)) tones
  line : Line offset.toNat tones next

/-- The tones of a voice in phrases that follow each other, the first one at `start`. -/
inductive Plays (settings : Settings) (octaves : Quartet Int32) (barTicks : UInt32) (voice : Voice) :
    List Phrase → (offsets : List UInt32) → (start finish : UInt32) → List Tone → Prop
  | nil (start : UInt32) : Plays settings octaves barTicks voice [] [] start start []
  | cons {phrase : Phrase} {later : List Phrase} {offsets : List UInt32} {start next finish : UInt32}
    {tones tones' : List Tone}
    (first : PlaysPhrase settings octaves barTicks voice phrase start next.toNat tones)
    (hnext : next.toNat = start.toNat + phrase.bars.toNat * barTicks.toNat)
    (rest : Plays settings octaves barTicks voice later offsets next finish tones') :
    Plays settings octaves barTicks voice (phrase :: later) (start :: offsets) start finish
      (tones ++ tones')

namespace Plays

variable {phrases : List Phrase} {offsets : List UInt32} {start finish : UInt32} {tones : List Tone}

theorem line (h : Plays settings octaves barTicks voice phrases offsets start finish tones) :
    Line start.toNat tones finish.toNat := by
  induction h with
  | nil => exact .nil _
  | cons first _ _ ih => exact first.line.append ih

theorem length_offsets (h : Plays settings octaves barTicks voice phrases offsets start finish tones) :
    offsets.length = phrases.length := by
  induction h with
  | nil => rfl
  | cons _ _ _ ih => rw [List.length_cons, List.length_cons, ih]

/-- Phrases last for the ticks of their bars, all together. -/
theorem finish_eq (h : Plays settings octaves barTicks voice phrases offsets start finish tones) :
    finish.toNat = start.toNat + (phrases.map (·.bars.toNat)).sum * barTicks.toNat := by
  induction h with
  | nil => simp
  | cons _ hnext _ ih =>
    rw [List.map_cons, List.sum_cons, Nat.add_mul, ih, hnext]
    omega

/-- Each phrase begins when the bars of those before it are over. -/
theorem offset_eq (h : Plays settings octaves barTicks voice phrases offsets start finish tones)
    {i : Nat} {offset : UInt32} (hi : offsets[i]? = some offset) :
    offset.toNat = start.toNat + ((phrases.take i).map (·.bars.toNat)).sum * barTicks.toNat := by
  induction h generalizing i with
  | nil => simp at hi
  | cons _ hnext _ ih =>
    cases i with
    | zero => cases hi; simp
    | succ i =>
      rw [List.take_succ_cons, List.map_cons, List.sum_cons, Nat.add_mul, ih hi, hnext]
      omega

/-- What holds of every tone that is heard of a note of a phrase holds of all tones. -/
theorem forall_of_renders {holds : Tone → Prop}
    (h : Plays settings octaves barTicks voice phrases offsets start finish tones)
    (hrenders : ∀ phrase ∈ phrases, ∀ offset,
      ∀ note ∈ (phrase.part settings octaves barTicks voice offset).notes (phrase.melodies.get voice),
      ∀ tone, (phrase.part settings octaves barTicks voice offset).Renders note tone → holds tone) :
    ∀ tone ∈ tones, holds tone := by
  induction h with
  | nil => nofun
  | cons first _ _ ih =>
    obtain ⟨hfirst, hrest⟩ := List.forall_mem_cons.1 hrenders
    intro tone htone
    rcases List.mem_append.1 htone with htone | htone
    · obtain ⟨i, hi, rfl⟩ := List.getElem_of_mem htone
      have hi' := first.renders.length_eq ▸ hi
      exact hfirst _ _ (List.getElem_mem hi') _ (first.renders.get hi' hi)
    · exact ih hrest tone htone

theorem velocity (h : Plays settings octaves barTicks voice phrases offsets start finish tones) :
    ∀ tone ∈ tones, tone.velocity = settings.velocity :=
  h.forall_of_renders fun _ _ _ _ _ _ hrenders => hrenders.velocity

/-- No tone of a phrase is longer than a bar. -/
theorem finish_le (h : Plays settings octaves barTicks voice phrases offsets start finish tones)
    (hpower : isPowerOfTwo barTicks.toNat = true)
    (hphrases : ∀ phrase ∈ phrases, phrase.Filled settings barTicks) :
    ∀ tone ∈ tones, tone.finish.toNat ≤ tone.start.toNat + barTicks.toNat := by
  refine h.forall_of_renders fun phrase hphrase _ note hnote tone hrenders => ?_
  have hlength : Melody.Within barTicks.toNat note.length :=
    Melody.good_of_mem_score ((hphrases phrase hphrase).melodies voice) rfl
      (Melody.within_self hpower) hnote
  rw [hrenders.finish]
  exact Nat.add_le_add_left hlength.2 _

end Plays

/-- As many ticks as the bars of a phrase have are those of its chords. -/
theorem Phrase.Filled.ticks (h : settings.Valid barTicks) {phrase : Phrase}
    (hphrase : phrase.Filled settings barTicks) : phrase.bars.toNat * barTicks.toNat =
      phrase.chords.length * settings.ticksPerQuarter.toNat := by
  have hbar : barTicks.toNat = settings.ticksPerQuarter.toNat * settings.quartersPerBar.toNat :=
    Int.ofNat.inj (Checked.mul_eq_ok_iff.1 h.barTicks_eq)
  rw [hphrase.chords, hbar, Nat.mul_assoc, Nat.mul_comm settings.ticksPerQuarter.toNat]

theorem WP.playVoice (h : settings.Valid barTicks) (hover : allowed .overflow) {phrase : Phrase}
    (hphrase : phrase.Filled settings barTicks) (voice : Voice) (offset : UInt32) (track : Track) :
    Checked.WP allowed (Melody.perform (phrase.part settings octaves barTicks voice offset)
      (phrase.melodies.get voice) track) fun (_, track') => ∃ tones,
        PlaysPhrase settings octaves barTicks voice phrase offset
          (offset.toNat + phrase.bars.toNat * barTicks.toNat) tones ∧
        track' = tones.foldl Track.addTone track := by
  refine .mono (Checked.WP.run (Melody.WP.perform_of_reads hover h.resolution (hphrase.melodies voice)
    (Melody.within_self h.power) (fun l hl => (hl.bounds barTicks.toNat_lt).1)
    (Nat.le_of_eq (hphrase.ticks h)) track)) ?_
  rintro ⟨_, track'⟩ ⟨hrun, tones, hrenders, hline, rfl⟩
  exact ⟨tones, ⟨⟨track, _, hrun⟩, hrenders, hline⟩, rfl⟩

theorem WP.playPhrase (h : settings.Valid barTicks) (hover : allowed .overflow) {phrase : Phrase}
    (hphrase : phrase.Filled settings barTicks) (offset : UInt32) (tracks : Quartet Track) :
    Checked.WP allowed (Chorale.playPhrase settings octaves phrase offset tracks) fun tracks' =>
      ∀ voice, ∃ tones, PlaysPhrase settings octaves barTicks voice phrase offset
        (offset.toNat + phrase.bars.toNat * barTicks.toNat) tones ∧
        tracks'.get voice = tones.foldl Track.addTone (tracks.get voice) := by
  refine .collect (fun voice track => ∃ tones, PlaysPhrase settings octaves barTicks voice phrase offset
    (offset.toNat + phrase.bars.toNat * barTicks.toNat) tones ∧
    track = tones.foldl Track.addTone (tracks.get voice)) fun voice => ?_
  refine .bind (.of_eq_ok (phrase.ofSettings_part h voice offset) ?_)
  refine .bind (.mono (playVoice h hover hphrase voice offset _) ?_)
  rintro ⟨_, track⟩ htrack
  exact .ok htrack

/-- Phrases that follow each other are one line on each track. -/
theorem WP.play (h : settings.Valid barTicks) (hover : allowed .overflow) (phrases : List Phrase)
    (hphrases : ∀ phrase ∈ phrases, phrase.Filled settings barTicks) (offset : UInt32)
    (tracks : Quartet Track) :
    Checked.WP allowed (Chorale.play settings octaves barTicks phrases offset tracks) fun played =>
      ∀ voice, ∃ tones,
        Plays settings octaves barTicks voice phrases played.offsets offset played.finish tones ∧
        played.tracks.get voice = tones.foldl Track.addTone (tracks.get voice) := by
  induction phrases generalizing offset tracks with
  | nil => exact .ok fun voice => ⟨[], .nil offset, rfl⟩
  | cons phrase later ih =>
    obtain ⟨hphrase, hlater⟩ := List.forall_mem_cons.1 hphrases
    refine .bind (.mono (playPhrase h hover hphrase offset tracks) fun tracks' htracks => ?_)
    refine .bind (.mono (.mul hover phrase.bars barTicks) fun length hlength => ?_)
    refine .bind (.mono (.add hover offset length) fun next hnext => ?_)
    refine .bind (.mono (ih hlater next tracks') fun played hplayed => .ok fun voice => ?_)
    have hlength : length.toNat = phrase.bars.toNat * barTicks.toNat := Int.ofNat.inj hlength
    have hnext : next.toNat = offset.toNat + length.toNat := Int.ofNat.inj hnext
    rw [hlength] at hnext
    obtain ⟨tones, hfirst, htrack⟩ := htracks voice
    obtain ⟨tones', hrest, htrack'⟩ := hplayed voice
    refine ⟨tones ++ tones', .cons (hnext ▸ hfirst) hnext hrest, ?_⟩
    rw [htrack', htrack, List.foldl_append]

/-- The closing tone of a voice is one of the three of the chord, and lasts for two bars. It fits if
the octave lies on the keyboard and its last tick is one. -/
theorem WP.closeVoice (cadence : Chord) {octave : Int32} {offset : UInt32}
    (hover : ¬ (octave.toInt.natAbs ≤ 10 ∧ offset.toNat + 2 * barTicks.toNat < 2 ^ 32) →
      allowed .overflow)
    (track : Track) (r : Rng) :
    Draw.WP allowed r (Chorale.closeVoice settings barTicks cadence octave offset track)
      fun (degree, track') _ => ∃ tone, tone.start = offset ∧
        tone.finish.toNat = offset.toNat + 2 * barTicks.toNat ∧ tone.velocity = settings.velocity ∧
        (0 ≤ degree.toInt ∧ degree.toInt < 3) ∧ cadence.keyAt degree octave = .ok tone.key ∧
        track' = track.addTone tone := by
  have hthree : (0 : UInt64) < 3 := by decide
  refine .bind (.mono (Draw.WP.range hthree r) fun tone r' _ ⟨_, htone⟩ => ?_)
  have htone := UInt64.lt_iff_toNat_lt.1 htone
  have htone : tone.toNat < 3 := htone
  have hdegree : (Int32.ofNat tone.toNat).toInt = tone.toNat :=
    Int32.toInt_ofNat_of_lt (by omega)
  have hmul := Checked.WP.of_fits hover (.mul rfl barTicks 2) fun ⟨_, hroom⟩ => by
    have hfits : barTicks.toNat * (2 : UInt32).toNat < 2 ^ 32 :=
      show barTicks.toNat * 2 < 2 ^ 32 by omega
    obtain ⟨length, hlength, -⟩ := Checked.unsigned32.mul_eq_ok hfits
    exact ⟨length, hlength⟩
  refine .bind (.lift (.mono hmul fun length hlength => ?_))
  have hlength : length.toNat = barTicks.toNat * 2 := Int.ofNat.inj hlength
  have hkey := Checked.WP.of_fits hover (Chord.WP.keyAt rfl cadence (.ofNat tone.toNat) octave)
    fun ⟨hoctave, _⟩ => cadence.exists_keyAt_eq_ok (by omega)
  refine .bind (.lift (.mono hkey fun key hkey => ?_))
  have hadd := Checked.WP.of_fits hover
    (Track.WP.addNote rfl track offset length key settings.velocity)
    fun ⟨_, hroom⟩ => track.exists_addNote_eq_ok (by omega) key settings.velocity
  refine .bind (.lift (.mono hadd ?_))
  rintro _ ⟨finish, hfinish, rfl⟩
  refine .pure ⟨_, rfl, by rw [hfinish, hlength, Nat.mul_comm], rfl, ?_, hkey, rfl⟩
  rw [hdegree]
  omega

end Chorale
