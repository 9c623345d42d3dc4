import Chorale.Melody.Performance
import Chorale.Proofs.Chord.Range
import Chorale.Proofs.Melody.Score
import Chorale.Proofs.Track.Line

/-!
# What is heard of a melody

A player keeps the stance of the melody in fixed-width numbers, and has turned to the chords up to
the one that the last note began in (`Player.At`). So each note of the score is heard as the tone
that `Part.Renders` says, in the chord of the quarter note in which it begins, and a performance
puts the tones of all notes on the track, one after another (`WP.perform`). It comes to an end
unless a note begins after the last chord, a command cannot be obeyed or a number does not fit.
-/

namespace Chorale

variable {allowed : Failure → Prop}

namespace Melody

/-! ## Turning to chords -/

/-- The reading after `turned` chords. -/
def Reading.after (chords : List Chord) (turned : Nat) : Reading :=
  ⟨turned, (chords.take turned).getLast?, chords.drop turned⟩

/-- A player who has not yet gone beyond a quarter note turns to its chord, if there is one. -/
theorem Reading.turnTo_after {chords : List Chord} {quarter turned : Nat}
    (hquarter : turned ≤ quarter + 1) (hturned : turned ≤ chords.length) :
    Reading.turnTo quarter turned (chords.take turned).getLast? (chords.drop turned) =
      if quarter < chords.length then some (.after chords (quarter + 1)) else none := by
  induction hahead : chords.drop turned generalizing turned with
  | nil =>
    have hlength : chords.length ≤ turned := List.drop_eq_nil_iff.1 hahead
    rw [turnTo]
    by_cases h : quarter < turned
    · have hq : quarter + 1 = turned := by omega
      rw [if_pos h, if_pos (by omega), Reading.after, hq, hahead]
    · rw [if_neg h, if_neg (by omega)]
  | cons next ahead ih =>
    have hlt : turned < chords.length := by
      by_contra hge
      rw [List.drop_eq_nil_of_le (by omega)] at hahead
      cases hahead
    obtain ⟨hnext, hrest⟩ : chords[turned] = next ∧ chords.drop (turned + 1) = ahead := by
      rw [List.drop_eq_getElem_cons hlt] at hahead
      exact List.cons.inj hahead
    rw [turnTo]
    by_cases h : quarter < turned
    · have hq : quarter + 1 = turned := by omega
      rw [if_pos h, if_pos (by omega), Reading.after, hq, hahead]
    · have hlast : (chords.take (turned + 1)).getLast? = some next := by
        rw [List.take_succ_eq_append_getElem hlt, List.getLast?_concat, hnext]
      rw [if_neg h, ← hlast]
      exact ih (by omega) (by omega) hrest

theorem Reading.after_chord {chords : List Chord} {quarter : Nat} (h : quarter < chords.length) :
    (Reading.after chords (quarter + 1)).chord = chords[quarter]? := by
  show (chords.take (quarter + 1)).getLast? = _
  rw [List.take_succ_eq_append_getElem h, List.getLast?_concat, List.getElem?_eq_getElem h]

/-! ## Players -/

/-- The quarter note in which a note begins. -/
def Part.quarter (part : Part) (note : Note) : Nat := note.onset / part.ticksPerQuarter.toNat

/-- The tone that is heard of a note. -/
structure Part.Renders (part : Part) (note : Note) (tone : Tone) : Prop where
  key : ∃ chord degree, part.chords[part.quarter note]? = some chord ∧
    degree.toInt = note.degree ∧ chord.keyAt degree part.octave = .ok tone.key
  start : tone.start.toNat = part.offset.toNat + note.onset
  finish : tone.finish.toNat = tone.start.toNat + note.length
  velocity : tone.velocity = part.velocity

namespace Player

/-- The player has the given stance, `onset` ticks into the melody. -/
structure At (part : Part) (s : Stance) (onset : Nat) (player : Player) : Prop where
  length : player.length.toNat = s.length
  degree : player.degree.toInt = s.degree
  saved : player.saved.map (fun aside => (aside.1.toNat, aside.2.toInt)) = s.saved
  elapsed : player.elapsed.toNat = onset
  reading : ∃ turned, player.reading = .after part.chords turned ∧
    turned ≤ onset / part.ticksPerQuarter.toNat + 1 ∧ turned ≤ part.chords.length

theorem At.begin (part : Part) (track : Track) :
    At part ⟨part.barTicks.toNat, 0, []⟩ 0 (begin part track) where
  length := rfl
  degree := rfl
  saved := rfl
  elapsed := rfl
  reading := ⟨0, rfl, Nat.zero_le _, Nat.zero_le _⟩

variable {part : Part} {melody : Word} {s : Stance} {onset : Nat} {player : Player}

/-- A command that sounds no note changes the stance alone. -/
theorem WP.obey_of_ne_note (h : allowed .overflow) (hplayer : At part s onset player)
    {command : Command} (hnote : command ≠ .note)
    (hunbalanced : s.obey command = none → allowed (.unbalanced melody)) :
    Checked.WP allowed (player.obey part melody command) fun player' =>
      player'.track = player.track ∧ ∃ s', s.obey command = some s' ∧ At part s' onset player' := by
  obtain ⟨hlength, hdegree, hsaved, helapsed, hreading⟩ := hplayer
  cases command with
  | note => exact absurd rfl hnote
  | up =>
    refine .bind (.mono (.add h player.degree 1) fun degree hadd => .ok ⟨rfl, _, rfl, ?_⟩)
    exact ⟨hlength, hadd.trans (hdegree ▸ rfl), hsaved, helapsed, hreading⟩
  | down =>
    refine .bind (.mono (.sub h player.degree 1) fun degree hsub => .ok ⟨rfl, _, rfl, ?_⟩)
    exact ⟨hlength, hsub.trans (hdegree ▸ rfl), hsaved, helapsed, hreading⟩
  | halve =>
    refine .ok ⟨rfl, _, rfl, ?_, hdegree, hsaved, helapsed, hreading⟩
    show (player.length / 2).toNat = s.length / 2
    rw [UInt32.toNat_div, hlength]
    rfl
  | double =>
    refine .bind (.mono (.mul h player.length 2) fun length hmul => .ok ⟨rfl, _, rfl, ?_⟩)
    exact ⟨Int.ofNat.inj (hmul.trans (hlength ▸ rfl)), hdegree, hsaved, helapsed, hreading⟩
  | save =>
    refine .ok ⟨rfl, _, rfl, hlength, hdegree, ?_, helapsed, hreading⟩
    show (player.length.toNat, player.degree.toInt) :: player.saved.map _ =
      (s.length, s.degree) :: s.saved
    rw [hlength, hdegree, hsaved]
  | restore =>
    obtain ⟨_, _, saved⟩ := s
    cases hsaved
    cases hplayed : player.saved with
    | nil =>
      simp only [Player.obey, hplayed]
      exact .error (hunbalanced (by simp only [Stance.obey, hplayed, List.map_nil]))
    | cons aside rest =>
      simp only [Player.obey, hplayed, Stance.obey, List.map_cons]
      exact .ok ⟨rfl, _, rfl, rfl, rfl, rfl, helapsed, hreading⟩

theorem WP.sound (h : allowed .overflow) (hplayer : At part s onset player) {chord : Chord}
    (hchord : player.reading.chord = some chord)
    (hquarter : part.chords[part.quarter ⟨onset, s.length, s.degree⟩]? = some chord) :
    Checked.WP allowed (player.sound part) fun track => ∃ tone,
      part.Renders ⟨onset, s.length, s.degree⟩ tone ∧ track = player.track.addTone tone := by
  simp only [Player.sound, hchord]
  refine .bind (.mono (Chord.WP.keyAt h chord player.degree part.octave) fun key hkey => ?_)
  refine .bind (.mono (.add h part.offset player.elapsed) fun start hstart => ?_)
  refine .mono (Track.WP.addNote h player.track start player.length key part.velocity) ?_
  rintro track ⟨finish, hfinish, rfl⟩
  have hstart : start.toNat = part.offset.toNat + player.elapsed.toNat := Int.ofNat.inj hstart
  refine ⟨_, ⟨⟨chord, player.degree, hquarter, hplayer.degree, hkey⟩, ?_, ?_, rfl⟩, rfl⟩
  · rw [hstart, hplayer.elapsed]
  · rw [hfinish, hplayer.length]

/-- A note is heard as its tone, if there is a chord for it, and the stance stays. -/
theorem WP.obey_note (h : allowed .overflow) (hticks : part.ticksPerQuarter ≠ 0)
    (hplayer : At part s onset player)
    (hpast : part.chords.length ≤ part.quarter ⟨onset, s.length, s.degree⟩ →
      allowed (.pastChords melody part.chords.length)) :
    Checked.WP allowed (player.obey part melody .note) fun player' =>
      At part s (onset + s.length) player' ∧
        part.quarter ⟨onset, s.length, s.degree⟩ < part.chords.length ∧
        ∃ tone, part.Renders ⟨onset, s.length, s.degree⟩ tone ∧
          player'.track = player.track.addTone tone := by
  obtain ⟨turned, hreading, hle, hturned⟩ := hplayer.reading
  have hturn := Reading.turnTo_after hle hturned
  by_cases hlt : onset / part.ticksPerQuarter.toNat < part.chords.length
  · rw [if_pos hlt] at hturn
    have hchord := Reading.after_chord hlt
    obtain ⟨chord, hquarter⟩ : ∃ chord, part.chords[onset / part.ticksPerQuarter.toNat]? = some chord :=
      ⟨_, List.getElem?_eq_getElem hlt⟩
    -- The player has turned to the chord of the note before it sounds.
    let due : Player :=
      { player with reading := .after part.chords (onset / part.ticksPerQuarter.toNat + 1) }
    have hdue : At part s onset due :=
      ⟨hplayer.length, hplayer.degree, hplayer.saved, hplayer.elapsed, _, rfl, Nat.le_refl _, hlt⟩
    simp only [Player.obey, if_neg hticks, hreading, hplayer.elapsed, Reading.after, hturn]
    have hsound := sound h hdue (hchord.trans hquarter) hquarter
    refine .bind (.mono hsound fun track ⟨tone, htone, htrack⟩ => ?_)
    refine .bind (.mono (.add h player.elapsed player.length) fun elapsed helapsed => ?_)
    have helapsed : elapsed.toNat = onset + s.length := by
      rw [← hplayer.elapsed, ← hplayer.length]
      exact Int.ofNat.inj helapsed
    refine .ok ⟨⟨hplayer.length, hplayer.degree, hplayer.saved, helapsed, _, rfl, ?_, hlt⟩, hlt, tone,
      htone, htrack⟩
    exact Nat.succ_le_succ (Nat.div_le_div_right (Nat.le_add_right _ _))
  · rw [if_neg hlt] at hturn
    simp only [Player.obey, if_neg hticks, hreading, hplayer.elapsed, Reading.after, hturn]
    exact .error (hpast (Nat.not_lt.1 hlt))

/-- From the stance `s` on the rest of a melody can be performed, and puts the tones of its notes on
the track. -/
structure Performs (part : Part) (s : Stance) (onset : Nat) (rest : Word)
    (player player' : Player) : Prop where
  within : ∀ note ∈ score s onset rest, part.quarter note < part.chords.length
  obeyed : ∃ s' onset', s.after rest = some s' ∧ At part s' onset' player'
  elapsed : player'.elapsed.toNat = onset + s.pulse.span rest
  tones : ∃ tones, List.Forall₂ part.Renders (score s onset rest) tones ∧
    player'.track = tones.foldl Track.addTone player.track

theorem Performs.of_pass {s' : Stance} {c : Char} {rest : Word} {next last : Player}
    (hc : Command.ofLetter? c ≠ some .note) (hpass : s.pass c = some s')
    (htrack : next.track = player.track) (h : Performs part s' onset rest next last) :
    Performs part s onset (c :: rest) player last := by
  obtain ⟨hwithin, hobeyed, helapsed, htones⟩ := h
  have hspan : s.pulse.span (c :: rest) = s'.pulse.span rest := by
    rw [Pulse.span_cons rest (Stance.pulse_pass hpass), Pulse.ticks, if_neg hc, Nat.zero_add]
  rw [← score_pass onset rest hc hpass] at hwithin htones
  rw [← Stance.after_cons rest hpass] at hobeyed
  rw [← hspan] at helapsed
  rw [htrack] at htones
  exact ⟨hwithin, hobeyed, helapsed, htones⟩

theorem Performs.of_note {c : Char} {rest : Word} {next last : Player} {tone : Tone}
    (hc : Command.ofLetter? c = some .note)
    (hwithin : part.quarter ⟨onset, s.length, s.degree⟩ < part.chords.length)
    (htone : part.Renders ⟨onset, s.length, s.degree⟩ tone)
    (htrack : next.track = player.track.addTone tone)
    (h : Performs part s (onset + s.length) rest next last) :
    Performs part s onset (c :: rest) player last := by
  have hpass := s.pass_note hc
  have hspan : s.pulse.span (c :: rest) = s.length + s.pulse.span rest := by
    rw [Pulse.span_cons rest (Stance.pulse_pass hpass), Pulse.ticks, if_pos hc]
    rfl
  have hscore := score_note s onset rest hc
  obtain ⟨tones, htones, hlast⟩ := h.tones
  refine ⟨?_, ?_, ?_, tone :: tones, ?_, ?_⟩
  · rw [hscore]
    exact List.forall_mem_cons.2 ⟨hwithin, h.within⟩
  · rw [Stance.after_cons rest hpass]
    exact h.obeyed
  · rw [hspan, h.elapsed, Nat.add_assoc]
  · rw [hscore]
    exact .cons htone htones
  · rw [hlast, htrack, List.foldl_cons]

/-- A performance comes to the end of a melody unless a note begins beyond the chords or a command
cannot be obeyed. -/
theorem WP.perform (h : allowed .overflow) (hticks : part.ticksPerQuarter ≠ 0)
    (hplayer : At part s onset player) (rest : Word)
    (hpast : (∃ note ∈ score s onset rest, part.chords.length ≤ part.quarter note) →
      allowed (.pastChords melody part.chords.length))
    (hunbalanced : (∀ note ∈ score s onset rest, part.quarter note < part.chords.length) →
      s.after rest = none → allowed (.unbalanced melody)) :
    Checked.WP allowed (player.perform part melody rest) (Performs part s onset rest player) := by
  induction rest generalizing s onset player with
  | nil => exact .ok ⟨by simp [score], ⟨s, onset, rfl, hplayer⟩, hplayer.elapsed, [], .nil, rfl⟩
  | cons c rest ih =>
    by_cases hc : Command.ofLetter? c = some .note
    · rw [score_note s onset rest hc] at hpast hunbalanced
      rw [Stance.after_cons rest (s.pass_note hc)] at hunbalanced
      have hfirst (hle : part.chords.length ≤ part.quarter ⟨onset, s.length, s.degree⟩) :
          allowed (.pastChords melody part.chords.length) := hpast ⟨_, List.mem_cons_self, hle⟩
      simp only [Player.perform, hc]
      refine .bind (.mono (obey_note h hticks hplayer hfirst) ?_)
      rintro next ⟨hnext, hwithin, tone, htone, htrack⟩
      refine .mono (ih hnext ?_ ?_) fun last hlast => .of_note hc hwithin htone htrack hlast
      · rintro ⟨note, hmem, hle⟩
        exact hpast ⟨note, List.mem_cons_of_mem _ hmem, hle⟩
      · exact fun hall => hunbalanced (List.forall_mem_cons.2 ⟨hwithin, hall⟩)
    · have hsilent : ∀ {next : Player} {s' : Stance}, s.pass c = some s' →
          next.track = player.track → At part s' onset next →
          Checked.WP allowed (next.perform part melody rest)
            (Performs part s onset (c :: rest) player) := by
        intro next s' hpass htrack hnext
        rw [score_pass onset rest hc hpass] at hpast hunbalanced
        rw [Stance.after_cons rest hpass] at hunbalanced
        exact .mono (ih hnext hpast hunbalanced) fun last hlast => .of_pass hc hpass htrack hlast
      cases hcommand : Command.ofLetter? c with
      | none =>
        have hpass : s.pass c = some s := by simp only [Stance.pass, hcommand]
        simp only [Player.perform, hcommand]
        exact hsilent hpass rfl hplayer
      | some command =>
        have hpass : s.pass c = s.obey command := by simp only [Stance.pass, hcommand]
        have hnote : command ≠ .note := fun e => hc (e ▸ hcommand)
        have hstop (hnone : s.obey command = none) : allowed (.unbalanced melody) := by
          refine hunbalanced ?_ ?_
          · rw [score_stop onset rest (hpass.trans hnone)]
            simp
          · rw [Stance.after, List.foldlM_cons, hpass, hnone]
            rfl
        simp only [Player.perform, hcommand]
        refine .bind (.mono (obey_of_ne_note h hplayer hnote hstop) ?_)
        rintro next ⟨htrack, s', hs', hnext⟩
        exact hsilent (hpass.trans hs') htrack hnext

end Player

/-- The notes of a melody that begins with the part's length of a bar. -/
def Part.notes (part : Part) (melody : Word) : List Note :=
  score ⟨part.barTicks.toNat, 0, []⟩ 0 melody

/-- What is heard of a whole melody, and how long it lasts. -/
theorem WP.perform {part : Part} {melody : Word} (h : allowed .overflow)
    (hticks : part.ticksPerQuarter ≠ 0)
    (hpast : (∃ note ∈ part.notes melody, part.chords.length ≤ part.quarter note) →
      allowed (.pastChords melody part.chords.length))
    (hunbalanced : (∀ note ∈ part.notes melody, part.quarter note < part.chords.length) →
      Stance.after ⟨part.barTicks.toNat, 0, []⟩ melody = none → allowed (.unbalanced melody))
    (track : Track) :
    Checked.WP allowed (Melody.perform part melody track) fun (elapsed, track') =>
      elapsed.toNat = Pulse.span ⟨part.barTicks.toNat, []⟩ melody ∧
        ∃ tones, List.Forall₂ part.Renders (part.notes melody) tones ∧
          track' = tones.foldl Track.addTone track := by
  refine .bind (.mono (Player.WP.perform h hticks (.begin part track) melody hpast hunbalanced) ?_)
  intro player hplayer
  refine .ok ⟨?_, hplayer.tones⟩
  rw [hplayer.elapsed, Nat.zero_add]
  rfl

/-- With a chord for every note, only a command that cannot be obeyed ends a performance early, or a
number that does not fit. -/
theorem WP.perform_of_chords {part : Part} {melody : Word} (h : allowed .overflow)
    (hticks : part.ticksPerQuarter ≠ 0)
    (hchords : ∀ note ∈ part.notes melody, part.quarter note < part.chords.length)
    (hunbalanced : Stance.after ⟨part.barTicks.toNat, 0, []⟩ melody = none →
      allowed (.unbalanced melody))
    (track : Track) :
    Checked.WP allowed (Melody.perform part melody track) fun (elapsed, track') =>
      elapsed.toNat = Pulse.span ⟨part.barTicks.toNat, []⟩ melody ∧
        ∃ tones, List.Forall₂ part.Renders (part.notes melody) tones ∧
          track' = tones.foldl Track.addTone track := by
  refine WP.perform h hticks ?_ (fun _ => hunbalanced) track
  rintro ⟨note, hnote, hle⟩
  exact absurd (hchords note hnote) (Nat.not_lt.2 hle)

/-! ## Lines -/

/-- Notes that follow each other are heard as a line. -/
theorem Part.line_of_follows {part : Part} {notes : List Note} {tones : List Tone} {start finish : Nat}
    (h : Follows start notes finish) (htones : List.Forall₂ part.Renders notes tones)
    (hlength : ∀ note ∈ notes, 1 ≤ note.length) :
    Line (part.offset.toNat + start) tones (part.offset.toNat + finish) := by
  induction h generalizing tones with
  | nil => cases htones; exact .nil _
  | @cons start finish note notes honset rest ih =>
    obtain ⟨tone, later, htone, hlater, rfl⟩ := List.forall₂_cons_left_iff.1 htones
    have hpos := hlength note List.mem_cons_self
    have hstart : tone.start.toNat = part.offset.toNat + start := honset ▸ htone.start
    have hfinish : tone.finish.toNat = part.offset.toNat + (start + note.length) := by
      rw [htone.finish, hstart, Nat.add_assoc]
    have hrest := ih hlater fun note' hnote' => hlength note' (List.mem_cons_of_mem _ hnote')
    exact .cons hstart (by omega) (hfinish ▸ hrest)

/-- A melody that can be read, of no more ticks than there are chords for, is performed as a line
that lasts as long. -/
theorem WP.perform_of_reads {part : Part} {melody : Word} {good : Nat → Prop} {q : Pulse} {n : Nat}
    (h : allowed .overflow) (hticks : part.ticksPerQuarter ≠ 0)
    (hmelody : Reads good ⟨part.barTicks.toNat, []⟩ melody q n) (hbar : good part.barTicks.toNat)
    (hgood : ∀ l, good l → 1 ≤ l) (hn : n ≤ part.chords.length * part.ticksPerQuarter.toNat)
    (track : Track) :
    Checked.WP allowed (Melody.perform part melody track) fun (_, track') => ∃ tones,
      List.Forall₂ part.Renders (part.notes melody) tones ∧
        Line part.offset.toNat tones (part.offset.toNat + n) ∧
        track' = tones.foldl Track.addTone track := by
  have hspan : Pulse.span ⟨part.barTicks.toNat, []⟩ melody = n := hmelody.span_eq
  have hfollows : Follows 0 (part.notes melody) n := by
    have := follows_score ⟨part.barTicks.toNat, 0, []⟩ 0 melody
    rwa [Stance.pulse, List.map_nil, hspan, Nat.zero_add] at this
  have hlength : ∀ note ∈ part.notes melody, 1 ≤ note.length :=
    fun note hnote => hgood _ (good_of_mem_score hmelody rfl hbar hnote)
  have hwithin : ∀ note ∈ part.notes melody, part.quarter note < part.chords.length := by
    intro note hnote
    have hpos := hlength note hnote
    have hle := hfollows.onset_add_length_le hnote
    exact Nat.div_lt_of_lt_mul (by rw [Nat.mul_comm]; omega)
  obtain ⟨s', hs', -⟩ := exists_after hmelody (s := ⟨part.barTicks.toNat, 0, []⟩) rfl
  refine .mono (WP.perform_of_chords h hticks hwithin (fun e => by cases hs'.symm.trans e) track) ?_
  rintro ⟨elapsed, track'⟩ ⟨-, tones, htones, rfl⟩
  refine ⟨tones, htones, ?_, rfl⟩
  exact Part.line_of_follows hfollows htones hlength

end Melody

end Chorale
