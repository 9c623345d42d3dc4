import Chorale.Proofs.Melody.Agreement

/-!
# Melodies read place by place

What a player does at a place of a melody can be told from the letters before it alone. The stance
in which a note is sounded is the one those letters lead to (`Stance.at?`), and the note begins when
the notes before it are over (`Stance.onsetAt`). These are the notes of the score (`score_eq`).

A place offends if a bracket there closes what was not opened, or if a note there begins after the
last chord. The player is stopped by the first offence and by nothing else, but for numbers that do
not fit (`perform_readsPlaces`).
-/

namespace Chorale.Melody

/-! ## Notes at their places -/

theorem ofLetter?_eq_note_iff {c : Char} : Command.ofLetter? c = some .note ↔ c = 'F' :=
  Command.ofLetter?_eq_some_iff

namespace Stance

/-- The stance in which the note at a place of a word is sounded, if there is one and all commands
before it can be obeyed. -/
def at? (s : Stance) (w : Word) (place : Nat) : Option Stance :=
  if w[place]? = some 'F' then s.after (w.take place) else none

/-- The length of all notes before a place together. -/
def onsetAt (s : Stance) (w : Word) (place : Nat) : Nat :=
  (((List.range place).filterMap (s.at? w)).map (·.length)).sum

/-- The note at a place of a word that begins at `onset`. -/
def noteAt? (s : Stance) (onset : Nat) (w : Word) (place : Nat) : Option Note :=
  (s.at? w place).map fun stance => ⟨onset + s.onsetAt w place, stance.length, stance.degree⟩

variable {s s' : Stance} {onset : Nat} {c : Char} {w : Word}

theorem at?_zero (s : Stance) (c : Char) (w : Word) :
    s.at? (c :: w) 0 = if c = 'F' then some s else none := by
  simp [at?, after]

theorem at?_succ (hpass : s.pass c = some s') (place : Nat) :
    s.at? (c :: w) (place + 1) = s'.at? w place := by
  simp only [at?, List.getElem?_cons_succ, List.take_succ_cons, after_cons _ hpass]

theorem at?_succ_stop (hpass : s.pass c = none) (place : Nat) :
    s.at? (c :: w) (place + 1) = none := by
  have hafter : s.after (c :: w.take place) = none := by
    rw [after, List.foldlM_cons, hpass]
    rfl
  simp only [at?, List.take_succ_cons, hafter, ite_self]

theorem onsetAt_succ (hpass : s.pass c = some s') (place : Nat) :
    s.onsetAt (c :: w) (place + 1) = (if c = 'F' then s.length else 0) + s'.onsetAt w place := by
  have hrest : s.at? (c :: w) ∘ Nat.succ = s'.at? w := funext (at?_succ hpass)
  rw [onsetAt, List.range_succ_eq_map, List.filterMap_cons, List.filterMap_map, hrest, at?_zero]
  by_cases hc : c = 'F'
  · simp [hc, onsetAt]
  · simp [hc, onsetAt]

theorem noteAt?_eq_some_iff {place : Nat} {note : Note} :
    s.noteAt? onset w place = some note ↔ w[place]? = some 'F' ∧
      ∃ s', s.after (w.take place) = some s' ∧
        note = ⟨onset + s.onsetAt w place, s'.length, s'.degree⟩ := by
  rw [noteAt?, at?, Option.map_eq_some_iff]
  by_cases hletter : w[place]? = some 'F' <;> simp [hletter, eq_comm]

theorem noteAt?_zero (s : Stance) (onset : Nat) (c : Char) (w : Word) :
    s.noteAt? onset (c :: w) 0 = if c = 'F' then some ⟨onset, s.length, s.degree⟩ else none := by
  rw [noteAt?, at?_zero]
  by_cases hc : c = 'F'
  · simp [hc, onsetAt]
  · simp [hc]

theorem noteAt?_succ (hpass : s.pass c = some s') (onset place : Nat) :
    s.noteAt? onset (c :: w) (place + 1) =
      s'.noteAt? (onset + if c = 'F' then s.length else 0) w place := by
  simp only [noteAt?, at?_succ hpass, onsetAt_succ hpass, Nat.add_assoc]

end Stance

variable {s s' : Stance} {onset : Nat} {c : Char} {w : Word}

/-- The score consists of the notes at the places of the word. -/
theorem score_eq (s : Stance) (onset : Nat) (w : Word) :
    score s onset w = (List.range w.length).filterMap (s.noteAt? onset w) := by
  induction w generalizing s onset with
  | nil => rfl
  | cons c w ih =>
    rw [List.length_cons, List.range_succ_eq_map, List.filterMap_cons, List.filterMap_map,
      Stance.noteAt?_zero]
    by_cases hc : c = 'F'
    · have hnote := ofLetter?_eq_note_iff.2 hc
      have hrest : s.noteAt? onset (c :: w) ∘ Nat.succ = s.noteAt? (onset + s.length) w := by
        funext place
        show s.noteAt? onset (c :: w) (place + 1) = _
        rw [Stance.noteAt?_succ (s.pass_note hnote), if_pos hc]
      rw [score_note s onset w hnote, ih, if_pos hc, hrest]
    · have hnote := mt ofLetter?_eq_note_iff.1 hc
      rw [if_neg hc]
      cases hpass : s.pass c with
      | none =>
        have hrest : s.noteAt? onset (c :: w) ∘ Nat.succ = fun _ => none := by
          funext place
          show (s.at? (c :: w) (place + 1)).map _ = none
          rw [Stance.at?_succ_stop hpass, Option.map_none]
        rw [score_stop onset w hpass, hrest]
        simp
      | some s' =>
        have hrest : s.noteAt? onset (c :: w) ∘ Nat.succ = s'.noteAt? onset w := by
          funext place
          show s.noteAt? onset (c :: w) (place + 1) = _
          rw [Stance.noteAt?_succ hpass, if_neg hc, Nat.add_zero]
        rw [score_pass onset w hnote hpass, ih, hrest]

theorem mem_score_iff {note : Note} :
    note ∈ score s onset w ↔ ∃ place, s.noteAt? onset w place = some note := by
  rw [score_eq, List.mem_filterMap]
  refine ⟨fun ⟨place, _, h⟩ => ⟨place, h⟩, fun ⟨place, h⟩ => ⟨place, ?_, h⟩⟩
  rw [List.mem_range]
  by_contra hge
  have hnone : w[place]? = none := List.getElem?_eq_none (Nat.not_lt.1 hge)
  simp [Stance.noteAt?, Stance.at?, hnone] at h

/-! ## Offences -/

/-- The bracket at a place closes what was not opened before it. -/
def Exceeds (w : Word) (place : Nat) : Prop :=
  w[place]? = some ']' ∧ (w.take place).count '[' ≤ (w.take place).count ']'

theorem Stance.after_append (s : Stance) (u v : Word) :
    s.after (u ++ v) = s.after u >>= fun s' => s'.after v :=
  List.foldlM_append

/-- What is laid aside is counted by the brackets. -/
theorem Stance.saved_length_of_after (h : s.after w = some s') :
    s'.saved.length + w.count ']' = s.saved.length + w.count '[' := by
  induction w generalizing s with
  | nil => cases h; rfl
  | cons c w ih =>
    cases hpass : s.pass c with
    | none =>
      rw [after, List.foldlM_cons, hpass] at h
      cases h
    | some next =>
      rw [after_cons w hpass] at h
      have hc := Reads.saved_length_of_pass (pulse_pass hpass)
      simp only [pulse, List.length_map] at hc
      have hw := ih h
      rw [← List.singleton_append, List.count_append, List.count_append]
      omega

/-- The commands before a place can be obeyed unless a bracket there exceeds. -/
theorem Stance.after_take_eq_none_iff (hs : s.saved = []) (w : Word) (place : Nat) :
    s.after (w.take place) = none ↔ ∃ earlier < place, Exceeds w earlier := by
  induction place with
  | zero => simp [Stance.after]
  | succ place ih =>
    rw [List.take_add_one, after_append, Nat.exists_lt_succ_right]
    cases hafter : s.after (w.take place) with
    | none => exact ⟨fun _ => .inl (ih.1 hafter), fun _ => rfl⟩
    | some s' =>
      have hnone : ¬ ∃ earlier < place, Exceeds w earlier := fun h => by
        cases hafter.symm.trans (ih.2 h)
      have hcount := saved_length_of_after hafter
      rw [hs, List.length_nil, Nat.zero_add] at hcount
      rw [or_iff_right hnone, Exceeds]
      cases hletter : w[place]? with
      | none => simp [after]
      | some c =>
        -- Nothing is laid aside just if so far as many brackets were closed as opened.
        have hempty : s'.saved = [] ↔ (w.take place).count '[' ≤ (w.take place).count ']' := by
          rw [← List.length_eq_zero_iff]
          omega
        have hstop : s'.after [c] = none ↔ c = ']' ∧ s'.saved = [] := by
          rw [← pass_eq_none_iff, after, List.foldlM_cons]
          cases s'.pass c <;> simp
        rw [← hempty, Option.some.injEq]
        exact hstop

namespace Part

/-- A note at a place begins after the last chord. -/
def Past (part : Part) (melody : Word) (place : Nat) : Prop :=
  melody[place]? = some 'F' ∧
    part.chords.length ≤ part.opening.onsetAt melody place / part.ticksPerQuarter.toNat

/-- A place that cannot be performed. -/
def Offends (part : Part) (melody : Word) (place : Nat) : Prop :=
  Exceeds melody place ∨ part.Past melody place

/-- The first place that cannot be performed. -/
structure OffendsFirst (part : Part) (melody : Word) (place : Nat) : Prop where
  offends : part.Offends melody place
  first : ∀ earlier < place, ¬ part.Offends melody earlier

variable {part : Part} {melody : Word} {place place' : Nat}

theorem OffendsFirst.unique (h : part.OffendsFirst melody place)
    (h' : part.OffendsFirst melody place') : place = place' := by
  rcases Nat.lt_trichotomy place place' with hlt | heq | hgt
  · exact absurd h.offends (h'.first place hlt)
  · exact heq
  · exact absurd h'.offends (h.first place' hgt)

theorem Offends.exists_first (h : part.Offends melody place) :
    ∃ first ≤ place, part.OffendsFirst melody first := by
  induction place using Nat.strongRecOn with
  | ind place ih =>
    by_cases hearlier : ∃ earlier < place, part.Offends melody earlier
    · obtain ⟨earlier, hlt, hoffends⟩ := hearlier
      obtain ⟨first, hle, hfirst⟩ := ih earlier hlt hoffends
      exact ⟨first, by omega, hfirst⟩
    · exact ⟨place, Nat.le_refl _, h, fun earlier hlt hoffends => hearlier ⟨earlier, hlt, hoffends⟩⟩

theorem not_exceeds_of_past (h : part.Past melody place) : ¬ Exceeds melody place := by
  rintro ⟨hletter, -⟩
  cases h.1.symm.trans hletter

/-- The notes of a melody, place by place. -/
def written (part : Part) (melody : Word) : List Note :=
  (List.range melody.length).filterMap (part.opening.noteAt? 0 melody)

theorem notes_eq_written (part : Part) (melody : Word) : part.notes melody = part.written melody :=
  score_eq part.opening 0 melody

theorem mem_written_iff {note : Note} :
    note ∈ part.written melody ↔ ∃ place, melody[place]? = some 'F' ∧
      ∃ s, part.opening.after (melody.take place) = some s ∧
        note = ⟨part.opening.onsetAt melody place, s.length, s.degree⟩ := by
  rw [written, ← score_eq, mem_score_iff]
  simp only [Stance.noteAt?_eq_some_iff, Nat.zero_add]

/-- A note begins after the last chord just if the first offence is a note's. -/
theorem exists_past_iff :
    (∃ note ∈ part.written melody, part.chords.length ≤ part.quarter note) ↔
      ∃ place, part.OffendsFirst melody place ∧ part.Past melody place := by
  have hnone := Stance.after_take_eq_none_iff (s := part.opening) rfl melody
  constructor
  · rintro ⟨note, hnote, hpast⟩
    obtain ⟨place, hletter, s, hafter, rfl⟩ := mem_written_iff.1 hnote
    have hpast : part.Past melody place := ⟨hletter, hpast⟩
    have hoffends : part.Offends melody place := .inr hpast
    obtain ⟨first, hle, hfirst⟩ := hoffends.exists_first
    refine ⟨first, hfirst, hfirst.offends.resolve_left fun hexceeds => ?_⟩
    rcases Nat.lt_or_eq_of_le hle with hlt | rfl
    · cases hafter.symm.trans ((hnone place).2 ⟨first, hlt, hexceeds⟩)
    · exact not_exceeds_of_past hpast hexceeds
  · rintro ⟨place, hfirst, hpast⟩
    have hsome : part.opening.after (melody.take place) ≠ none := by
      rw [Ne, hnone]
      exact fun ⟨earlier, hlt, hexceeds⟩ => hfirst.first earlier hlt (.inl hexceeds)
    obtain ⟨s, hafter⟩ := Option.ne_none_iff_exists'.1 hsome
    exact ⟨_, mem_written_iff.2 ⟨place, hpast.1, s, hafter, rfl⟩, hpast.2⟩

theorem within_iff :
    (∀ note ∈ part.written melody, part.quarter note < part.chords.length) ↔
      ¬ ∃ place, part.OffendsFirst melody place ∧ part.Past melody place := by
  rw [← exists_past_iff]
  simp only [not_exists, not_and, Nat.not_le]

/-- All notes have chords, but not all commands can be obeyed, just if the first offence is a
bracket's. -/
theorem stops_iff :
    ((∀ note ∈ part.written melody, part.quarter note < part.chords.length) ∧
        part.opening.after melody = none) ↔
      ∃ place, part.OffendsFirst melody place ∧ Exceeds melody place := by
  have hnone := Stance.after_take_eq_none_iff (s := part.opening) rfl melody melody.length
  rw [List.take_length] at hnone
  constructor
  · rintro ⟨hwithin, hafter⟩
    obtain ⟨place, -, hexceeds⟩ := hnone.1 hafter
    have hoffends : part.Offends melody place := .inl hexceeds
    obtain ⟨first, -, hfirst⟩ := hoffends.exists_first
    refine ⟨first, hfirst, hfirst.offends.resolve_right fun hpast => ?_⟩
    exact within_iff.1 hwithin ⟨first, hfirst, hpast⟩
  · rintro ⟨place, hfirst, hexceeds⟩
    obtain ⟨hplace, -⟩ := List.getElem?_eq_some_iff.1 hexceeds.1
    refine ⟨within_iff.2 ?_, hnone.2 ⟨place, hplace, hexceeds⟩⟩
    rintro ⟨place', hfirst', hpast⟩
    cases hfirst.unique hfirst'
    exact not_exceeds_of_past hpast hexceeds

/-! ## The notes struck one after another -/

/-- The track with a note, if there is a chord in the quarter note in which it begins. -/
def strike (part : Part) (track : Track) (note : Note) : Except Failure Track :=
  match part.chords[note.onset / part.ticksPerQuarter.toNat]? with
  | none => .ok track
  | some chord => do
    let degree ← Checked.ofInt note.degree
    let key ← chord.keyAt degree part.octave
    let start ← Checked.ofInt (part.offset.toNat + note.onset)
    let duration ← Checked.ofInt note.length
    track.addNote start duration key part.velocity

theorem strike_eq_ok {note : Note} {tone : Tone} (h : part.Renders note tone) (track : Track) :
    part.strike track note = .ok (track.addTone tone) := by
  obtain ⟨⟨chord, degree, hchord, hdegree, hkey⟩, hstart, hfinish, hvelocity⟩ := h
  have hduration : (UInt32.ofNat note.length).toNat = note.length := by
    have hlt : tone.finish.toNat < 2 ^ 32 := tone.finish.toNat_lt
    exact UInt32.toNat_ofNat_of_lt' (show note.length < 2 ^ 32 by omega)
  have hadd : track.addNote tone.start (UInt32.ofNat note.length) tone.key part.velocity =
      .ok (track.addTone tone) := by
    rw [← hvelocity]
    exact track.addNote_eq_ok (by rw [hduration, hfinish]) tone.key tone.velocity
  have hchord : part.chords[note.onset / part.ticksPerQuarter.toNat]? = some chord := hchord
  simp only [strike, hchord]
  refine Checked.bind_eq_ok_iff.2 ⟨degree, Checked.ofInt_eq_ok_iff.2 hdegree, ?_⟩
  refine Checked.bind_eq_ok_iff.2 ⟨tone.key, hkey, ?_⟩
  refine Checked.bind_eq_ok_iff.2
    ⟨tone.start, Checked.ofInt_eq_ok_iff.2 (congrArg Int.ofNat hstart), ?_⟩
  exact Checked.bind_eq_ok_iff.2
    ⟨UInt32.ofNat note.length, Checked.ofInt_eq_ok_iff.2 (congrArg Int.ofNat hduration), hadd⟩

theorem foldlM_strike_eq_ok {notes : List Note} {tones : List Tone}
    (h : List.Forall₂ part.Renders notes tones) (track : Track) :
    notes.foldlM part.strike track = .ok (tones.foldl Track.addTone track) := by
  induction h generalizing track with
  | nil => rfl
  | cons htone _ ih =>
    rw [List.foldlM_cons, strike_eq_ok htone]
    exact ih _

end Part

/-- Notes that follow each other last as long together as the time from the first to the end. -/
theorem Follows.sum_length {start finish : Nat} {notes : List Note}
    (h : Follows start notes finish) : start + (notes.map (·.length)).sum = finish := by
  induction h with
  | nil => rfl
  | cons _ _ ih => rw [List.map_cons, List.sum_cons, ← Nat.add_assoc, ih]

/-- What the places of a melody say of its performance. -/
structure Part.ReadsPlaces (part : Part) (melody : Word) (track : Track) : Prop where
  /-- The melody takes up too much just if a bracket is the first offence. -/
  unbalanced_iff : perform part melody track = .error (.unbalanced melody) ↔
    ∃ place, part.OffendsFirst melody place ∧ Exceeds melody place
  /-- The melody runs past the chords just if a note is the first offence. -/
  pastChords_iff : perform part melody track = .error (.pastChords melody part.chords.length) ↔
    ∃ place, part.OffendsFirst melody place ∧ part.Past melody place
  /-- A melody without an offence is performed by striking its notes in their order, and lasts as
  long as all of them together. -/
  performed : (∀ place, ¬ part.Offends melody place) → ∃ elapsed track',
    perform part melody track = .ok (elapsed, track') ∧
      elapsed.toNat = ((part.written melody).map (·.length)).sum ∧
      (part.written melody).foldlM part.strike track = .ok track'

/-- Why a performance does not come to the end of a melody. -/
inductive Part.Stops (part : Part) (melody : Word) : Failure → Prop
  /-- A number does not fit. -/
  | overflow : Stops part melody .overflow
  /-- A note begins after the last chord. -/
  | past (h : ∃ note ∈ part.written melody, part.chords.length ≤ part.quarter note) :
    Stops part melody (.pastChords melody part.chords.length)
  /-- All notes that are come to have chords, but a bracket cannot be obeyed. -/
  | unbalanced (hwithin : ∀ note ∈ part.written melody, part.quarter note < part.chords.length)
    (hafter : part.opening.after melody = none) : Stops part melody (.unbalanced melody)

theorem Player.WP.perform_or_stops {part : Part} (hticks : part.ticksPerQuarter ≠ 0) (melody : Word)
    (track : Track) :
    Checked.WP (part.Stops melody) ((begin part track).perform part melody melody)
      (Performs part part.opening 0 melody (begin part track)) := by
  have hnotes := part.notes_eq_written melody
  refine WP.perform .overflow hticks (.begin part track) melody (fun hpast => ?_) ?_
  · exact .past (hnotes ▸ hpast)
  · intro hwithin hafter
    exact .unbalanced (hnotes ▸ hwithin) hafter

/-- If all numbers fit, a melody is performed as it reads place by place. -/
theorem perform_readsPlaces {settings : Settings} {chords : List Chord} {octave : Int32}
    {offset : UInt32} {part : Part} {melody : Word} {track : Track}
    (hpart : Part.ofSettings settings chords octave offset = .ok part)
    (hticks : settings.ticksPerQuarter ≠ 0)
    (hover : perform part melody track ≠ .error .overflow) : part.ReadsPlaces melody track := by
  have hticks : part.ticksPerQuarter ≠ 0 := by
    obtain ⟨barTicks, -, hpart⟩ := Checked.bind_eq_ok_iff.1 hpart
    cases hpart
    exact hticks
  have hwp := Player.WP.perform_or_stops hticks melody track
  cases hrun : (Player.begin part track).perform part melody melody with
  | ok player =>
    have hperform : perform part melody track = .ok (player.elapsed, player.track) := by
      rw [perform, hrun]
      rfl
    obtain ⟨hwithin, ⟨s, _, hafter, -⟩, helapsed, tones, htones, htrack⟩ := hwp.of_ok hrun
    have hnotes : score part.opening 0 melody = part.written melody := part.notes_eq_written melody
    have hsum := (follows_score part.opening 0 melody).sum_length
    rw [hnotes] at hwithin htones
    rw [hnotes, Nat.zero_add, ← helapsed] at hsum
    have hstruck := Part.foldlM_strike_eq_ok htones track
    have hrestored : ¬ ∃ place, part.OffendsFirst melody place ∧ Exceeds melody place := by
      rw [← Part.stops_iff, hafter]
      simp
    rw [Part.within_iff] at hwithin
    exact {
      unbalanced_iff := iff_of_false (by simp [hperform]) hrestored
      pastChords_iff := iff_of_false (by simp [hperform]) hwithin
      performed := fun _ => ⟨_, _, hperform, hsum.symm, htrack ▸ hstruck⟩ }
  | error e =>
    have hperform : perform part melody track = .error e := by
      rw [perform, hrun]
      rfl
    cases hwp.of_error hrun with
    | overflow => exact absurd hperform hover
    | past hpast =>
      have hlate := Part.exists_past_iff.1 hpast
      have hrestored : ¬ ∃ place, part.OffendsFirst melody place ∧ Exceeds melody place := by
        rw [← Part.stops_iff, Part.within_iff]
        exact fun hstops => hstops.1 hlate
      exact {
        unbalanced_iff := iff_of_false (by simp [hperform]) hrestored
        pastChords_iff := iff_of_true hperform hlate
        performed := fun hoffends =>
          hlate.elim fun place hfirst => absurd hfirst.1.offends (hoffends place) }
    | unbalanced hwithin hafter =>
      have hexceeds := Part.stops_iff.1 ⟨hwithin, hafter⟩
      exact {
        unbalanced_iff := iff_of_true hperform hexceeds
        pastChords_iff := iff_of_false (by simp [hperform]) (Part.within_iff.1 hwithin)
        performed := fun hoffends =>
          hexceeds.elim fun place hfirst => absurd hfirst.1.offends (hoffends place) }

/-- Bars of four ticks and chords for two of them: a melody that comes to its end, one that takes up
too much, and one whose long second note leaves no chord for the third. -/
theorem perform_readsPlaces_short :
    let settings : Settings := ⟨2, 2, 1, 1, 1, 1, 3, 64, 120⟩
    let chords : List Chord := [⟨⟨0⟩, .major⟩, ⟨⟨5⟩, .major⟩, ⟨⟨7⟩, .major⟩, ⟨⟨9⟩, .minor⟩]
    let part : Part := ⟨chords, 3, 16, 2, 4, 64⟩
    Part.ofSettings settings chords 3 16 = .ok part ∧ settings.ticksPerQuarter ≠ 0 ∧
      ∀ melody ∈ ["[dF+dF]ddd-F?DF".toList, "F]F[".toList, "FDFF]".toList],
        perform part melody .empty ≠ .error .overflow ∧ part.ReadsPlaces melody .empty := by
  intro settings chords part
  have hbar : settings.barTicks = .ok 4 := Checked.mul_eq_ok_iff.2 rfl
  have hpart : Part.ofSettings settings chords 3 16 = .ok part := by
    rw [Part.ofSettings, hbar]
    rfl
  have hticks : settings.ticksPerQuarter ≠ 0 := by decide
  have hover : ∀ melody ∈ ["[dF+dF]ddd-F?DF".toList, "F]F[".toList, "FDFF]".toList],
      perform part melody .empty ≠ .error .overflow := by decide +kernel
  refine ⟨hpart, hticks, fun melody hmelody => ⟨hover melody hmelody, ?_⟩⟩
  exact perform_readsPlaces hpart hticks (hover melody hmelody)

end Chorale.Melody
