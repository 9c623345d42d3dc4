import Chorale.Proofs.Melody.Performance
import Chorale.Proofs.Settings.Check

/-!
# Melodies by themselves

A melody that can be performed in the course of a piece can be performed by itself, from tick 0 on
and onto any track (`exists_perform_alone`): a player goes through the same lengths, degrees and
chords, and only ticks get smaller. What is heard is the same but for the time at which it begins
(`Part.heardFrom_of_renders`).
-/

namespace Chorale

/-! ## Hearing a track from a tick on -/

/-- An event of a track that is begun at a tick: when it comes, and what it is. -/
def NoteEvent.heardFrom (start : Nat) (event : NoteEvent) : Nat × EventKind × UInt8 × UInt8 :=
  (start + event.tick.toNat, event.kind, event.key, event.velocity)

/-- The events of a track that is begun at a tick. -/
def Track.heardFrom (start : Nat) (track : Track) : List (Nat × EventKind × UInt8 × UInt8) :=
  track.events.toList.map (·.heardFrom start)

/-- A smaller sum fits if a sum does. -/
theorem Checked.exists_add_of_le {a a' b c : UInt32} (h : Checked.add a b = .ok c)
    (hle : a'.toNat ≤ a.toNat) : ∃ c', Checked.add a' b = .ok c' := by
  have hc : c.toNat = a.toNat + b.toNat := Int.ofNat.inj (Checked.add_eq_ok_iff.1 h)
  have hlt := c.toNat_lt
  obtain ⟨c', hc', -⟩ := Checked.unsigned32.add_eq_ok (a := a') (b := b) (by omega)
  exact ⟨c', hc'⟩

/-- A note that begins earlier can be added to any track if a note can be added. -/
theorem Track.exists_addNote_of_le {track track' : Track} {start start' duration : UInt32}
    {key velocity : UInt8} (h : track.addNote start duration key velocity = .ok track')
    (hle : start'.toNat ≤ start.toNat) (track₀ : Track) :
    ∃ track₁, track₀.addNote start' duration key velocity = .ok track₁ := by
  obtain ⟨finish, hfinish, -⟩ := Checked.bind_eq_ok_iff.1 h
  obtain ⟨finish', hfinish'⟩ := Checked.exists_add_of_le hfinish hle
  refine ⟨(track₀.insert ⟨start', .on, key, velocity⟩).insert ⟨finish', .off, key, velocity⟩, ?_⟩
  rw [Track.addNote, hfinish']
  rfl

namespace Melody

/-! ## A player from tick 0 on -/

/-- The part as it is performed by itself. -/
def Part.alone (part : Part) : Part := { part with offset := 0 }

namespace Player

variable {part : Part} {melody w : Word} {player next : Player} {track track' : Track}

theorem exists_sound_alone (h : player.sound part = .ok track') (track : Track) :
    ∃ track₁, ({ player with track } : Player).sound part.alone = .ok track₁ := by
  cases hchord : player.reading.chord with
  | none => exact ⟨track, by simp only [sound, hchord]⟩
  | some chord =>
    simp only [sound, hchord] at h ⊢
    obtain ⟨key, hkey, h⟩ := Checked.bind_eq_ok_iff.1 h
    obtain ⟨start, hstart, h⟩ := Checked.bind_eq_ok_iff.1 h
    have hfrom : start.toNat = part.offset.toNat + player.elapsed.toNat :=
      Int.ofNat.inj (Checked.add_eq_ok_iff.1 hstart)
    have hzero : Checked.add 0 player.elapsed = .ok player.elapsed :=
      Checked.add_eq_ok_iff.2 (Int.zero_add _).symm
    have hle : player.elapsed.toNat ≤ start.toNat := by omega
    obtain ⟨track₁, htrack₁⟩ := Track.exists_addNote_of_le h hle track
    refine ⟨track₁, Checked.bind_eq_ok_iff.2 ⟨key, hkey, ?_⟩⟩
    exact Checked.bind_eq_ok_iff.2 ⟨player.elapsed, hzero, htrack₁⟩

/-- A command that can be obeyed is obeyed alike from tick 0 on. -/
theorem exists_obey_alone {command : Command} (h : player.obey part melody command = .ok next)
    (track : Track) : ∃ track₁,
      ({ player with track } : Player).obey part.alone melody command =
        .ok { next with track := track₁ } := by
  cases command with
  | note =>
    unfold obey at h ⊢
    by_cases hticks : part.ticksPerQuarter = 0
    · simp only [if_pos hticks] at h
      cases h
    · have hticks' : ¬ part.alone.ticksPerQuarter = 0 := hticks
      simp only [if_neg hticks] at h
      simp only [if_neg hticks']
      cases hturn : Reading.turnTo (player.elapsed.toNat / part.ticksPerQuarter.toNat)
          player.reading.turned player.reading.chord player.reading.ahead with
      | none =>
        simp only [hturn] at h
        cases h
      | some reading =>
        have hturn' : Reading.turnTo (player.elapsed.toNat / part.alone.ticksPerQuarter.toNat)
          player.reading.turned player.reading.chord player.reading.ahead = some reading := hturn
        simp only [hturn] at h
        simp only [hturn']
        obtain ⟨_, hsound, h⟩ := Checked.bind_eq_ok_iff.1 h
        obtain ⟨elapsed, helapsed, h⟩ := Checked.bind_eq_ok_iff.1 h
        cases h
        obtain ⟨track₁, htrack₁⟩ := exists_sound_alone hsound track
        refine ⟨track₁, Checked.bind_eq_ok_iff.2 ⟨track₁, htrack₁, ?_⟩⟩
        exact Checked.bind_eq_ok_iff.2 ⟨elapsed, helapsed, rfl⟩
  | up | down | double =>
    obtain ⟨value, hvalue, h⟩ := Checked.bind_eq_ok_iff.1 h
    cases h
    exact ⟨track, Checked.bind_eq_ok_iff.2 ⟨value, hvalue, rfl⟩⟩
  | halve | save =>
    cases h
    exact ⟨track, rfl⟩
  | restore =>
    unfold obey at h ⊢
    cases hsaved : player.saved with
    | nil =>
      simp only [hsaved] at h
      cases h
    | cons aside saved =>
      simp only [hsaved] at h ⊢
      cases h
      exact ⟨track, rfl⟩

theorem exists_perform_alone (h : player.perform part melody w = .ok next) (track : Track) :
    ∃ track₁, ({ player with track } : Player).perform part.alone melody w =
      .ok { next with track := track₁ } := by
  induction w generalizing player track with
  | nil => cases h; exact ⟨track, rfl⟩
  | cons c w ih =>
    unfold perform at h ⊢
    cases hc : Command.ofLetter? c with
    | none =>
      simp only [hc] at h ⊢
      exact ih h track
    | some command =>
      simp only [hc] at h ⊢
      obtain ⟨middle, hmiddle, h⟩ := Checked.bind_eq_ok_iff.1 h
      obtain ⟨track₁, htrack₁⟩ := exists_obey_alone hmiddle track
      obtain ⟨track₂, htrack₂⟩ := ih h track₁
      exact ⟨track₂, Checked.bind_eq_ok_iff.2 ⟨_, htrack₁, htrack₂⟩⟩

end Player

variable {part : Part} {melody : Word}

/-- A melody that can be performed can be performed by itself, and lasts as long. -/
theorem exists_perform_alone {track track' : Track} {ticks : UInt32}
    (h : perform part melody track = .ok (ticks, track')) (track₀ : Track) :
    ∃ track₁, perform part.alone melody track₀ = .ok (ticks, track₁) := by
  obtain ⟨player, hplayer, h⟩ := Checked.bind_eq_ok_iff.1 h
  cases h
  obtain ⟨track₁, htrack₁⟩ := Player.exists_perform_alone hplayer track₀
  exact ⟨track₁, Checked.bind_eq_ok_iff.2 ⟨_, htrack₁, rfl⟩⟩

/-! ## What is heard -/

/-- A note sounds the same key wherever the part begins, for the same time. -/
theorem Part.Renders.heardFrom {note : Note} {tone alone : Tone} (h : part.Renders note tone)
    (halone : part.alone.Renders note alone) :
    tone.events.map (·.heardFrom 0) = alone.events.map (·.heardFrom part.offset.toNat) := by
  obtain ⟨chord, degree, hchord, hdegree, hkey⟩ := h.key
  obtain ⟨chord', degree', hchord', hdegree', hkey'⟩ := halone.key
  have hchord' : part.chords[part.quarter note]? = some chord' := hchord'
  cases hchord.symm.trans hchord'
  cases Int32.toInt_inj.1 (hdegree.trans hdegree'.symm)
  have hkey : tone.key = alone.key := Except.ok.inj (hkey.symm.trans hkey')
  have hstart : alone.start.toNat = 0 + note.onset := halone.start
  have hvelocity : tone.velocity = alone.velocity := h.velocity.trans halone.velocity.symm
  simp only [Tone.events, Tone.on, Tone.off, List.map_cons, List.map_nil, NoteEvent.heardFrom,
    hkey, hvelocity, h.start, h.finish, hstart, halone.finish, Nat.zero_add, Nat.add_assoc]

/-- All notes of a melody are heard as they are by themselves, from the tick at which the part
begins. -/
theorem Part.heardFrom_of_renders {notes : List Note} {tones alone : List Tone}
    (h : List.Forall₂ part.Renders notes tones) (halone : List.Forall₂ part.alone.Renders notes alone) :
    (tones.flatMap Tone.events).map (·.heardFrom 0) =
      (alone.flatMap Tone.events).map (·.heardFrom part.offset.toNat) := by
  induction h generalizing alone with
  | nil => cases halone; rfl
  | cons htone _ ih =>
    cases halone with
    | cons hfirst hrest =>
      rw [List.flatMap_cons, List.flatMap_cons, List.map_append, List.map_append,
        htone.heardFrom hfirst, ih hrest]

end Melody

end Chorale
