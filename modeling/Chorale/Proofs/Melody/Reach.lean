import Chorale.Proofs.Chord.Range
import Chorale.Proofs.Melody.Growth
import Chorale.Proofs.Melody.Performance

/-!
# Performances that come to an end

A degree goes up or down only at a sign of the melody, so that no degree of a performance is farther
from the root than the melody has signs (`Stance.Near.pass`). A player obeys every command whose
outcome his numbers have room for (`Player.exists_obey_of_ne_note`, `Player.exists_obey_note`). So a
melody that can be read is performed to its end if its signs are not too many and its last tick is
one (`exists_perform`).
-/

namespace Chorale.Melody

/-! ## Degrees -/

/-- No degree of a stance is farther from the root than `reach`. -/
structure Stance.Near (reach : Nat) (s : Stance) : Prop where
  degree : s.degree.natAbs ≤ reach
  saved : ∀ aside ∈ s.saved, aside.2.natAbs ≤ reach

theorem Stance.Near.mono {reach reach' : Nat} {s : Stance} (h : s.Near reach)
    (hle : reach ≤ reach') : s.Near reach' :=
  ⟨Nat.le_trans h.degree hle, fun aside haside => Nat.le_trans (h.saved aside haside) hle⟩

theorem Stance.near_begin (length : Nat) : (⟨length, 0, []⟩ : Stance).Near 0 :=
  ⟨Nat.le_refl 0, nofun⟩

/-- A letter leads away from the root by as much as it is a sign. -/
theorem Stance.Near.pass {reach : Nat} {s s' : Stance} {c : Char} (h : s.Near reach)
    (hpass : s.pass c = some s') : s'.Near (reach + signs [c]) := by
  cases hc : Command.ofLetter? c with
  | none =>
    simp only [Stance.pass, hc, Option.some.injEq] at hpass
    rw [← hpass]
    exact h.mono (Nat.le_add_right _ _)
  | some command =>
    simp only [Stance.pass, hc] at hpass
    rw [Command.ofLetter?_eq_some_iff.1 hc]
    have hdegree := h.degree
    have hstep {degree : Int} (hle : degree.natAbs ≤ reach + 1) :
        (⟨s.length, degree, s.saved⟩ : Stance).Near (reach + 1) :=
      ⟨hle, (h.mono (Nat.le_succ reach)).saved⟩
    cases command with
    | up =>
      cases hpass
      apply hstep
      omega
    | down =>
      cases hpass
      apply hstep
      omega
    | note => cases hpass; exact h
    | halve => cases hpass; exact ⟨hdegree, h.saved⟩
    | double => cases hpass; exact ⟨hdegree, h.saved⟩
    | save => cases hpass; exact ⟨hdegree, List.forall_mem_cons.2 ⟨hdegree, h.saved⟩⟩
    | restore =>
      obtain ⟨length, degree, _ | ⟨⟨length', degree'⟩, saved⟩⟩ := s
      · cases hpass
      · cases hpass
        obtain ⟨hfirst, hrest⟩ := List.forall_mem_cons.1 h.saved
        exact ⟨hfirst, hrest⟩

/-! ## Players -/

namespace Player

variable {part : Part} {s s' : Stance} {onset : Nat} {player : Player}

/-- A command that sounds no note is obeyed if there is room for its outcome. -/
theorem exists_obey_of_ne_note (melody : Word) (hplayer : At part s onset player) {command : Command}
    (hnote : command ≠ .note) (hobey : s.obey command = some s') (hlength : s'.length < 2 ^ 32)
    (hdegree : s'.degree.natAbs < 2 ^ 31) :
    ∃ next, player.obey part melody command = .ok next ∧ At part s' onset next := by
  -- It leads to the stance that it leads to without a bound.
  suffices hnext : ∃ next, player.obey part melody command = .ok next by
    obtain ⟨next, hnext⟩ := hnext
    have hwp : Checked.WP (fun _ => True) (player.obey part melody command) _ :=
      WP.obey_of_ne_note trivial hplayer hnote fun _ => trivial
    obtain ⟨-, s'', hs'', hat⟩ := hwp.of_ok hnext
    cases hobey.symm.trans hs''
    exact ⟨next, hnext, hat⟩
  cases command with
  | note => exact absurd rfl hnote
  | up =>
    cases hobey
    have hdegree : (s.degree + 1).natAbs < 2 ^ 31 := hdegree
    obtain ⟨degree, hadd, -⟩ := Checked.exists_ofInt_eq_ok (n := s.degree + 1) (by omega) (by omega)
    rw [← hplayer.degree] at hadd
    exact ⟨_, Checked.bind_eq_ok_iff.2 ⟨degree, hadd, rfl⟩⟩
  | down =>
    cases hobey
    have hdegree : (s.degree - 1).natAbs < 2 ^ 31 := hdegree
    obtain ⟨degree, hsub, -⟩ := Checked.exists_ofInt_eq_ok (n := s.degree - 1) (by omega) (by omega)
    rw [← hplayer.degree] at hsub
    exact ⟨_, Checked.bind_eq_ok_iff.2 ⟨degree, hsub, rfl⟩⟩
  | double =>
    cases hobey
    have hlength : player.length.toNat * (2 : UInt32).toNat < 2 ^ 32 := by
      rw [hplayer.length]
      exact hlength
    obtain ⟨length, hmul, -⟩ := Checked.unsigned32.mul_eq_ok hlength
    exact ⟨_, Checked.bind_eq_ok_iff.2 ⟨length, hmul, rfl⟩⟩
  | halve => exact ⟨_, rfl⟩
  | save => exact ⟨_, rfl⟩
  | restore =>
    have hsaved := hplayer.saved
    cases hplayed : player.saved with
    | nil =>
      rw [hplayed, List.map_nil] at hsaved
      simp only [Stance.obey, ← hsaved] at hobey
      cases hobey
    | cons aside rest =>
      simp only [Player.obey, hplayed]
      exact ⟨_, rfl⟩

/-- A note is sounded if there is a chord for it, its degree is not too far from the root, and its
last tick is one. -/
theorem exists_obey_note (melody : Word) (hticks : part.ticksPerQuarter ≠ 0)
    (hplayer : At part s onset player)
    (hchord : part.quarter ⟨onset, s.length, s.degree⟩ < part.chords.length)
    (hkey : 4 * s.degree.natAbs + 12 * part.octave.toInt.natAbs + 24 < 2 ^ 31)
    (hroom : part.offset.toNat + onset + s.length < 2 ^ 32) :
    ∃ next, player.obey part melody .note = .ok next ∧ At part s (onset + s.length) next := by
  suffices hnext : ∃ next, player.obey part melody .note = .ok next by
    obtain ⟨next, hnext⟩ := hnext
    have hwp : Checked.WP (fun _ => True) (player.obey part melody .note) _ :=
      WP.obey_note trivial hticks hplayer fun _ => trivial
    exact ⟨next, hnext, (hwp.of_ok hnext).1⟩
  have hlength := hplayer.length
  have helapsed := hplayer.elapsed
  obtain ⟨turned, hreading, hle, hturned⟩ := hplayer.reading
  have hturn := Reading.turnTo_after hle hturned
  have hlt : onset / part.ticksPerQuarter.toNat < part.chords.length := hchord
  rw [if_pos hlt] at hturn
  simp only [Player.obey, if_neg hticks, hreading, helapsed, Reading.after, hturn]
  have hnext := Reading.after_chord hlt
  rw [List.getElem?_eq_getElem hlt] at hnext
  -- The key, the ticks of the note and the ticks performed, in the order in which they are needed.
  rw [← hplayer.degree] at hkey
  obtain ⟨key, hkey⟩ :=
    part.chords[onset / part.ticksPerQuarter.toNat].exists_keyAt_eq_ok hkey
  obtain ⟨start, hstart, hfrom⟩ :=
    Checked.unsigned32.add_eq_ok (a := part.offset) (b := player.elapsed) (by omega)
  have hfinish : start.toNat + player.length.toNat < 2 ^ 32 := by omega
  obtain ⟨track, htrack⟩ := player.track.exists_addNote_eq_ok hfinish key part.velocity
  obtain ⟨elapsed, hadd, -⟩ :=
    Checked.unsigned32.add_eq_ok (a := player.elapsed) (b := player.length) (by omega)
  have hsound : Player.sound part
      { player with reading := .after part.chords (onset / part.ticksPerQuarter.toNat + 1) } =
        .ok track := by
    simp only [Player.sound, hnext]
    exact Checked.bind_eq_ok_iff.2 ⟨key, hkey, Checked.bind_eq_ok_iff.2 ⟨start, hstart, htrack⟩⟩
  exact ⟨_, Checked.bind_eq_ok_iff.2 ⟨track, hsound, Checked.bind_eq_ok_iff.2 ⟨elapsed, hadd, rfl⟩⟩⟩

/-- A letter is performed as the command that it stands for. -/
theorem exists_perform_cons {melody rest : Word} {c : Char} {command : Command} {next : Player}
    (hc : Command.ofLetter? c = some command) (hobey : player.obey part melody command = .ok next)
    (hrest : ∃ last, next.perform part melody rest = .ok last) :
    ∃ last, player.perform part melody (c :: rest) = .ok last := by
  obtain ⟨last, hlast⟩ := hrest
  refine ⟨last, ?_⟩
  simp only [Player.perform, hc]
  exact Checked.bind_eq_ok_iff.2 ⟨next, hobey, hlast⟩

/-- A player performs what can be read. The induction is on the reading; what is left of the signs
and of the ticks is what the degree and the time may still go up by. -/
theorem exists_perform (melody : Word) {good : Nat → Prop}
    (hgood : ∀ l, good l → 1 ≤ l ∧ l < 2 ^ 32)
    (hticks : part.ticksPerQuarter ≠ 0) {p q : Pulse} {rest : Word} {n reach : Nat}
    (h : Reads good p rest q n) (hs : s.pulse = p) (hplayer : At part s onset player)
    (hlength : good s.length) (hnear : s.Near reach)
    (hkeys : 4 * (reach + signs rest) + 12 * part.octave.toInt.natAbs + 24 < 2 ^ 31)
    (hchords : onset + n ≤ part.chords.length * part.ticksPerQuarter.toNat)
    (hroom : part.offset.toNat + onset + n < 2 ^ 32) :
    ∃ last, player.perform part melody rest = .ok last := by
  induction h generalizing s onset player reach with
  | nil => exact ⟨player, rfl⟩
  | @cons p p' q c rest n hpass hgood' _ ih =>
    subst hs
    rw [signs_cons] at hkeys
    rw [← s.map_pulse_pass, Option.map_eq_some_iff] at hpass
    obtain ⟨s', hs', rfl⟩ := hpass
    have hdegree := hnear.degree
    have hnear' := hnear.pass hs'
    have hdegree' := hnear'.degree
    by_cases hc : Command.ofLetter? c = some .note
    · cases (s.pass_note hc).symm.trans hs'
      have htick : s.pulse.ticks c = s.length := if_pos hc
      rw [htick] at hchords hroom
      have hpos := (hgood _ hlength).1
      have hquarter : part.quarter ⟨onset, s.length, s.degree⟩ < part.chords.length :=
        Nat.div_lt_of_lt_mul (show onset < _ by rw [Nat.mul_comm]; omega)
      obtain ⟨next, hobey, hnext⟩ := exists_obey_note melody hticks hplayer hquarter (by omega)
        (by omega)
      apply exists_perform_cons hc hobey
      exact ih rfl hnext hlength hnear' (by omega) (by omega) (by omega)
    · have htick : s.pulse.ticks c = 0 := if_neg hc
      rw [htick, Nat.zero_add] at hchords hroom
      cases hcommand : Command.ofLetter? c with
      | none =>
        simp only [Stance.pass, hcommand, Option.some.injEq] at hs'
        subst hs'
        simp only [Player.perform, hcommand]
        exact ih rfl hplayer hlength hnear' (by omega) hchords hroom
      | some command =>
        have hnote : command ≠ .note := fun e => hc (e ▸ hcommand)
        simp only [Stance.pass, hcommand] at hs'
        obtain ⟨next, hobey, hnext⟩ := exists_obey_of_ne_note melody hplayer hnote hs'
          (hgood _ hgood').2 (by omega)
        apply exists_perform_cons hcommand hobey
        exact ih rfl hnext hgood' hnear' (by omega) hchords hroom

end Player

/-- A melody that can be read is performed to its end if it has not too many signs and chords
enough, and if its last tick is one. -/
theorem exists_perform (part : Part) {melody : Word} {good : Nat → Prop} {q : Pulse} {n : Nat}
    (hgood : ∀ l, good l → 1 ≤ l ∧ l < 2 ^ 32) (hticks : part.ticksPerQuarter ≠ 0)
    (hmelody : Reads good ⟨part.barTicks.toNat, []⟩ melody q n) (hbar : good part.barTicks.toNat)
    (hkeys : 4 * signs melody + 12 * part.octave.toInt.natAbs + 24 < 2 ^ 31)
    (hchords : n ≤ part.chords.length * part.ticksPerQuarter.toNat)
    (hroom : part.offset.toNat + n < 2 ^ 32) (track : Track) :
    ∃ result, perform part melody track = .ok result := by
  have hnear := Stance.near_begin part.barTicks.toNat
  obtain ⟨player, hplayer⟩ := Player.exists_perform melody hgood hticks hmelody rfl
    (.begin part track) hbar hnear (by omega) (by omega) (by omega)
  exact ⟨_, Checked.bind_eq_ok_iff.2 ⟨player, hplayer, rfl⟩⟩

end Chorale.Melody
