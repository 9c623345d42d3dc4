import Chorale.Proofs.Melody.Performance
import Chorale.Proofs.Settings.Check

/-!
# The judge and the player

A melody is read twice: `isPlayable` keeps note lengths and nothing else, a player keeps lengths with
degrees, chords and a track. Both keep to one stance, so that they agree on every melody: the judge
refuses it just if a player *stumbles* over it (`Stance.Stumbles`), by taking up what was not laid
aside or by halving a length to nothing.

* `Stance.playable_eq`: the judge refuses just the words over which a stance stumbles;
* `Reads.of_not_stumbles`: a word without such a place can be read to its end;
* `Player.after_of_perform`: wherever a player arrives, the stance is the one the word leads to;
* `isPlayable_judges`: the judge and the player together.
-/

namespace Chorale.Melody

/-! ## Stumbling -/

namespace Stance

variable {s s' : Stance} {c : Char} {w : Word}

/-- The letter takes up what was not laid aside, or halves the note length to nothing. -/
def StumblesAt (s : Stance) (c : Char) : Prop :=
  c = ']' ∧ s.saved = [] ∨ c = 'd' ∧ s.length / 2 = 0

/-- Somewhere in the word is a letter to stumble at. -/
def Stumbles (s : Stance) (w : Word) : Prop :=
  ∃ u c, u ++ [c] <+: w ∧ ∃ s', s.after u = some s' ∧ s'.StumblesAt c

/-- No length that is doubled in the word leaves the range of 32 bits. -/
def DoublesFit (s : Stance) (w : Word) : Prop :=
  ∀ u, u ++ ['D'] <+: w → ∀ s', s.after u = some s' → s'.length * 2 < 2 ^ 32

/-- The length of a stance and those laid aside are all good. -/
structure LengthsAre (good : Nat → Prop) (s : Stance) : Prop where
  length : good s.length
  saved : ∀ aside ∈ s.saved, good aside.1

theorem pass_eq_none_iff : s.pass c = none ↔ c = ']' ∧ s.saved = [] := by
  cases hc : Command.ofLetter? c with
  | none =>
    have hne : c ≠ ']' := fun e => by subst e; cases hc
    simp [pass, hc, hne]
  | some command =>
    rw [Command.ofLetter?_eq_some_iff] at hc
    subst hc
    obtain ⟨length, degree, _ | ⟨⟨_, _⟩, saved⟩⟩ := s <;> cases command <;>
      simp [pass, obey, Command.letter, Command.ofLetter?]

theorem exists_pass_of_not_stumblesAt (h : ¬ s.StumblesAt c) : ∃ s', s.pass c = some s' := by
  cases hpass : s.pass c with
  | none => exact absurd (.inl (pass_eq_none_iff.1 hpass)) h
  | some s' => exact ⟨s', rfl⟩

/-- What is good of all lengths stays so, if it stays so of halves and doubles. -/
theorem LengthsAre.pass {good : Nat → Prop} (h : s.LengthsAre good) (hhalf : c = 'd' → good (s.length / 2))
    (hdouble : c = 'D' → good (s.length * 2)) (hpass : s.pass c = some s') : s'.LengthsAre good := by
  obtain ⟨hlength, hsaved⟩ := h
  cases hc : Command.ofLetter? c with
  | none =>
    simp only [Stance.pass, hc, Option.some.injEq] at hpass
    exact hpass ▸ ⟨hlength, hsaved⟩
  | some command =>
    simp only [Stance.pass, hc] at hpass
    rw [Command.ofLetter?_eq_some_iff] at hc
    subst hc
    cases command with
    | halve => cases hpass; exact ⟨hhalf rfl, hsaved⟩
    | double => cases hpass; exact ⟨hdouble rfl, hsaved⟩
    | save => cases hpass; exact ⟨hlength, List.forall_mem_cons.2 ⟨hlength, hsaved⟩⟩
    | restore =>
      obtain ⟨_, _, _ | ⟨⟨length, degree⟩, saved⟩⟩ := s
      · cases hpass
      · cases hpass
        exact ⟨hsaved _ List.mem_cons_self, fun aside ha => hsaved aside (List.mem_cons_of_mem _ ha)⟩
    | note | up | down => cases hpass; exact ⟨hlength, hsaved⟩

/-! ## Letter by letter -/

theorem not_stumbles_nil : ¬ s.Stumbles [] := by
  rintro ⟨u, c, hu, -⟩
  simp at hu

theorem Stumbles.of_at (h : s.StumblesAt c) : s.Stumbles (c :: w) :=
  ⟨[], c, by simp, s, rfl, h⟩

theorem stumbles_cons_iff (h : ¬ s.StumblesAt c) (hpass : s.pass c = some s') :
    s.Stumbles (c :: w) ↔ s'.Stumbles w := by
  constructor
  · rintro ⟨_ | ⟨c', u⟩, c'', hu, s'', hafter, hstumbles⟩
    · rw [List.nil_append, List.cons_prefix_cons] at hu
      cases hafter
      exact absurd (hu.1 ▸ hstumbles) h
    · rw [List.cons_append, List.cons_prefix_cons] at hu
      obtain ⟨rfl, hu⟩ := hu
      rw [after_cons u hpass] at hafter
      exact ⟨u, c'', hu, s'', hafter, hstumbles⟩
  · rintro ⟨u, c', hu, s'', hafter, hstumbles⟩
    refine ⟨c :: u, c', List.cons_prefix_cons.2 ⟨rfl, hu⟩, s'', ?_, hstumbles⟩
    rw [after_cons u hpass, hafter]

theorem stumbles_of_after_eq_none (h : s.after w = none) : s.Stumbles w := by
  induction w generalizing s with
  | nil => cases h
  | cons c w ih =>
    by_cases hstumbles : s.StumblesAt c
    · exact .of_at hstumbles
    · obtain ⟨s', hpass⟩ := exists_pass_of_not_stumblesAt hstumbles
      rw [after_cons w hpass] at h
      exact (stumbles_cons_iff hstumbles hpass).2 (ih h)

theorem DoublesFit.head (h : s.DoublesFit ('D' :: w)) : s.length * 2 < 2 ^ 32 :=
  h [] (by simp) s rfl

theorem DoublesFit.tail (h : s.DoublesFit (c :: w)) (hpass : s.pass c = some s') :
    s'.DoublesFit w := by
  intro u hu s'' hafter
  refine h (c :: u) (List.cons_prefix_cons.2 ⟨rfl, hu⟩) s'' ?_
  rw [after_cons u hpass, hafter]

/-! ## The judge -/

/-- Lengths of 32 bits that are not zero. -/
def Sounding (l : Nat) : Prop := 1 ≤ l ∧ l < 2 ^ 32

theorem playable_of_stumblesAt (hs : s.LengthsAre Sounding) (h : s.StumblesAt c) :
    s.pulse.playable (c :: w) = .ok false := by
  rcases h with ⟨rfl, hsaved⟩ | ⟨rfl, hhalf⟩
  · simp only [Pulse.playable, pulse, hsaved, List.map_nil]
    rfl
  · obtain ⟨hpos, -⟩ := hs.length
    have hone : s.length = 1 := by omega
    simp only [Pulse.playable, pulse, hone]
    rfl

/-- The judge gives a verdict on every word in which no doubled length overflows, and refuses those
over which the stance stumbles. -/
theorem playable_eq (hs : s.LengthsAre Sounding) (hdoubles : s.DoublesFit w) :
    ∃ playable, s.pulse.playable w = .ok playable ∧ (playable = false ↔ s.Stumbles w) := by
  induction w generalizing s with
  | nil => exact ⟨true, rfl, nofun, fun h => absurd h not_stumbles_nil⟩
  | cons c w ih =>
    by_cases hstumbles : s.StumblesAt c
    · exact ⟨false, playable_of_stumblesAt hs hstumbles, fun _ => .of_at hstumbles, fun _ => rfl⟩
    · obtain ⟨s', hpass⟩ := exists_pass_of_not_stumblesAt hstumbles
      have hs' : s'.LengthsAre Sounding := by
        have hlength := hs.length
        refine hs.pass (fun hc => ?_) (fun hc => ?_) hpass
        · have hhalf : s.length / 2 ≠ 0 := fun e => hstumbles (.inr ⟨hc, e⟩)
          simp only [Sounding] at hlength ⊢
          omega
        · subst hc
          have hdouble := hdoubles.head
          simp only [Sounding] at hlength ⊢
          omega
      rw [stumbles_cons_iff hstumbles hpass,
        Reads.playable_cons (pulse_pass hpass) hs.length.2 hs'.length w]
      exact ih hs' (hdoubles.tail hpass)

end Stance

/-- A half of a power of two is one, unless it is rounded down to nothing. -/
theorem exists_two_pow_half (l : Nat) (h : ∃ k, l = 2 ^ k) (hne : l / 2 ≠ 0) : ∃ k, l / 2 = 2 ^ k := by
  obtain ⟨_ | k, rfl⟩ := h
  · exact absurd rfl hne
  · exact ⟨k, by rw [Nat.pow_succ, Nat.mul_div_cancel _ (by decide)]⟩

theorem exists_two_pow_double (l : Nat) (h : ∃ k, l = 2 ^ k) : ∃ k, l * 2 = 2 ^ k := by
  obtain ⟨k, rfl⟩ := h
  exact ⟨k + 1, (Nat.pow_succ ..).symm⟩

/-- A word without a place to stumble at can be read through good lengths, if what is good stays so
when it is halved or doubled. -/
theorem Reads.of_not_stumbles {good : Nat → Prop} (hhalf : ∀ l, good l → l / 2 ≠ 0 → good (l / 2))
    (hdouble : ∀ l, good l → good (l * 2)) {s : Stance} {w : Word} (hs : s.LengthsAre good)
    (h : ¬ s.Stumbles w) : ∃ q n, Reads good s.pulse w q n := by
  induction w generalizing s with
  | nil => exact ⟨s.pulse, 0, .nil _⟩
  | cons c w ih =>
    have hstumbles : ¬ s.StumblesAt c := fun hat => h (.of_at hat)
    obtain ⟨s', hpass⟩ := Stance.exists_pass_of_not_stumblesAt hstumbles
    have hs' : s'.LengthsAre good :=
      hs.pass (fun hc => hhalf _ hs.length fun e => hstumbles (.inr ⟨hc, e⟩))
        (fun _ => hdouble _ hs.length) hpass
    obtain ⟨q, n, hrest⟩ := ih hs' (mt (Stance.stumbles_cons_iff hstumbles hpass).2 h)
    exact ⟨q, _, .cons (Stance.pulse_pass hpass) hs'.length hrest⟩

/-! ## The player -/

/-- The stance in which a melody begins. -/
def Part.opening (part : Part) : Stance := ⟨part.barTicks.toNat, 0, []⟩

/-- A quarter note has ticks if a bar has. -/
theorem ticksPerQuarter_ne_zero {settings : Settings} {chords : List Chord} {octave : Int32}
    {offset : UInt32} {part : Part}
    (hpart : Part.ofSettings settings chords octave offset = .ok part) (hbar : 1 ≤ part.barTicks) :
    part.ticksPerQuarter ≠ 0 := by
  obtain ⟨barTicks, hticks, hpart⟩ := Checked.bind_eq_ok_iff.1 hpart
  cases hpart
  intro hzero
  have hticks : barTicks.toNat = settings.ticksPerQuarter.toNat * settings.quartersPerBar.toNat :=
    Int.ofNat.inj (Checked.mul_eq_ok_iff.1 hticks)
  have hzero : settings.ticksPerQuarter = 0 := hzero
  have hbar : 1 ≤ barTicks.toNat := UInt32.le_iff_toNat_le.1 hbar
  rw [hticks, hzero] at hbar
  simp at hbar

namespace Player

/-- The lengths and degrees of a player, as numbers. -/
def stance (player : Player) : Stance where
  length := player.length.toNat
  degree := player.degree.toInt
  saved := player.saved.map fun aside => (aside.1.toNat, aside.2.toInt)

variable {part : Part} {melody u : Word} {track : Track} {player : Player}

theorem At.stance_eq {s : Stance} {onset : Nat} (h : At part s onset player) :
    player.stance = s := by
  obtain ⟨length, degree, saved⟩ := s
  simp only [stance, h.length, h.degree, h.saved]

/-- The player after two words is the one who goes on from the first to the second. -/
theorem perform_append (part : Part) (melody : Word) (player : Player) (u v : Word) :
    player.perform part melody (u ++ v) =
      player.perform part melody u >>= fun next => next.perform part melody v := by
  induction u generalizing player with
  | nil => rfl
  | cons c u ih =>
    rw [List.cons_append, perform, perform]
    cases hc : Command.ofLetter? c with
    | none => exact ih _
    | some command =>
      simp only
      cases player.obey part melody command with
      | error e => rfl
      | ok next => exact ih next

variable (hticks : part.ticksPerQuarter ≠ 0)
include hticks

/-- What a player has come to, after any word that can be performed. -/
theorem performs_of_perform (h : (begin part track).perform part melody u = .ok player) :
    Performs part part.opening 0 u (begin part track) player := by
  have hwp : Checked.WP (fun _ => True) ((begin part track).perform part melody u)
      (Performs part part.opening 0 u (begin part track)) :=
    WP.perform trivial hticks (.begin part track) u (fun _ => trivial) fun _ _ => trivial
  exact hwp.of_ok h

/-- Wherever a player arrives in a melody, the stance is the one that the word leads to. -/
theorem after_of_perform (h : (begin part track).perform part melody u = .ok player) :
    part.opening.after u = some player.stance := by
  obtain ⟨s, onset, hafter, hplayer⟩ := (performs_of_perform hticks h).obeyed
  rw [hplayer.stance_eq, hafter]

/-- A player who does not arrive at a place that the stance comes to was stopped by a number that
does not fit, or by the end of the chords. -/
theorem failure_of_after {s : Stance} {e : Failure} (hafter : part.opening.after u = some s)
    (h : (begin part track).perform part melody u = .error e) :
    e = .overflow ∨ e = .pastChords melody part.chords.length := by
  have hwp : Checked.WP (fun e => e = .overflow ∨ e = .pastChords melody part.chords.length)
      ((begin part track).perform part melody u) _ :=
    WP.perform (.inl rfl) hticks (.begin part track) u (fun _ => .inr rfl)
      fun _ hnone => by cases hafter.symm.trans hnone
  exact hwp.of_error h

/-- All tones that a player sounds last, if the melody is read through lengths that do. -/
theorem tones_of_perform {q : Pulse} {n : Nat} (hmelody : Reads (1 ≤ ·) part.opening.pulse melody q n)
    (hbar : 1 ≤ part.opening.length) (hu : u <+: melody)
    (h : (begin part track).perform part melody u = .ok player) :
    ∃ tones : List Tone, player.track = tones.foldl Track.addTone track ∧
      ∀ tone ∈ tones, tone.start < tone.finish := by
  obtain ⟨tones, htones, htrack⟩ := (performs_of_perform hticks h).tones
  refine ⟨tones, htrack, fun tone htone => ?_⟩
  obtain ⟨v, rfl⟩ := hu
  obtain ⟨p, m, k, hread, -, -⟩ := hmelody.split
  obtain ⟨i, hi, rfl⟩ := List.getElem_of_mem htone
  have hi' := htones.length_eq ▸ hi
  have hrenders := htones.get hi' hi
  have hlength : 1 ≤ (score part.opening 0 u)[i].length :=
    good_of_mem_score hread rfl hbar (List.getElem_mem hi')
  have hfinish : tones[i].finish.toNat = tones[i].start.toNat + (score part.opening 0 u)[i].length :=
    hrenders.finish
  rw [UInt32.lt_iff_toNat_lt]
  omega

end Player

/-! ## Both together -/

/-- What the verdict of the judge on a melody says of the players who perform it onto a track. -/
structure Judged (part : Part) (melody : Word) (track : Track) (playable : Bool) : Prop where
  verdict : isPlayable part.barTicks melody = .ok playable
  /-- A melody is refused just if its stance stumbles. -/
  refused_iff : playable = false ↔ part.opening.Stumbles melody
  /-- Wherever a player arrives, the lengths and degrees are those of the stance. -/
  follows : ∀ u player, u <+: melody →
    (Player.begin part track).perform part melody u = .ok player →
    part.opening.after u = some player.stance
  /-- So a melody is refused just if a player stumbles, whom no number that does not fit stops
  before that. -/
  met_iff : Melody.perform part melody track ≠ .error .overflow →
    (playable = false ↔ ∃ u c player, u ++ [c] <+: melody ∧
      (Player.begin part track).perform part melody u = .ok player ∧ player.stance.StumblesAt c)
  /-- Nothing else stops a player of a playable melody. -/
  fails : playable = true → ∀ e, Melody.perform part melody track = .error e → e = .overflow
  /-- All tones of a playable melody last. -/
  lasts : playable = true → ∀ u player, u <+: melody →
    (Player.begin part track).perform part melody u = .ok player →
    ∃ tones : List Tone, player.track = tones.foldl Track.addTone track ∧
      ∀ tone ∈ tones, tone.start < tone.finish
  /-- If a bar has a power of two of ticks, a playable melody halves only even lengths. -/
  halves : playable = true → isPowerOfTwo part.barTicks.toNat = true → ∀ u, u ++ ['d'] <+: melody →
    ∃ s, part.opening.after u = some s ∧ 2 ∣ s.length

variable {part : Part} {melody u : Word} {track : Track} {e : Failure}

/-- Where a player fails in the middle of a melody, the performance fails. -/
theorem perform_eq_error_of_isPrefix (hu : u <+: melody)
    (h : (Player.begin part track).perform part melody u = .error e) :
    Melody.perform part melody track = .error e := by
  obtain ⟨v, hv⟩ := hu
  have hmelody := Player.perform_append part melody (.begin part track) u v
  rw [hv, h] at hmelody
  rw [Melody.perform, hmelody]
  rfl

/-- A performance fails because a number does not fit or because the stance stumbles, if there are
chords enough. -/
theorem failure_of_perform (hticks : part.ticksPerQuarter ≠ 0)
    (hchords : ∀ note ∈ part.notes melody, part.quarter note < part.chords.length)
    (h : Melody.perform part melody track = .error e) :
    e = .overflow ∨ e = .unbalanced melody ∧ part.opening.Stumbles melody := by
  have hwp : Checked.WP
      (fun e => e = .overflow ∨ e = .unbalanced melody ∧ part.opening.Stumbles melody)
      (Melody.perform part melody track) _ :=
    WP.perform_of_chords (.inl rfl) hticks hchords
      (fun hnone => .inr ⟨rfl, Stance.stumbles_of_after_eq_none hnone⟩) track
  exact hwp.of_error h

/-- If the stance stumbles, a player does, whom no number that does not fit stops before that. -/
theorem exists_player_of_stumbles (hticks : part.ticksPerQuarter ≠ 0)
    (hchords : ∀ note ∈ part.notes melody, part.quarter note < part.chords.length)
    (hover : Melody.perform part melody track ≠ .error .overflow)
    (h : part.opening.Stumbles melody) : ∃ u c player, u ++ [c] <+: melody ∧
      (Player.begin part track).perform part melody u = .ok player ∧ player.stance.StumblesAt c := by
  obtain ⟨u, c, hu, s, hafter, hstumbles⟩ := h
  have hprefix : u <+: melody := List.IsPrefix.trans (List.prefix_append u [c]) hu
  cases hrun : (Player.begin part track).perform part melody u with
  | ok player =>
    cases hafter.symm.trans (Player.after_of_perform hticks hrun)
    exact ⟨u, c, player, hu, hrun, hstumbles⟩
  | error e =>
    -- Up to here the stance has not stumbled, so only numbers and chords could stop the player.
    have hfails := perform_eq_error_of_isPrefix hprefix hrun
    rcases Player.failure_of_after hticks hafter hrun with rfl | rfl
    · exact absurd hfails hover
    · rcases failure_of_perform hticks hchords hfails with h | ⟨h, -⟩ <;> cases h

/-- For every melody in which no doubled length overflows the judge gives a verdict, and the players
with chords enough bear it out. -/
theorem isPlayable_judges {settings : Settings} {chords : List Chord} {octave : Int32}
    {offset : UInt32} (hpart : Part.ofSettings settings chords octave offset = .ok part)
    (hbar : 1 ≤ part.barTicks) (hdoubles : part.opening.DoublesFit melody)
    (hchords : ∀ note ∈ part.notes melody, part.quarter note < part.chords.length)
    (track : Track) : ∃ playable, Judged part melody track playable := by
  have hlow : 1 ≤ part.opening.length := UInt32.le_iff_toNat_le.1 hbar
  have hhigh : part.opening.length < 2 ^ 32 := part.barTicks.toNat_lt
  have hnone (good : Nat → Prop) : ∀ aside ∈ part.opening.saved, good aside.1 := nofun
  have hticks : part.ticksPerQuarter ≠ 0 := ticksPerQuarter_ne_zero hpart hbar
  obtain ⟨playable, hverdict, hrefused⟩ := Stance.playable_eq ⟨⟨hlow, hhigh⟩, hnone _⟩ hdoubles
  rw [Pulse.playable, Stance.pulse, Part.opening, UInt32.ofNat_toNat] at hverdict
  have hstands (h : playable = true) : ¬ part.opening.Stumbles melody := fun hstumbles => by
    cases h.symm.trans (hrefused.2 hstumbles)
  refine ⟨playable, {
    verdict := hverdict
    refused_iff := hrefused
    follows := fun u player _ h => Player.after_of_perform hticks h
    met_iff := fun hover => hrefused.trans ⟨exists_player_of_stumbles hticks hchords hover, ?_⟩
    fails := fun hplayable e h => ?_
    lasts := fun hplayable u player hu h => ?_
    halves := fun hplayable hpower u hu => ?_ }⟩
  · rintro ⟨u, c, player, hu, hrun, hstumbles⟩
    exact ⟨u, c, hu, _, Player.after_of_perform hticks hrun, hstumbles⟩
  · rcases failure_of_perform hticks hchords h with hfailure | ⟨-, hstumbles⟩
    · exact hfailure
    · exact absurd hstumbles (hstands hplayable)
  · have hread : ∃ q n, Reads (1 ≤ ·) part.opening.pulse melody q n :=
      Reads.of_not_stumbles (fun l _ hne => by omega) (fun l hl => by omega) ⟨hlow, hnone _⟩
        (hstands hplayable)
    obtain ⟨q, n, hread⟩ := hread
    exact Player.tones_of_perform hticks hread hlow hu h
  · have hbar : ∃ k, part.opening.length = 2 ^ k := isPowerOfTwo_iff.1 hpower
    have hread : ∃ q n, Reads (fun l => ∃ k, l = 2 ^ k) part.opening.pulse melody q n :=
      Reads.of_not_stumbles exists_two_pow_half exists_two_pow_double
        ⟨hbar, hnone fun l => ∃ k, l = 2 ^ k⟩ (hstands hplayable)
    obtain ⟨q, n, hread⟩ := hread
    obtain ⟨p, m, hread, hdvd⟩ := hread.two_dvd_of_halve hbar (fun _ hl => hl) hu
    obtain ⟨s, hafter, rfl⟩ := exists_after hread rfl
    exact ⟨s, hafter, hdvd⟩

/-- Bars of four ticks: the brackets bring back a whole bar, which is halved and doubled and then
halved three times, the last time to nothing. -/
theorem isPlayable_judges_halved :
    let chords : List Chord := List.replicate 4 ⟨⟨0⟩, .minor⟩
    let part : Part := ⟨chords, 3, 0, 2, 4, 64⟩
    let melody := "F[dF+dF]dDdddF".toList
    Part.ofSettings ⟨2, 2, 1, 1, 1, 1, 3, 64, 120⟩ chords 3 0 = .ok part ∧ 1 ≤ part.barTicks ∧
      part.opening.DoublesFit melody ∧
      (∀ note ∈ part.notes melody, part.quarter note < part.chords.length) ∧
      Judged part melody .empty false := by
  intro chords part melody
  have hticks : Settings.barTicks ⟨2, 2, 1, 1, 1, 1, 3, 64, 120⟩ = .ok 4 :=
    Checked.mul_eq_ok_iff.2 rfl
  have hpart : Part.ofSettings ⟨2, 2, 1, 1, 1, 1, 3, 64, 120⟩ chords 3 0 = .ok part := by
    rw [Part.ofSettings, hticks]
    rfl
  have hbar : 1 ≤ part.barTicks := by decide
  have hdoubles : part.opening.DoublesFit melody := by
    have table : ∀ u ∈ melody.inits, ∀ s ∈ part.opening.after u, s.length * 2 < 2 ^ 32 := by decide
    intro u hu s hafter
    have hprefix : u <+: melody := List.IsPrefix.trans (List.prefix_append u ['D']) hu
    exact table u ((List.mem_inits ..).2 hprefix) s hafter
  have hchords : ∀ note ∈ part.notes melody, part.quarter note < part.chords.length := by decide
  obtain ⟨playable, hjudged⟩ := isPlayable_judges hpart hbar hdoubles hchords .empty
  have hrefused : isPlayable part.barTicks melody = .ok false := by decide +kernel
  cases hjudged.verdict.symm.trans hrefused
  exact ⟨hpart, hbar, hdoubles, hchords, hjudged⟩

end Chorale.Melody
