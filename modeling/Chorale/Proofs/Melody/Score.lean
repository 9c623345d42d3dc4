import Chorale.Proofs.Melody.Pulse

/-!
# What a melody says

The notes of a melody, apart from any key, chord or time: `score` reads them off the word by a
`Stance`, the length and degree of a player on numbers without a bound. Each note begins where the
one before it ends (`follows_score`), and all last as long together as the pulse of the melody says.
-/

namespace Chorale.Melody

/-- A note length and a chord degree, and those laid aside, the last ones first. -/
structure Stance where
  length : Nat
  degree : Int
  saved : List (Nat × Int)

/-- A note of a melody. -/
structure Note where
  /-- How long after the melody it begins. -/
  onset : Nat
  length : Nat
  degree : Int
deriving DecidableEq

namespace Stance

/-- The stance after a command, unless nothing is left to take up. -/
def obey (s : Stance) : Command → Option Stance
  | .up => some { s with degree := s.degree + 1 }
  | .down => some { s with degree := s.degree - 1 }
  | .halve => some { s with length := s.length / 2 }
  | .double => some { s with length := s.length * 2 }
  | .save => some { s with saved := (s.length, s.degree) :: s.saved }
  | .restore =>
    match s.saved with
    | [] => none
    | (length, degree) :: saved => some ⟨length, degree, saved⟩
  | .note => some s

/-- The stance after a letter. -/
def pass (s : Stance) (c : Char) : Option Stance :=
  match Command.ofLetter? c with
  | none => some s
  | some command => s.obey command

/-- The stance after a word. -/
def after (s : Stance) (w : Word) : Option Stance := w.foldlM pass s

/-- The lengths of a stance. -/
def pulse (s : Stance) : Pulse := ⟨s.length, s.saved.map (·.1)⟩

theorem map_pulse_obey (s : Stance) (command : Command) :
    (s.obey command).map pulse = s.pulse.obey command := by
  obtain ⟨length, degree, _ | ⟨⟨_, _⟩, saved⟩⟩ := s <;> cases command <;> rfl

theorem map_pulse_pass (s : Stance) (c : Char) : (s.pass c).map pulse = s.pulse.pass c := by
  cases hc : Command.ofLetter? c with
  | none => simp only [pass, Pulse.pass, hc, Option.map_some]
  | some command => simp only [pass, Pulse.pass, hc, map_pulse_obey]

end Stance

/-- The notes of a word, up to a command that cannot be obeyed. -/
def score (s : Stance) (onset : Nat) : Word → List Note
  | [] => []
  | c :: w =>
    if Command.ofLetter? c = some .note then
      ⟨onset, s.length, s.degree⟩ :: score s (onset + s.length) w
    else
      match s.pass c with
      | none => []
      | some s' => score s' onset w

/-- Notes that follow each other from one time to another. -/
inductive Follows : (start : Nat) → List Note → (finish : Nat) → Prop
  | nil (start : Nat) : Follows start [] start
  | cons {start finish : Nat} {note : Note} {notes : List Note} (honset : note.onset = start)
    (rest : Follows (start + note.length) notes finish) : Follows start (note :: notes) finish

theorem Follows.le {start finish : Nat} {notes : List Note} (h : Follows start notes finish) :
    start ≤ finish := by
  induction h with
  | nil => exact Nat.le_refl _
  | cons _ _ ih => omega

/-- No note of those that follow each other goes on beyond the last. -/
theorem Follows.onset_add_length_le {start finish : Nat} {notes : List Note}
    (h : Follows start notes finish) {note : Note} (hnote : note ∈ notes) :
    note.onset + note.length ≤ finish := by
  induction h with
  | nil => simp at hnote
  | cons honset rest ih =>
    rcases List.mem_cons.1 hnote with rfl | hnote
    · exact honset ▸ rest.le
    · exact ih hnote

variable {s s' : Stance} {onset : Nat} {c : Char} {w : Word}

/-! ## Letter by letter -/

theorem Stance.pass_note (s : Stance) (hc : Command.ofLetter? c = some .note) : s.pass c = some s := by
  simp only [Stance.pass, hc]
  rfl

theorem score_note (s : Stance) (onset : Nat) (w : Word) (hc : Command.ofLetter? c = some .note) :
    score s onset (c :: w) = ⟨onset, s.length, s.degree⟩ :: score s (onset + s.length) w :=
  if_pos hc

theorem score_pass (onset : Nat) (w : Word) (hc : Command.ofLetter? c ≠ some .note)
    (hpass : s.pass c = some s') : score s onset (c :: w) = score s' onset w := by
  simp only [score, if_neg hc, hpass]

theorem score_stop (onset : Nat) (w : Word) (hpass : s.pass c = none) :
    score s onset (c :: w) = [] := by
  have hc : Command.ofLetter? c ≠ some .note := fun hc => by cases (s.pass_note hc).symm.trans hpass
  simp only [score, if_neg hc, hpass]

theorem Stance.pulse_pass (hpass : s.pass c = some s') : s.pulse.pass c = some s'.pulse := by
  rw [← s.map_pulse_pass, hpass, Option.map_some]

theorem Stance.after_cons (w : Word) (hpass : s.pass c = some s') : s.after (c :: w) = s'.after w := by
  rw [Stance.after, List.foldlM_cons, hpass]
  rfl

/-- The notes of a melody last as long together as its pulse says. -/
theorem follows_score (s : Stance) (onset : Nat) (w : Word) :
    Follows onset (score s onset w) (onset + s.pulse.span w) := by
  induction w generalizing s onset with
  | nil => exact .nil _
  | cons c w ih =>
    by_cases hc : Command.ofLetter? c = some .note
    · have hticks : s.pulse.ticks c = s.length := if_pos hc
      rw [score_note s onset w hc, Pulse.span_cons w (Stance.pulse_pass (s.pass_note hc)), hticks,
        ← Nat.add_assoc]
      exact .cons rfl (ih s (onset + s.length))
    · have hticks : s.pulse.ticks c = 0 := if_neg hc
      cases hpass : s.pass c with
      | none =>
        have hstop : s.pulse.pass c = none := by rw [← s.map_pulse_pass, hpass, Option.map_none]
        rw [score_stop onset w hpass, Pulse.span_stop w hstop, hticks]
        exact .nil _
      | some s' =>
        rw [score_pass onset w hc hpass, Pulse.span_cons w (Stance.pulse_pass hpass), hticks,
          Nat.zero_add]
        exact ih s' onset

/-- A melody that can be read has only notes of good length. -/
theorem good_of_mem_score {good : Nat → Prop} {p q : Pulse} {n : Nat} (h : Reads good p w q n)
    (hs : s.pulse = p) (hgood : good p.length) {note : Note} (hnote : note ∈ score s onset w) :
    good note.length := by
  induction h generalizing s onset with
  | nil => simp [score] at hnote
  | @cons p p' q c w n hpass hgood' _ ih =>
    subst hs
    by_cases hc : Command.ofLetter? c = some .note
    · rw [score_note s onset w hc, List.mem_cons] at hnote
      rcases hnote with rfl | hnote
      · exact hgood
      · exact ih (Option.some.inj ((Stance.pulse_pass (s.pass_note hc)).symm.trans hpass)) hgood' hnote
    · cases hs' : s.pass c with
      | none => rw [score_stop onset w hs'] at hnote; simp at hnote
      | some s' =>
        rw [score_pass onset w hc hs'] at hnote
        exact ih (Option.some.inj ((Stance.pulse_pass hs').symm.trans hpass)) hgood' hnote

/-- A melody that can be read can be obeyed to its end, through the same lengths. -/
theorem exists_after {good : Nat → Prop} {p q : Pulse} {n : Nat} (h : Reads good p w q n)
    (hs : s.pulse = p) : ∃ s', s.after w = some s' ∧ s'.pulse = q := by
  induction h generalizing s with
  | nil => exact ⟨s, rfl, hs⟩
  | @cons p p' q c w n hpass _ _ ih =>
    subst hs
    rw [← s.map_pulse_pass, Option.map_eq_some_iff] at hpass
    obtain ⟨s', hs', hpulse⟩ := hpass
    rw [Stance.after_cons w hs']
    exact ih hpulse

end Chorale.Melody
