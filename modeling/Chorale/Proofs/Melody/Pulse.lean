import Chorale.Melody.Command
import Mathlib.Algebra.Group.Nat.Defs

/-!
# The pulse of a melody

Of a player only the note length and the lengths laid aside decide whether a melody is playable and
how long it lasts. They are a `Pulse`, on numbers without a bound and with halves rounded down:

* `Reads good p w q n`: from the pulse `p` all commands of `w` can be obeyed, through good lengths
  only; the pulse is `q` in the end, and the notes last `n` ticks together;
* `Reads.good_of_isPrefix`, `Reads.two_dvd_of_halve`: what holds in the middle of the word;
* `Reads.saved_length`: the lengths laid aside, counted by the brackets;
* `Reads.playable_append`: the judge of playable melodies follows the pulse.
-/

namespace Chorale.Melody

/-- A note length, and those laid aside, the last one first. -/
structure Pulse where
  length : Nat
  saved : List Nat
deriving DecidableEq

namespace Pulse

/-- The pulse after a command, unless nothing is left to take up. -/
def obey (p : Pulse) : Command → Option Pulse
  | .halve => some { p with length := p.length / 2 }
  | .double => some { p with length := p.length * 2 }
  | .save => some { p with saved := p.length :: p.saved }
  | .restore =>
    match p.saved with
    | [] => none
    | length :: saved => some ⟨length, saved⟩
  | .note | .up | .down => some p

/-- The pulse after a letter. -/
def pass (p : Pulse) (c : Char) : Option Pulse :=
  match Command.ofLetter? c with
  | none => some p
  | some command => p.obey command

/-- The pulse after a word. -/
def after (p : Pulse) (w : Word) : Option Pulse := w.foldlM pass p

/-- How long a letter lasts. -/
def ticks (p : Pulse) (c : Char) : Nat :=
  if Command.ofLetter? c = some .note then p.length else 0

/-- How long the notes of a word last together, as far as its commands can be obeyed. -/
def span (p : Pulse) : Word → Nat
  | [] => 0
  | c :: w =>
    match p.pass c with
    | none => p.ticks c
    | some p' => p.ticks c + p'.span w

theorem span_cons {p p' : Pulse} {c : Char} (w : Word) (hpass : p.pass c = some p') :
    p.span (c :: w) = p.ticks c + p'.span w := by
  simp only [span, hpass]

theorem span_stop {p : Pulse} {c : Char} (w : Word) (hpass : p.pass c = none) :
    p.span (c :: w) = p.ticks c := by
  simp only [span, hpass]

/-- Whether a melody is playable from a pulse on. -/
def playable (p : Pulse) (w : Word) : Except Failure Bool :=
  isPlayableFrom (UInt32.ofNat p.length) (p.saved.map UInt32.ofNat) w

@[simp] theorem after_nil (p : Pulse) : p.after [] = some p := rfl

end Pulse

/-- From `p` on all commands of `w` can be obeyed, through lengths that are `good`, up to the pulse
`q`; the notes last `n` ticks together. -/
inductive Reads (good : Nat → Prop) : Pulse → Word → Pulse → Nat → Prop
  | nil (p : Pulse) : Reads good p [] p 0
  | cons {p p' q : Pulse} {c : Char} {w : Word} {n : Nat} (hpass : p.pass c = some p')
    (hgood : good p'.length) (rest : Reads good p' w q n) : Reads good p (c :: w) q (p.ticks c + n)

namespace Reads

variable {good : Nat → Prop} {p p' q : Pulse} {u v w : Word} {m n : Nat}

theorem mono {good' : Nat → Prop} (h : Reads good p w q n) (hgood : ∀ l, good l → good' l) :
    Reads good' p w q n := by
  induction h with
  | nil => exact .nil _
  | cons hpass hl _ ih => exact .cons hpass (hgood _ hl) ih

theorem append (h : Reads good p u p' m) (k : Reads good p' v q n) :
    Reads good p (u ++ v) q (m + n) := by
  induction h with
  | nil => rwa [Nat.zero_add]
  | cons hpass hgood _ ih => rw [Nat.add_assoc]; exact .cons hpass hgood (ih k)

theorem split (h : Reads good p (u ++ v) q n) :
    ∃ p' m k, Reads good p u p' m ∧ Reads good p' v q k ∧ n = m + k := by
  induction u generalizing p n with
  | nil => exact ⟨p, 0, n, .nil p, h, (Nat.zero_add n).symm⟩
  | cons c u ih =>
    cases h with
    | cons hpass hgood rest =>
      obtain ⟨p', m, k, hu, hv, rfl⟩ := ih rest
      exact ⟨p', _, k, .cons hpass hgood hu, hv, (Nat.add_assoc ..).symm⟩

theorem after_eq (h : Reads good p w q n) : p.after w = some q := by
  induction h with
  | nil => rfl
  | cons hpass _ _ ih => rw [Pulse.after, List.foldlM_cons, hpass]; exact ih

theorem span_eq (h : Reads good p w q n) : p.span w = n := by
  induction h with
  | nil => rfl
  | cons hpass _ _ ih => rw [Pulse.span_cons _ hpass, ih]

/-- A word can be read if its commands can be obeyed and every length on the way is good. -/
theorem of_after (h : p.after w = some q)
    (hgood : ∀ u, u <+: w → ∀ p', p.after u = some p' → good p'.length) :
    Reads good p w q (p.span w) := by
  induction w generalizing p with
  | nil => cases h; exact .nil _
  | cons c w ih =>
    rw [Pulse.after, List.foldlM_cons] at h
    cases hpass : p.pass c with
    | none => rw [hpass] at h; cases h
    | some p' =>
      rw [hpass] at h
      have hafter {u : Word} : p.after (c :: u) = p'.after u := by
        rw [Pulse.after, List.foldlM_cons, hpass]; rfl
      simp only [Pulse.span, hpass]
      refine .cons hpass (hgood [c] (by simp) p' (hafter.trans rfl)) (ih h fun u hu p'' hp'' => ?_)
      exact hgood (c :: u) (List.cons_prefix_cons.2 ⟨rfl, hu⟩) p'' (hafter.trans hp'')

/-- The last length is good if the first is. -/
theorem good_length (h : Reads good p w q n) (hp : good p.length) : good q.length := by
  induction h with
  | nil => exact hp
  | cons _ hgood _ ih => exact ih hgood

/-- Every length on the way is good. -/
theorem good_of_isPrefix (h : Reads good p w q n) (hp : good p.length) (hu : u <+: w) :
    ∃ p', p.after u = some p' ∧ good p'.length := by
  obtain ⟨v, rfl⟩ := hu
  obtain ⟨p', m, k, hu, -, -⟩ := h.split
  exact ⟨p', hu.after_eq, hu.good_length hp⟩

/-- Powers of two are halved exactly on the way. -/
theorem two_dvd_of_halve (h : Reads good p w q n) (hp : good p.length)
    (hpower : ∀ l, good l → ∃ k, l = 2 ^ k) (hu : u ++ ['d'] <+: w) :
    ∃ p' m, Reads good p u p' m ∧ 2 ∣ p'.length := by
  obtain ⟨v, rfl⟩ := hu
  rw [List.append_assoc] at h
  obtain ⟨p', m, k, hu, hv, -⟩ := h.split
  refine ⟨p', m, hu, ?_⟩
  obtain ⟨i, hi⟩ := hpower _ (hu.good_length hp)
  cases hv with
  | cons hpass hhalf _ =>
    cases hpass
    obtain ⟨j, hj⟩ := hpower _ hhalf
    have hj : p'.length / 2 = 2 ^ j := hj
    cases i with
    | zero =>
      have hpos := Nat.two_pow_pos j
      rw [hi, Nat.pow_zero] at hj
      omega
    | succ i => exact ⟨2 ^ i, by rw [hi, Nat.pow_succ']⟩

/-- What a letter adds to the lengths laid aside. -/
theorem saved_length_of_pass {c : Char} (h : p.pass c = some p') :
    p'.saved.length + [c].count ']' = p.saved.length + [c].count '[' := by
  cases hc : Command.ofLetter? c with
  | none =>
    simp only [Pulse.pass, hc, Option.some.injEq] at h
    have hsave : c ≠ '[' := fun e => by subst e; cases hc
    have hrestore : c ≠ ']' := fun e => by subst e; cases hc
    rw [h, List.count_singleton, List.count_singleton]
    simp [hsave, hrestore]
  | some command =>
    simp only [Pulse.pass, hc] at h
    rw [Command.ofLetter?_eq_some_iff.1 hc]
    cases command with
    | save => cases h; simp [Command.letter]
    | restore =>
      obtain ⟨length, _ | ⟨_, saved⟩⟩ := p
      · cases h
      · cases h; simp [Command.letter]
    | _ => cases h; rfl

/-- What was laid aside and not taken up again is counted by the brackets. -/
theorem saved_length (h : Reads good p w q n) :
    q.saved.length + w.count ']' = p.saved.length + w.count '[' := by
  induction h with
  | nil => rfl
  | @cons p p' q c w n hpass _ _ ih =>
    have hc := saved_length_of_pass hpass
    rw [← List.singleton_append, List.count_append, List.count_append]
    omega

/-! ## Playable melodies -/

theorem playable_cons {c : Char} (hpass : p.pass c = some p') (hp : p.length < 2 ^ 32)
    (hp' : 1 ≤ p'.length ∧ p'.length < 2 ^ 32) (w : Word) :
    p.playable (c :: w) = p'.playable w := by
  unfold Pulse.playable
  cases hc : Command.ofLetter? c with
  | none =>
    simp only [Pulse.pass, hc, Option.some.injEq] at hpass
    simp only [isPlayableFrom, hc, hpass]
  | some command =>
    simp only [Pulse.pass, hc] at hpass
    cases command with
    | halve =>
      cases hpass
      have hlength : (UInt32.ofNat p.length).toNat = p.length := UInt32.toNat_ofNat_of_lt' hp
      have hpos : 1 ≤ p.length / 2 := hp'.1
      have hone : ¬ UInt32.ofNat p.length ≤ 1 := fun h => by
        have h : (UInt32.ofNat p.length).toNat ≤ 1 := UInt32.le_iff_toNat_le.1 h
        omega
      have hhalf : UInt32.ofNat p.length / 2 = UInt32.ofNat (p.length / 2) := by
        rw [← UInt32.toNat_inj, UInt32.toNat_div, hlength, UInt32.toNat_ofNat_of_lt' hp'.2]
        rfl
      simp only [isPlayableFrom, hc, if_neg hone, hhalf]
    | double =>
      cases hpass
      have hlength : (UInt32.ofNat p.length).toNat = p.length := UInt32.toNat_ofNat_of_lt' hp
      have hdouble : (UInt32.ofNat (p.length * 2)).toNat = p.length * 2 :=
        UInt32.toNat_ofNat_of_lt' hp'.2
      have hmul : Checked.mul (UInt32.ofNat p.length) 2 = .ok (UInt32.ofNat (p.length * 2)) := by
        refine Checked.mul_eq_ok_iff.2 ?_
        show ((UInt32.ofNat (p.length * 2)).toNat : Int) = (UInt32.ofNat p.length).toNat * (2 : Int)
        rw [hlength, hdouble, Int.natCast_mul]
        rfl
      simp only [isPlayableFrom, hc, hmul]
      rfl
    | save => cases hpass; simp only [isPlayableFrom, hc, List.map_cons]
    | restore =>
      obtain ⟨length, _ | ⟨_, saved⟩⟩ := p
      · cases hpass
      · cases hpass; simp only [isPlayableFrom, hc, List.map_cons]
    | note | up | down => cases hpass; simp only [isPlayableFrom, hc]

/-- The judge of playable melodies follows the pulse. -/
theorem playable_append (h : Reads good p w q n) (hp : p.length < 2 ^ 32)
    (hgood : ∀ l, good l → 1 ≤ l ∧ l < 2 ^ 32) (v : Word) :
    p.playable (w ++ v) = q.playable v := by
  induction h with
  | nil => rfl
  | cons hpass hl _ ih =>
    rw [List.cons_append, playable_cons hpass hp (hgood _ hl), ih (hgood _ hl).2]

end Reads

end Chorale.Melody
