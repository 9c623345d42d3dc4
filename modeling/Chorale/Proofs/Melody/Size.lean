import Chorale.Proofs.Melody.Attempts

/-!
# How large melodies grow

A step divides some notes of a melody, each of them once, so that there are as many notes after it as
before, or more, and twice as many at most (`Grammar.Keeps.count_note_of_step`). They are never more
than the bars have ticks, and the other letters are bounded by the notes: however many steps are
asked for, a melody has not more letters than its bars give it (`Grammar.stepTimes_bounded`).
-/

namespace Chorale.Melody

namespace Grammar

variable {bars barTicks : UInt32} {grammar next : Grammar} {r r' : Rng} {allowed : Failure → Prop}

/-- Notes are not lost in a step, and at most doubled. -/
theorem Keeps.count_note_of_step (h : isPowerOfTwo barTicks.toNat = true)
    (hgrammar : grammar.Keeps bars barTicks) (hrun : grammar.step.run r = (.ok next, r')) :
    grammar.system.current.count 'F' ≤ next.system.current.count 'F' ∧
      next.system.current.count 'F' ≤ 2 * grammar.system.current.count 'F' := by
  have haccept : ∀ w, grammar.system.Yields grammar.system.current w →
      isPlayable grammar.barTicks w = .ok false ∨
        isPlayable grammar.barTicks w = .ok true ∧
          grammar.system.current.count 'F' ≤ w.count 'F' ∧
          w.count 'F' ≤ 2 * grammar.system.current.count 'F' := fun w hw => by
    have hverdict := playable_of_yields hgrammar.rules_eq h hgrammar.playable hw
    obtain ⟨pieces, hpieces, rfl⟩ := refines_of_yields hgrammar.rules_eq hw
    obtain ⟨divisions, hle, hnotes, -⟩ := exists_divisions hpieces
    rw [hgrammar.barTicks_eq]
    exact hverdict.imp_right fun hplayable => ⟨hplayable, by omega, by omega⟩
  have hstep : Draw.WP (fun _ => True) r grammar.step fun next _ => next.reset = grammar.reset ∧
      grammar.system.current.count 'F' ≤ next.system.current.count 'F' ∧
        next.system.current.count 'F' ≤ 2 * grammar.system.current.count 'F' :=
    WP.step_of_accepts hgrammar.rules_eq ⟨Nat.le_refl _, by omega⟩ haccept r
  exact (hstep.of_ok hrun).2.2

theorem WP.stepTimes_count (h : isPowerOfTwo barTicks.toNat = true)
    (hgrammar : grammar.Keeps bars barTicks) (count : Nat) (r : Rng) :
    Draw.WP allowed r (grammar.stepTimes count) fun grown _ => grown.Keeps bars barTicks ∧
      grown.system.current.count 'F' ≤ grammar.system.current.count 'F' * 2 ^ count := by
  induction count generalizing grammar r with
  | zero => exact .pure ⟨hgrammar, by rw [Nat.pow_zero, Nat.mul_one]⟩
  | succ count ih =>
    refine .bind (.mono (step h hgrammar r).run fun next r' _ ⟨hrun, hnext⟩ => ?_)
    refine .mono (ih hnext r') fun grown _ _ ⟨hgrown, hcount⟩ => ⟨hgrown, ?_⟩
    have hdouble := (hgrammar.count_note_of_step h hrun).2
    calc grown.system.current.count 'F'
      _ ≤ next.system.current.count 'F' * 2 ^ count := hcount
      _ ≤ 2 * grammar.system.current.count 'F' * 2 ^ count := Nat.mul_le_mul_right _ hdouble
      _ = grammar.system.current.count 'F' * 2 ^ (count + 1) := by
        rw [Nat.pow_succ', ← Nat.mul_assoc, Nat.mul_comm 2]

end Grammar

/-- How large a melody of `bars` bars is, of `barTicks` ticks each, that was rewritten `count`
times. -/
structure Bounded (bars barTicks count : Nat) (melody : Word) : Prop where
  bars_le : bars ≤ melody.count 'F'
  count_le : melody.count 'F' ≤ min (bars * 2 ^ count) (bars * barTicks)
  length_le_notes : melody.length ≤ bars + 11 * (melody.count 'F' - bars)
  length_le : melody.length ≤ bars * (11 * barTicks - 10)

theorem bars_add_eq (bars : Nat) {barTicks : Nat} (h : 1 ≤ barTicks) :
    bars + 11 * (bars * barTicks - bars) = bars * (11 * barTicks - 10) := by
  obtain ⟨rest, rfl⟩ := Nat.exists_eq_add_of_le' h
  have hleft : bars * (rest + 1) - bars = bars * rest := by rw [Nat.mul_succ, Nat.add_sub_cancel]
  have hright : 11 * (rest + 1) - 10 = 11 * rest + 1 := by omega
  rw [hleft, hright, Nat.mul_succ, Nat.mul_left_comm, Nat.add_comm]

/-- However many steps a melody grows, it is bounded by its bars, and each step leaves it as many
notes or gives it more. From every state but that of zeros the steps come to an end. -/
theorem Grammar.stepTimes_bounded (bars barTicks : UInt32)
    (h : isPowerOfTwo barTicks.toNat = true) (count : Nat) (r : Rng) :
    Draw.WP (fun _ => False) r ((ofBars bars barTicks).stepTimes count) (fun grown _ =>
        Bounded bars.toNat barTicks.toNat count grown.system.current ∧
        ∀ next s s', grown.step.run s = (.ok next, s') →
          grown.system.current.count 'F' ≤ next.system.current.count 'F') ∧
      (r ≠ ⟨0, 0, 0, 0⟩ → ∃ grown r',
        ((ofBars bars barTicks).stepTimes count).run r = (.ok grown, r')) := by
  have hgrows : Draw.WP (fun _ => False) r ((ofBars bars barTicks).stepTimes count) _ :=
    WP.stepTimes_count h (.start h) count r
  refine ⟨hgrows.mono fun grown _ _ ⟨hgrown, hcount⟩ => ?_, hgrows.exists_run_eq_ok fun _ => id⟩
  have hbar := within_self h
  have hfill : grown.system.current.count 'F' ≤ bars.toNat * barTicks.toNat :=
    hgrown.reads.count_note_le hbar fun l hl => (hl.bounds barTicks.toNat_lt).1
  have hstart : (ofBars bars barTicks).system.current.count 'F' = bars.toNat :=
    List.count_replicate_self
  have hletters := hgrown.divided.length_le
  have hsum := bars_add_eq bars.toNat (hbar.bounds barTicks.toNat_lt).1
  rw [hstart] at hcount
  refine ⟨⟨hgrown.divided.notes, le_min hcount hfill, hletters, ?_⟩, fun next s s' hstep => ?_⟩
  · omega
  · exact (hgrown.count_note_of_step h hstep).1

/-- Two bars of eight ticks, rewritten nine times. -/
theorem Grammar.stepTimes_bounded_two :
    isPowerOfTwo (8 : UInt32).toNat = true ∧ ∃ grown r',
      ((ofBars 2 8).stepTimes 9).run ⟨1, 2, 3, 4⟩ = (.ok grown, r') ∧
        Bounded 2 8 9 grown.system.current ∧
        ∀ next s s', grown.step.run s = (.ok next, s') →
          grown.system.current.count 'F' ≤ next.system.current.count 'F' := by
  have h : isPowerOfTwo (8 : UInt32).toNat = true := by decide
  obtain ⟨hbounded, hends⟩ := stepTimes_bounded 2 8 h 9 ⟨1, 2, 3, 4⟩
  obtain ⟨grown, r', hrun⟩ := hends (by decide)
  exact ⟨h, grown, r', hrun, (hbounded.of_ok hrun).2⟩

end Chorale.Melody
