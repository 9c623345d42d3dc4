import Chorale.Proofs.Melody.Agreement
import Chorale.Proofs.Rewriting.Reuse

/-!
# Attempts at a step

A step of the melody grammar rewrites one word anew, up to twenty times, until a rewriting is
playable, and keeps the word if none is (`run_attempt_eq_ok_iff`). The word may be any, not only one
that was grown:

* `Stance.playable_flatten`: a rewriting is judged as the word is, unless it is not playable;
* `attempt_eq_of_rejected`: where no rewriting is accepted, all attempts are made;
* `Grammar.stepTimes_keepsVerdict`: so any number of steps leaves the verdict as it was on the word
  that they began with. What is not playable stays as it is.
-/

namespace Chorale.Melody

/-! ## The verdict on a rewriting -/

/-- The powers of two of 32 bits. -/
def Binary (l : Nat) : Prop := Within (2 ^ 32 - 1) l

theorem Binary.sounding {l : Nat} (h : Binary l) : Stance.Sounding l := Within.bounds h (by decide)

theorem Binary.half {l : Nat} (h : Binary l) (hne : l / 2 ≠ 0) : Binary (l / 2) :=
  ⟨exists_two_pow_half l h.1 hne, (Nat.div_le_self l 2).trans h.2⟩

theorem Binary.double {l : Nat} (h : Binary l) (hlt : l * 2 < 2 ^ 32) : Binary (l * 2) :=
  ⟨exists_two_pow_double l h.1, by omega⟩

namespace Stance

variable {s s' : Stance} {c : Char} {w : Word} {playable : Bool}

theorem LengthsAre.sounding (hs : s.LengthsAre Binary) : s.LengthsAre Sounding :=
  ⟨hs.length.sounding, fun aside haside => (hs.saved aside haside).sounding⟩

/-- A length that the judge has doubled fits 32 bits. -/
theorem double_lt_of_playable (hlength : s.length < 2 ^ 32)
    (h : s.pulse.playable ('D' :: w) = .ok playable) : s.length * 2 < 2 ^ 32 := by
  have hbind : (Checked.mul (UInt32.ofNat s.length) 2 >>= fun length =>
      isPlayableFrom length (s.pulse.saved.map UInt32.ofNat) w) = .ok playable := h
  obtain ⟨doubled, hmul, -⟩ := Checked.bind_eq_ok_iff.1 hbind
  have hdoubled : (doubled.toNat : Int) = (UInt32.ofNat s.length).toNat * (2 : Int) :=
    Checked.mul_eq_ok_iff.1 hmul
  rw [UInt32.toNat_ofNat_of_lt' hlength] at hdoubled
  have := doubled.toNat_lt
  omega

/-- Where the judge does not stumble, he goes on from a stance of the same kind. -/
theorem LengthsAre.go_on (hs : s.LengthsAre Binary) (h : s.pulse.playable (c :: w) = .ok playable)
    (hstumbles : ¬ s.StumblesAt c) : ∃ s', s.pass c = some s' ∧ s'.LengthsAre Binary ∧
      ∀ v, s.pulse.playable (c :: v) = s'.pulse.playable v := by
  obtain ⟨s', hpass⟩ := exists_pass_of_not_stumblesAt hstumbles
  have hs' : s'.LengthsAre Binary := by
    refine hs.pass (fun hc => ?_) (fun hc => ?_) hpass
    · exact hs.length.half fun hhalf => hstumbles (.inr ⟨hc, hhalf⟩)
    · subst hc
      exact hs.length.double (double_lt_of_playable hs.length.sounding.2 h)
  exact ⟨s', hpass, hs', Reads.playable_cons (pulse_pass hpass) hs.length.sounding.2 hs'.length.sounding⟩

/-- A rewriting of a word is not playable, or it is judged as the word is. -/
theorem playable_flatten (hs : s.LengthsAre Binary) {pieces : List Word}
    (hpieces : List.Forall₂ Refines w pieces) (h : s.pulse.playable w = .ok playable) :
    s.pulse.playable pieces.flatten = .ok false ∨ s.pulse.playable pieces.flatten = .ok playable := by
  induction hpieces generalizing s with
  | nil => exact .inr h
  | @cons c piece w pieces hpiece _ ih =>
    rw [List.flatten_cons]
    by_cases hstumbles : s.StumblesAt c
    · cases hpiece with
      | letter => exact .inl (playable_of_stumblesAt hs.sounding hstumbles)
      | division => rcases hstumbles with ⟨hc, -⟩ | ⟨hc, -⟩ <;> cases hc
    obtain ⟨s', hpass, hs', hrest⟩ := hs.go_on h hstumbles
    have hpieces := ih hs' ((hrest w).symm.trans h)
    cases hpiece with
    | letter => rwa [List.singleton_append, hrest]
    | division hdivision =>
      cases hpass
      obtain ⟨length, degree, saved⟩ := s
      by_cases hone : length = 1
      · subst hone
        exact .inl (hdivision.not_playable _ _)
      -- The divided note is left as it was taken up, so that the rest is judged from there.
      have hread := hdivision.reads_within hs.length hone (saved.map (·.1))
      rwa [pulse, hread.playable_append hs.length.sounding.2 fun l hl => Binary.sounding hl]

end Stance

theorem playable_of_yields {system : RewriteSystem} (hrules : system.rules = rules) {barTicks : UInt32}
    (hticks : isPowerOfTwo barTicks.toNat = true) {w w' : Word} {playable : Bool}
    (hw : isPlayable barTicks w = .ok playable) (h : system.Yields w w') :
    isPlayable barTicks w' = .ok false ∨ isPlayable barTicks w' = .ok playable := by
  obtain ⟨pieces, hpieces, rfl⟩ := refines_of_yields hrules h
  have hbar : Binary barTicks.toNat :=
    ⟨isPowerOfTwo_iff.1 hticks, Nat.le_pred_of_lt barTicks.toNat_lt⟩
  have hs : (⟨barTicks.toNat, 0, []⟩ : Stance).LengthsAre Binary := ⟨hbar, nofun⟩
  have hjudge (v : Word) :
      (⟨barTicks.toNat, 0, []⟩ : Stance).pulse.playable v = isPlayable barTicks v := by
    rw [Pulse.playable, Stance.pulse, UInt32.ofNat_toNat]
    rfl
  have hflatten := Stance.playable_flatten hs hpieces ((hjudge w).trans hw)
  rwa [hjudge] at hflatten

/-! ## Attempts -/

/-- Rewritings of one word, `count` of them one after another. -/
def rewritings (system : RewriteSystem) (source : Word) : (count : Nat) → Draw (List Word)
  | 0 => pure []
  | count + 1 => do
    let w ← system.rewrite source
    let later ← rewritings system source count
    pure (w :: later)

/-- The rewritings that were made, in order. -/
def Attempts.made (attempts : Attempts) : List Word := attempts.rejected ++ attempts.accepted.toList

/-- Of at most `limit` rewritings the first that is accepted is kept, or none if all of them are
rejected. -/
structure Attempts.Settled (accept : Word → Except Failure Bool) (limit : Nat)
    (attempts : Attempts) : Prop where
  rejected : ∀ w ∈ attempts.rejected, accept w = .ok false
  accepted : ∀ w, attempts.accepted = some w →
    accept w = .ok true ∧ attempts.rejected.length < limit
  exhausted : attempts.accepted = none → attempts.rejected.length = limit

section

variable {system : RewriteSystem} {source w : Word} {ws : List Word} {limit : Nat}
  {accept : Word → Except Failure Bool} {attempts later : Attempts} {r r' : Rng}

theorem run_rewritings_cons_iff :
    (rewritings system source (w :: ws).length).run r = (.ok (w :: ws), r') ↔
      ∃ r₁, (system.rewrite source).run r = (.ok w, r₁) ∧
        (rewritings system source ws.length).run r₁ = (.ok ws, r') := by
  rw [List.length_cons, rewritings, Draw.run_bind_eq_ok_iff]
  constructor
  · rintro ⟨w', r₁, hw, h⟩
    obtain ⟨ws', r₂, hws, h⟩ := Draw.run_bind_eq_ok_iff.1 h
    cases h
    exact ⟨r₁, hw, hws⟩
  · rintro ⟨r₁, hw, hws⟩
    exact ⟨w, r₁, hw, Draw.run_bind_eq_ok_iff.2 ⟨ws, r', hws, rfl⟩⟩

/-- The first attempt, and the others if it is rejected. -/
theorem run_attempt_succ_iff :
    (attempt system source accept (limit + 1)).run r = (.ok attempts, r') ↔
      ∃ w r₁, (system.rewrite source).run r = (.ok w, r₁) ∧
        (accept w = .ok true ∧ attempts = ⟨[], some w⟩ ∧ r' = r₁ ∨
          accept w = .ok false ∧ ∃ later, attempts = ⟨w :: later.rejected, later.accepted⟩ ∧
            (attempt system source accept limit).run r₁ = (.ok later, r')) := by
  rw [attempt, Draw.run_bind_eq_ok_iff]
  refine exists_congr fun w => exists_congr fun r₁ => and_congr_right fun _ => ?_
  rw [Draw.run_bind_eq_ok_iff]
  constructor
  · rintro ⟨accepted, r₂, hlift, h⟩
    obtain ⟨hverdict, rfl⟩ := Draw.run_lift_eq_ok_iff.1 hlift
    cases accepted with
    | true => cases h; exact .inl ⟨hverdict, rfl, rfl⟩
    | false =>
      obtain ⟨later, r₃, hlater, h⟩ := Draw.run_bind_eq_ok_iff.1 h
      cases h
      exact .inr ⟨hverdict, later, rfl, hlater⟩
  · rintro (⟨hverdict, rfl, rfl⟩ | ⟨hverdict, later, rfl, hlater⟩)
    · exact ⟨true, r', Draw.run_lift_eq_ok_iff.2 ⟨hverdict, rfl⟩, rfl⟩
    · exact ⟨false, r₁, Draw.run_lift_eq_ok_iff.2 ⟨hverdict, rfl⟩,
        Draw.run_bind_eq_ok_iff.2 ⟨later, r', hlater, rfl⟩⟩

theorem Attempts.settled_zero_iff : attempts.Settled accept 0 ↔ attempts = ⟨[], none⟩ := by
  refine ⟨fun h => ?_, fun h => h ▸ ⟨nofun, nofun, fun _ => rfl⟩⟩
  obtain ⟨rejected, _ | w⟩ := attempts
  · have hnil : rejected = [] := List.length_eq_zero_iff.1 (h.exhausted rfl)
    rw [hnil]
  · exact absurd (h.accepted w rfl).2 (Nat.not_lt_zero _)

theorem Attempts.settled_succ_iff :
    attempts.Settled accept (limit + 1) ↔
      (∃ w, accept w = .ok true ∧ attempts = ⟨[], some w⟩) ∨
        ∃ w, ∃ later : Attempts, accept w = .ok false ∧
          attempts = ⟨w :: later.rejected, later.accepted⟩ ∧ later.Settled accept limit := by
  constructor
  · intro h
    obtain ⟨_ | ⟨w, rejected⟩, accepted⟩ := attempts
    · cases accepted with
      | none => cases h.exhausted rfl
      | some w => exact .inl ⟨w, (h.accepted w rfl).1, rfl⟩
    · refine .inr ⟨w, ⟨rejected, accepted⟩, h.rejected w List.mem_cons_self, rfl, ?_⟩
      exact {
        rejected := fun v hv => h.rejected v (List.mem_cons_of_mem w hv)
        accepted := fun v hv => (h.accepted v hv).imp_right Nat.lt_of_succ_lt_succ
        exhausted := fun hnone => Nat.succ.inj (h.exhausted hnone) }
  · rintro (⟨w, hw, rfl⟩ | ⟨w, later, hw, rfl, h⟩)
    · exact ⟨nofun, fun v hv => by cases hv; exact ⟨hw, Nat.succ_pos _⟩, nofun⟩
    · exact {
        rejected := List.forall_mem_cons.2 ⟨hw, h.rejected⟩
        accepted := fun v hv => (h.accepted v hv).imp_right Nat.succ_lt_succ
        exhausted := fun hnone => congrArg (· + 1) (h.exhausted hnone) }

/-- Attempts draw for the rewritings that are made, and nothing else. -/
theorem run_attempt_eq_ok_iff :
    (attempt system source accept limit).run r = (.ok attempts, r') ↔
      (rewritings system source attempts.made.length).run r = (.ok attempts.made, r') ∧
        attempts.Settled accept limit := by
  induction limit generalizing attempts r with
  | zero =>
    rw [Attempts.settled_zero_iff]
    constructor
    · intro h; cases h; exact ⟨rfl, rfl⟩
    · rintro ⟨h, rfl⟩; cases h; rfl
  | succ limit ih =>
    rw [run_attempt_succ_iff, Attempts.settled_succ_iff]
    constructor
    · rintro ⟨w, r₁, hw, ⟨hverdict, rfl, rfl⟩ | ⟨hverdict, later, rfl, hlater⟩⟩
      · exact ⟨run_rewritings_cons_iff.2 ⟨r', hw, rfl⟩, .inl ⟨w, hverdict, rfl⟩⟩
      · obtain ⟨hmade, hsettled⟩ := ih.1 hlater
        exact ⟨run_rewritings_cons_iff.2 ⟨r₁, hw, hmade⟩, .inr ⟨w, later, hverdict, rfl, hsettled⟩⟩
    · rintro ⟨h, ⟨w, hverdict, rfl⟩ | ⟨w, later, hverdict, rfl, hsettled⟩⟩
      · obtain ⟨r₁, hw, hnone⟩ := run_rewritings_cons_iff.1 h
        cases hnone
        exact ⟨w, r', hw, .inl ⟨hverdict, rfl, rfl⟩⟩
      · obtain ⟨r₁, hw, hmade⟩ := run_rewritings_cons_iff.1 h
        exact ⟨w, r₁, hw, .inr ⟨hverdict, later, rfl, ih.2 ⟨hmade, hsettled⟩⟩⟩

/-- Where no rewriting is accepted, as many are made as there may be. -/
theorem attempt_eq_of_rejected
    (h : ∀ w r r', (system.rewrite source).run r = (.ok w, r') → accept w = .ok false) (limit : Nat) :
    attempt system source accept limit =
      (rewritings system source limit >>= fun rejected => pure ⟨rejected, none⟩) := by
  induction limit with
  | zero => rfl
  | succ limit ih =>
    rw [attempt, rewritings, bind_assoc]
    refine Draw.bind_congr_of_run fun w r r' hw => ?_
    rw [h w r r' hw, ih]
    simp only [bind_assoc, pure_bind]
    rfl

end

/-! ## Steps -/

namespace Grammar

variable {word : Word} {barTicks : UInt32} {playable : Bool} {grammar next : Grammar} {r r' : Rng}

/-- A step makes attempts at the word that was reached, and puts the one that is kept in its place. -/
theorem run_step_eq_ok_iff :
    grammar.step.run r = (.ok next, r') ↔ ∃ attempts : Attempts,
      (rewritings grammar.system grammar.system.current attempts.made.length).run r =
        (.ok attempts.made, r') ∧
      attempts.Settled (isPlayable grammar.barTicks) maxAttempts ∧
      next = { grammar with
        system := grammar.system.advanceTo (attempts.accepted.getD grammar.system.current) } := by
  rw [step, Draw.run_bind_eq_ok_iff]
  constructor
  · rintro ⟨attempts, r₁, hattempts, h⟩
    cases h
    obtain ⟨hmade, hsettled⟩ := run_attempt_eq_ok_iff.1 hattempts
    exact ⟨attempts, hmade, hsettled, rfl⟩
  · rintro ⟨attempts, hmade, hsettled, rfl⟩
    exact ⟨attempts, r', run_attempt_eq_ok_iff.2 ⟨hmade, hsettled⟩, rfl⟩

/-- A grammar that was led on from `word`, on which the verdict was `playable`. -/
structure ComesFrom (word : Word) (barTicks : UInt32) (playable : Bool) (grammar : Grammar) :
    Prop where
  reset : grammar.reset = ofWord word barTicks
  verdict : isPlayable barTicks grammar.system.current = .ok playable
  unchanged : playable = false → grammar.system.current = word

namespace ComesFrom

theorem start (h : isPlayable barTicks word = .ok playable) :
    (ofWord word barTicks).ComesFrom word barTicks playable := ⟨rfl, h, fun _ => rfl⟩

theorem rules_eq (h : grammar.ComesFrom word barTicks playable) : grammar.system.rules = rules :=
  congrArg (·.system.rules) h.reset

theorem barTicks_eq (h : grammar.ComesFrom word barTicks playable) : grammar.barTicks = barTicks :=
  congrArg Grammar.barTicks h.reset

/-- No rewriting of a word that is not playable is playable. -/
theorem rejected (hticks : isPowerOfTwo barTicks.toNat = true)
    (h : grammar.ComesFrom word barTicks false) {w : Word}
    (hrun : (grammar.system.rewrite word).run r = (.ok w, r')) : isPlayable barTicks w = .ok false := by
  have hyields : grammar.system.Yields word w :=
    RewriteSystem.yields_of_run (length_rules_lt h.rules_eq) hrun
  have hword : isPlayable barTicks word = .ok false := h.unchanged rfl ▸ h.verdict
  exact (playable_of_yields h.rules_eq hticks hword hyields).elim id id

/-- So a step rewrites it in vain, and as often as may be. -/
theorem step_eq (hticks : isPowerOfTwo barTicks.toNat = true)
    (h : grammar.ComesFrom word barTicks false) :
    grammar.step = (rewritings grammar.system word maxAttempts >>= fun _ =>
      pure { grammar with system := grammar.system.advanceTo word }) := by
  have hrejected : ∀ w r r', (grammar.system.rewrite word).run r = (.ok w, r') →
      isPlayable barTicks w = .ok false := fun w r r' hrun => h.rejected hticks hrun
  rw [step, h.barTicks_eq, h.unchanged rfl, attempt_eq_of_rejected hrejected, bind_assoc]
  rfl

end ComesFrom

variable {allowed : Failure → Prop}

theorem WP.step_comesFrom (hticks : isPowerOfTwo barTicks.toNat = true)
    (h : grammar.ComesFrom word barTicks playable) (r : Rng) :
    Draw.WP allowed r grammar.step fun next _ => next.ComesFrom word barTicks playable := by
  have haccept : ∀ w, grammar.system.Yields grammar.system.current w →
      isPlayable grammar.barTicks w = .ok false ∨
        isPlayable grammar.barTicks w = .ok true ∧ isPlayable barTicks w = .ok playable ∧
          (playable = false → w = word) := fun w hw => by
    rw [h.barTicks_eq]
    rcases playable_of_yields h.rules_eq hticks h.verdict hw with hw | hw
    · exact .inl hw
    · cases playable with
      | false => exact .inl hw
      | true => exact .inr ⟨hw, hw, nofun⟩
  refine .mono (step_of_accepts h.rules_eq ⟨h.verdict, h.unchanged⟩ haccept r) ?_
  exact fun next _ _ ⟨hreset, hverdict, hunchanged⟩ => ⟨hreset.trans h.reset, hverdict, hunchanged⟩

theorem WP.stepTimes_comesFrom (hticks : isPowerOfTwo barTicks.toNat = true)
    (h : grammar.ComesFrom word barTicks playable) (count : Nat) (r : Rng) :
    Draw.WP allowed r (grammar.stepTimes count) fun grown _ =>
      grown.ComesFrom word barTicks playable := by
  induction count generalizing grammar r with
  | zero => exact .pure h
  | succ count ih => exact .bind (.mono (step_comesFrom hticks h r) fun next r' _ hnext => ih hnext r')

/-- What `count` steps from `word` have come to, and what the next one does. -/
structure Stands (word : Word) (barTicks : UInt32) (playable : Bool) (count : Nat)
    (grammar : Grammar) : Prop where
  /-- Of the grammar only the word that was reached and the count have changed. -/
  reset : grammar.reset = ofWord word barTicks
  steps_eq : grammar.system.steps = count
  verdict : isPlayable barTicks grammar.system.current = .ok playable
  /-- A step keeps the first playable one of at most twenty rewritings of the word, or the word after
  twenty that are not; it draws for those that were made. -/
  step_iff : ∀ next r r', grammar.step.run r = (.ok next, r') ↔ ∃ attempts : Attempts,
    (rewritings grammar.system grammar.system.current attempts.made.length).run r =
      (.ok attempts.made, r') ∧
    attempts.Settled (isPlayable barTicks) 20 ∧
    next = { grammar with
      system := grammar.system.advanceTo (attempts.accepted.getD grammar.system.current) }
  unchanged : playable = false → grammar.system.current = word
  /-- No rewriting of a word that is not playable is. -/
  rejected : playable = false → ∀ w r r', (grammar.system.rewrite word).run r = (.ok w, r') →
    isPlayable barTicks w = .ok false
  /-- A step from there draws for twenty rewritings, and leaves the word as it is. -/
  step_eq : playable = false → grammar.step = do
    let _ ← rewritings grammar.system word 20
    pure { grammar with system := grammar.system.advanceTo word }

/-- Whatever the word is, if the judge comes to a verdict on it, that is the verdict on all words to
which it grows, by any number of steps and whatever is drawn. From every state but that of zeros the
steps come to an end. -/
theorem stepTimes_keepsVerdict (hticks : isPowerOfTwo barTicks.toNat = true)
    (hword : isPlayable barTicks word = .ok playable) (count : Nat) (r : Rng) :
    Draw.WP (fun _ => False) r ((ofWord word barTicks).stepTimes count) (fun grown _ =>
        grown.Stands word barTicks playable count) ∧
      (r ≠ ⟨0, 0, 0, 0⟩ → ∃ grown r',
        ((ofWord word barTicks).stepTimes count).run r = (.ok grown, r')) := by
  have hgrows : Draw.WP (fun _ => False) r ((ofWord word barTicks).stepTimes count) _ :=
    WP.stepTimes_comesFrom hticks (.start hword) count r
  refine ⟨hgrows.run.mono fun grown r' _ ⟨hrun, h⟩ => ?_, hgrows.exists_run_eq_ok fun _ => id⟩
  exact {
    reset := h.reset
    steps_eq := (steps_of_stepTimes hrun).trans (Nat.zero_add count)
    verdict := h.verdict
    step_iff := fun next s s' => by rw [run_step_eq_ok_iff, h.barTicks_eq]; rfl
    unchanged := h.unchanged
    rejected := fun hplayable w s s' hw => by subst hplayable; exact h.rejected hticks hw
    step_eq := fun hplayable => by subst hplayable; exact h.step_eq hticks }

/-- A word that doubles the bar, and one that halves a bar of one tick. -/
theorem stepTimes_keepsVerdict_both :
    (isPowerOfTwo (4 : UInt32).toNat = true ∧ isPlayable 4 "D[dF+F]dddF-F".toList = .ok true ∧
      ∃ grown r', ((ofWord "D[dF+F]dddF-F".toList 4).stepTimes 3).run ⟨1, 2, 3, 4⟩ = (.ok grown, r') ∧
        grown.Stands "D[dF+F]dddF-F".toList 4 true 3) ∧
    (isPowerOfTwo (1 : UInt32).toNat = true ∧ isPlayable 1 "F[F]dF".toList = .ok false ∧
      ∃ grown r', ((ofWord "F[F]dF".toList 1).stepTimes 3).run ⟨1, 2, 3, 4⟩ = (.ok grown, r') ∧
        grown.Stands "F[F]dF".toList 1 false 3) := by
  have hfour : isPowerOfTwo (4 : UInt32).toNat = true := by decide
  have hone : isPowerOfTwo (1 : UInt32).toNat = true := by decide
  have hplayable : isPlayable 4 "D[dF+F]dddF-F".toList = .ok true := by decide +kernel
  have hunplayable : isPlayable 1 "F[F]dF".toList = .ok false := by decide +kernel
  obtain ⟨hstands, hends⟩ := stepTimes_keepsVerdict hfour hplayable 3 ⟨1, 2, 3, 4⟩
  obtain ⟨grown, r', hrun⟩ := hends (by decide)
  obtain ⟨hstands', hends'⟩ := stepTimes_keepsVerdict hone hunplayable 3 ⟨1, 2, 3, 4⟩
  obtain ⟨grown', r'', hrun'⟩ := hends' (by decide)
  exact ⟨⟨hfour, hplayable, grown, r', hrun, (hstands.of_ok hrun).2⟩,
    hone, hunplayable, grown', r'', hrun', (hstands'.of_ok hrun').2⟩

end Grammar

end Chorale.Melody
