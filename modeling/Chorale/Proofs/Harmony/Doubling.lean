import Chorale.Harmony.Grammar
import Chorale.Proofs.Rewriting.Pass

/-!
# How progressions grow

The words of a scale's harmony grammar are tokens of the scale's own triads, on a list of degrees
(`tokens`). Digits are never rewritten, and the letter of a token always is: at it fit exactly the
moves away from the token's degree, and from every degree there is one. So one pass puts a move
behind each degree (`grows_of_replaces`) and leaves the degrees that were there, and after `n` steps
from rest there are `2 ^ n` degrees, the first of them the tonic (`WP.stepTimes`).
-/

namespace Chorale.Harmony

/-- The tokens of the scale's triads on the given degrees. -/
def tokens (scale : Scale) (degrees : List (Fin 12)) : Word := degrees.flatMap (degreeToken scale)

/-- Behind each degree comes one to which the scale lets it move. -/
inductive Grows (scale : Scale) : List (Fin 12) → List (Fin 12) → Prop
  | nil : Grows scale [] []
  | cons {source target : Fin 12} {rest grown : List (Fin 12)}
    (hmove : 1 ≤ scale.score source target) (hrest : Grows scale rest grown) :
    Grows scale (source :: rest) (source :: target :: grown)

theorem Grows.length {scale : Scale} {ds ds' : List (Fin 12)} (h : Grows scale ds ds') :
    ds'.length = 2 * ds.length := by
  induction h with
  | nil => rfl
  | cons _ _ ih => simp only [List.length_cons, ih]; omega

theorem Grows.head? {scale : Scale} {ds ds' : List (Fin 12)} (h : Grows scale ds ds') :
    ds'.head? = ds.head? := by
  cases h <;> rfl

/-! ## Tokens -/

@[simp] theorem tokens_nil (scale : Scale) : tokens scale [] = [] := rfl

@[simp] theorem tokens_cons (scale : Scale) (d : Fin 12) (ds : List (Fin 12)) :
    tokens scale (d :: ds) = degreeToken scale d ++ tokens scale ds := rfl

@[simp] theorem tokens_append (scale : Scale) (ds ds' : List (Fin 12)) :
    tokens scale (ds ++ ds') = tokens scale ds ++ tokens scale ds' := List.flatMap_append

theorem length_degreeDigits : ∀ d : Fin 12, (degreeDigits d).length = 2 := by decide

theorem degreeDigits_injective : Function.Injective degreeDigits := by
  unfold Function.Injective
  decide

theorem letter_notMem_degreeDigits (quality : Quality) (d : Fin 12) :
    quality.letter ∉ degreeDigits d := by
  cases quality <;> revert d <;> decide

theorem length_tokens (scale : Scale) (ds : List (Fin 12)) :
    (tokens scale ds).length = 3 * ds.length := by
  induction ds with
  | nil => rfl
  | cons d ds ih =>
    rw [tokens_cons, List.length_append, ih, degreeToken, List.length_append, length_degreeDigits]
    simp only [List.length_cons, List.length_nil]
    omega

/-! ## Moves -/

theorem exists_move (scale : Scale) (source : Fin 12) : ∃ target, 1 ≤ scale.score source target := by
  cases scale <;> revert source <;> decide

theorem score_le (scale : Scale) (source target : Fin 12) : scale.score source target ≤ 8 := by
  cases scale <;> revert source target <;> decide

theorem moveWeight_ne_zero {scale : Scale} {source target : Fin 12}
    (h : 1 ≤ scale.score source target) : UInt32.ofNat (scale.score source target).toNat ≠ 0 := by
  have hle := score_le scale source target
  intro hzero
  rw [← UInt32.toNat_inj, UInt32.toNat_ofNat', Nat.mod_eq_of_lt (by omega)] at hzero
  have hzero : (scale.score source target).toNat = 0 := hzero
  omega

theorem moveRule?_eq_some_iff {scale : Scale} {source target : Fin 12} {rule : Rule} :
    moveRule? scale source target = some rule ↔ 1 ≤ scale.score source target ∧
      ⟨degreeDigits source, (scale.triad source).letter, [],
        UInt32.ofNat (scale.score source target).toNat,
        (scale.triad source).letter :: degreeToken scale target⟩ = rule := by
  simp only [moveRule?]
  split <;> simp [*]

theorem mem_rules {scale : Scale} {rule : Rule} :
    rule ∈ rules scale ↔ ∃ source target, moveRule? scale source target = some rule := by
  simp [rules]

theorem length_rules_lt (scale : Scale) : (rules scale).length < 2 ^ 32 := by
  cases scale <;> decide

/-! ## One pass -/

/-- A system with the scale's rules, wherever it was left. -/
def IsOf (scale : Scale) (system : RewriteSystem) : Prop :=
  system.reset = (Grammar.ofScale scale).system

section

variable {scale : Scale} {system : RewriteSystem} {before after : Word}

theorem IsOf.rules_eq (h : IsOf scale system) : system.rules = rules scale :=
  congrArg RewriteSystem.rules h

theorem IsOf.contextual_eq (h : IsOf scale system) : system.contextual = true :=
  congrArg RewriteSystem.contextual h

/-- No rule fits a letter of the digits. -/
theorem replaces_digit (h : IsOf scale system) {d : Fin 12} {c : Char} (hc : c ∈ degreeDigits d)
    {piece : Word} (hpiece : system.Replaces ⟨before, c, after⟩ piece) : piece = [c] := by
  cases hpiece with
  | letter => rfl
  | rule hmem =>
    obtain ⟨hrule, hfits⟩ := RewriteSystem.mem_candidates.1 hmem
    obtain ⟨source, target, hmove⟩ := mem_rules.1 (h.rules_eq ▸ hrule)
    obtain ⟨-, rfl⟩ := moveRule?_eq_some_iff.1 hmove
    have hletter : c = (scale.triad source).letter := Rule.letter_of_fits hfits
    exact absurd (hletter ▸ hc) (letter_notMem_degreeDigits _ d)

/-- The rules that fit the letter of a token are the moves away from its degree. -/
theorem mem_candidates_letter (h : IsOf scale system) {d : Fin 12} {rule : Rule} :
    rule ∈ system.candidates ⟨(degreeDigits d).reverse ++ before, (scale.triad d).letter, after⟩ ↔
      ∃ target, moveRule? scale d target = some rule := by
  rw [RewriteSystem.mem_candidates, h.rules_eq, h.contextual_eq, mem_rules]
  constructor
  · rintro ⟨⟨source, target, hmove⟩, hfits⟩
    obtain ⟨hscore, rfl⟩ := moveRule?_eq_some_iff.1 hmove
    obtain ⟨-, hleft, -⟩ := Rule.fits_true_iff.1 hfits
    have hlength : (degreeDigits source).reverse.length = (degreeDigits d).reverse.length := by
      rw [List.length_reverse, List.length_reverse, length_degreeDigits, length_degreeDigits]
    have hends := List.prefix_of_prefix_length_le hleft (List.prefix_append _ _)
      (Nat.le_of_eq hlength)
    have hdigits := List.reverse_injective (hends.eq_of_length hlength)
    cases degreeDigits_injective hdigits
    exact ⟨target, hmove⟩
  · rintro ⟨target, hmove⟩
    refine ⟨⟨d, target, hmove⟩, ?_⟩
    obtain ⟨-, rfl⟩ := moveRule?_eq_some_iff.1 hmove
    simp [Rule.fits_true_iff]

/-- Behind the letter of a token comes a token to which its degree can move. -/
theorem replaces_letter (h : IsOf scale system) {d : Fin 12} {piece : Word}
    (hpiece : system.Replaces
      ⟨(degreeDigits d).reverse ++ before, (scale.triad d).letter, after⟩ piece) :
    ∃ target, 1 ≤ scale.score d target ∧ piece = (scale.triad d).letter :: degreeToken scale target := by
  cases hpiece with
  | rule hmem =>
    obtain ⟨target, hmove⟩ := (mem_candidates_letter h).1 hmem
    obtain ⟨hscore, rfl⟩ := moveRule?_eq_some_iff.1 hmove
    exact ⟨target, hscore, rfl⟩
  | letter hnone =>
    obtain ⟨target, hscore⟩ := exists_move scale d
    exact absurd (hnone _ ((mem_candidates_letter h).2
      ⟨target, moveRule?_eq_some_iff.2 ⟨hscore, rfl⟩⟩)) (moveWeight_ne_zero hscore)

/-- What a pass makes of the tokens of `ds`, whatever precedes them. -/
theorem grows_of_replaces (h : IsOf scale system) {ds : List (Fin 12)} {pieces : List Word}
    (hpieces : List.Forall₂ system.Replaces (Site.ofWordAfter before (tokens scale ds)) pieces) :
    ∃ ds', Grows scale ds ds' ∧ pieces.flatten = tokens scale ds' := by
  induction ds generalizing before pieces with
  | nil =>
    cases hpieces
    exact ⟨[], .nil, rfl⟩
  | cons d ds ih =>
    obtain ⟨tens, ones, hdigits⟩ := List.length_eq_two.1 (length_degreeDigits d)
    have htens : tens ∈ degreeDigits d := by rw [hdigits]; exact List.mem_cons_self
    have hones : ones ∈ degreeDigits d := by rw [hdigits]; simp
    have hbefore : ones :: tens :: before = (degreeDigits d).reverse ++ before := by
      rw [hdigits]; rfl
    have hword : tokens scale (d :: ds) = tens :: ones :: (scale.triad d).letter :: tokens scale ds := by
      rw [tokens_cons, degreeToken, hdigits]; rfl
    rw [hword] at hpieces
    simp only [Site.ofWordAfter_cons] at hpieces
    rcases hpieces with _ | ⟨h₁, _ | ⟨h₂, _ | ⟨h₃, hrest⟩⟩⟩
    obtain ⟨ds', hgrows, hrest⟩ := ih hrest
    rw [hbefore] at h₃
    obtain ⟨target, hmove, rfl⟩ := replaces_letter h h₃
    refine ⟨d :: target :: ds', .cons hmove hgrows, ?_⟩
    rw [replaces_digit h htens h₁, replaces_digit h hones h₂]
    simp only [List.flatten_cons, hrest, tokens_cons, degreeToken, hdigits]
    simp

/-! ## Steps -/

/-- The system after `n` steps from rest: its word has doubled so often, and still starts with the
tonic. -/
structure Doubled (scale : Scale) (n : Nat) (system : RewriteSystem) : Prop where
  isOf : IsOf scale system
  steps_eq : system.steps = n
  degrees : ∃ ds, system.current = tokens scale ds ∧ ds.length = 2 ^ n ∧ ds.head? = some 0

theorem Doubled.atRest (h : IsOf scale system) : Doubled scale 0 system.reset where
  isOf := h
  steps_eq := rfl
  degrees := by
    have hstart : system.reset.current = start scale := congrArg RewriteSystem.start h
    exact ⟨[0], by simp [hstart, start], rfl, rfl⟩

theorem doubled_ofScale (scale : Scale) : Doubled scale 0 (Grammar.ofScale scale).system :=
  Doubled.atRest (show IsOf scale (Grammar.ofScale scale).system from rfl)

variable {allowed : Failure → Prop}

/-- A pass over tokens puts a move behind each of them. -/
theorem WP.rewrite_tokens (h : IsOf scale system) (ds : List (Fin 12)) (r : Rng) :
    Draw.WP allowed r (system.rewrite (tokens scale ds)) fun w _ =>
      ∃ ds', Grows scale ds ds' ∧ w = tokens scale ds' := by
  have hrules : system.rules.length < 2 ^ 32 := by
    rw [h.rules_eq]
    exact length_rules_lt scale
  refine .mono (RewriteSystem.WP.rewrite hrules (tokens scale ds) r) fun w _ _ hw => ?_
  obtain ⟨pieces, hpieces, rfl⟩ := hw
  exact grows_of_replaces h hpieces

/-- A step puts a move behind each degree that was reached. -/
theorem WP.step_grows {n : Nat} (h : Doubled scale n system) (r : Rng) :
    Draw.WP allowed r system.step fun grown _ => Doubled scale (n + 1) grown ∧
      ∃ ds ds', Grows scale ds ds' ∧ system.current = tokens scale ds ∧
        grown.current = tokens scale ds' := by
  obtain ⟨ds, hcurrent, hlength, hhead⟩ := h.degrees
  rw [RewriteSystem.step, hcurrent]
  refine .bind (.mono (rewrite_tokens h.isOf ds r) fun w _ _ ⟨ds', hgrows, hw⟩ => .pure ?_)
  have hsteps : system.steps + 1 = n + 1 := congrArg (· + 1) h.steps_eq
  refine ⟨⟨h.isOf, hsteps, ds', hw, ?_, hgrows.head?.trans hhead⟩, ds, ds', hgrows, rfl, hw⟩
  rw [hgrows.length, hlength, Nat.pow_succ']

theorem WP.step {n : Nat} (h : Doubled scale n system) (r : Rng) :
    Draw.WP allowed r system.step fun grown _ => Doubled scale (n + 1) grown :=
  .mono (step_grows h r) fun _ _ _ h => h.1

theorem WP.stepTimes (h : Doubled scale 0 system) (n : Nat) (r : Rng) :
    Draw.WP allowed r (system.stepTimes n) fun grown _ => Doubled scale n grown := by
  induction n with
  | zero => exact .pure h
  | succ n ih => exact .bind (.mono ih fun grown r' _ hgrown => step hgrown r')

theorem Doubled.length {n : Nat} (h : Doubled scale n system) : system.current.length = 3 * 2 ^ n := by
  obtain ⟨ds, hcurrent, hlength, -⟩ := h.degrees
  rw [hcurrent, length_tokens, hlength]

end

end Chorale.Harmony
