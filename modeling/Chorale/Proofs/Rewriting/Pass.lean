import Chorale.Proofs.Draw.Weights
import Chorale.Rewriting.System

/-!
# One pass of rewriting

A pass puts in the place of each letter the successor of a rule that fits it, or the letter itself
if no rule does (`RewriteSystem.Replaces`), whatever is drawn. It has no other outcome than the word
made of these pieces, unless a draw never ends (`WP.rewrite`).
-/

namespace Chorale

namespace RewriteSystem

variable {allowed : Failure → Prop}

/-- `piece` can stand in the place of the letter of `site` after a pass. -/
inductive Replaces (system : RewriteSystem) (site : Site) : Word → Prop
  /-- A rule fits the site. -/
  | rule {rule : Rule} (hmem : rule ∈ system.candidates site) (hweight : rule.weight ≠ 0) :
    Replaces system site rule.successor
  /-- No rule does, or none that has a weight. -/
  | letter (hnone : ∀ rule ∈ system.candidates site, rule.weight = 0) :
    Replaces system site [site.letter]

/-- `w'` can be what a pass makes of `w`. -/
def Yields (system : RewriteSystem) (w w' : Word) : Prop :=
  ∃ pieces, List.Forall₂ system.Replaces (Site.ofWord w) pieces ∧ w' = pieces.flatten

theorem mem_candidates {system : RewriteSystem} {site : Site} {rule : Rule} :
    rule ∈ system.candidates site ↔
      rule ∈ system.rules ∧ rule.fits system.contextual site = true := List.mem_filter

/-- The weights of less than 2^32 rules have a sum of 64 bits. -/
theorem weightSum_weights_le (rules : List Rule) :
    Draw.weightSum (rules.map (·.weight.toUInt64)) ≤ rules.length * (2 ^ 32 - 1) := by
  induction rules with
  | nil => exact Nat.le_refl 0
  | cons rule rules ih =>
    have := rule.weight.toNat_lt
    rw [List.map_cons, Draw.weightSum_cons, List.length_cons, UInt32.toNat_toUInt64]
    omega

/-- Between the states `r` and `r'` of the generator `piece` is put in the place of the letter `c`,
which the rules `candidates` fit. -/
inductive Puts (candidates : List Rule) (c : Char) (r : Rng) : Word → Rng → Prop
  /-- One draw by weight among the rules, in their order, chooses one that has a weight. -/
  | rule {place : Nat} {rule : Rule} {r' : Rng}
    (hdraw : (Draw.weighted (candidates.map (·.weight.toUInt64))).run r = (.ok (some place), r'))
    (hrule : candidates[place]? = some rule) (hweight : rule.weight ≠ 0) :
    Puts candidates c r rule.successor r'
  /-- No rule has a weight, and nothing is drawn. -/
  | letter (hnone : ∀ rule ∈ candidates, rule.weight = 0) : Puts candidates c r [c] r

theorem Puts.replaces {system : RewriteSystem} {site : Site} {piece : Word} {r r' : Rng}
    (h : Puts (system.candidates site) site.letter r piece r') : system.Replaces site piece := by
  cases h with
  | rule _ hrule hweight => exact .rule (List.mem_of_getElem? hrule) hweight
  | letter hnone => exact .letter hnone

theorem weightSum_filter_lt {rules : List Rule} (hrules : rules.length < 2 ^ 32) (p : Rule → Bool) :
    Draw.weightSum ((rules.filter p).map (·.weight.toUInt64)) < 2 ^ 64 := by
  have hlength : (rules.filter p).length ≤ rules.length := List.length_filter_le ..
  have hsum := weightSum_weights_le (rules.filter p)
  omega

theorem WP.rewriteSite {system : RewriteSystem} (hrules : system.rules.length < 2 ^ 32)
    (site : Site) (r : Rng) :
    Draw.WP allowed r (system.rewriteSite site) fun piece r' =>
      Puts (system.candidates site) site.letter r piece r' := by
  have hsum : Draw.weightSum ((system.candidates site).map (·.weight.toUInt64)) < 2 ^ 64 :=
    weightSum_filter_lt hrules _
  refine .bind (.mono (Draw.WP.weighted hsum r).run fun place r' _ ⟨hdraw, hplace⟩ => ?_)
  rcases hplace with ⟨rfl, hzero, rfl⟩ | ⟨i, hi, rfl, hweight⟩
  · refine .pure (.letter fun rule hmem => ?_)
    have := Draw.weightSum_eq_zero_iff.1 hzero _ (List.mem_map_of_mem hmem)
    rw [← UInt32.toNat_inj, ← UInt32.toNat_toUInt64, this]
    rfl
  · rw [List.length_map] at hi
    rw [List.getElem_map] at hweight
    have hget : (system.candidates site)[i]? = some (system.candidates site)[i] :=
      List.getElem?_eq_getElem hi
    rw [Option.bind_some, hget]
    exact .pure (.rule hdraw hget fun h => hweight (by rw [h]; rfl))

/-- The letters of a word are replaced one after another. -/
theorem WP.rewrite_inTurn {system : RewriteSystem} (hrules : system.rules.length < 2 ^ 32) (w : Word)
    (r : Rng) : Draw.WP allowed r (system.rewrite w) fun w' r' => ∃ pieces, w' = pieces.flatten ∧
      Draw.InTurn (fun r site => Puts (system.candidates site) site.letter r) r (Site.ofWord w)
        pieces r' :=
  .bind (.mono (.mapM_inTurn _ (fun site _ r => rewriteSite hrules site r) r) fun pieces _ _ h =>
    .pure ⟨pieces, rfl, h⟩)

theorem WP.rewrite {system : RewriteSystem} (hrules : system.rules.length < 2 ^ 32) (w : Word)
    (r : Rng) : Draw.WP allowed r (system.rewrite w) fun w' _ => system.Yields w w' :=
  .mono (rewrite_inTurn hrules w r) fun _ _ _ ⟨pieces, hw', hturns⟩ =>
    ⟨pieces, hturns.forall₂ fun _ _ _ _ hputs => hputs.replaces, hw'⟩

theorem yields_of_run {system : RewriteSystem} (hrules : system.rules.length < 2 ^ 32) {w w' : Word}
    {r r' : Rng} (h : (system.rewrite w).run r = (.ok w', r')) : system.Yields w w' := by
  have hrewrite : Draw.WP (fun _ => True) r (system.rewrite w) fun w' _ => system.Yields w w' :=
    WP.rewrite hrules w r
  exact (hrewrite.of_ok h).2

/-- Several steps. -/
def stepTimes (system : RewriteSystem) : Nat → Draw RewriteSystem
  | 0 => pure system
  | count + 1 => do
    let grown ← system.stepTimes count
    grown.step

/-- One step after others. -/
theorem run_stepTimes_succ {system grown last : RewriteSystem} {count : Nat} {r r' r'' : Rng}
    (h : (system.stepTimes count).run r = (.ok grown, r')) (k : grown.step.run r' = (.ok last, r'')) :
    (system.stepTimes (count + 1)).run r = (.ok last, r'') := by
  rw [stepTimes, Draw.run_bind, h]
  exact k

end RewriteSystem

end Chorale
