import Chorale.Proofs.Draw.Stuck
import Chorale.Proofs.Draw.Uniform
import Chorale.Proofs.Draw.Weights

/-!
# Draws by weight are proportional

A place is looked up for as many numbers below the sum of the weights as its weight says
(`card_placeOf`), and each of these is dealt the same number of words. So the number of words that
select a place is exactly proportional to its weight (`card_deal?_placeOf`,
`weighted_proportional`).
-/

namespace Chorale.Draw

variable {weights : List UInt64} {i : Nat} {total : UInt64}

/-- The numbers for which a place is looked up are an interval. -/
theorem placeOf_iff (htotal : total.toNat = weightSum weights) (hi : i < weights.length)
    (target : UInt64) :
    target < total ∧ placeOf target 0 weights = .ok (some i) ↔
      weightSum (weights.take i) ≤ target.toNat ∧
        target.toNat < weightSum (weights.take i) + weights[i].toNat := by
  have hfit : weightSum weights < 2 ^ 64 := htotal ▸ total.toNat_lt
  constructor
  · rintro ⟨hlt, hplace⟩
    have hlt : target.toNat < weightSum weights := htotal ▸ UInt64.lt_iff_toNat_lt.1 hlt
    have hcovers := (placeOf_eq_ok_iff hfit hlt).1 hplace
    exact ⟨hcovers.le, hcovers.lt⟩
  · rintro ⟨hle, hlt⟩
    have hcovers : Covers weights i target.toNat := ⟨hi, hle, hlt⟩
    have hlt := hcovers.lt_weightSum
    exact ⟨UInt64.lt_iff_toNat_lt.2 (htotal ▸ hlt), (placeOf_eq_ok_iff hfit hlt).2 hcovers⟩

theorem card_placeOf (htotal : total.toNat = weightSum weights) (hi : i < weights.length) :
    Nat.card {target : UInt64 // target < total ∧ placeOf target 0 weights = .ok (some i)} =
      weights[i].toNat := by
  have hend := weightSum_take_add_le weights hi
  have hsize := total.toNat_lt
  rw [card_word_congr (placeOf_iff htotal hi),
    card_word fun k => weightSum (weights.take i) ≤ k ∧
      k < weightSum (weights.take i) + weights[i].toNat, count_interval (by omega)]
  exact Nat.add_sub_cancel_left ..

theorem card_deal?_placeOf (htotal : total.toNat = weightSum weights) (hpos : 0 < total)
    (hi : i < weights.length) :
    Nat.card {w : UInt64 // ∃ target, deal? 0 total w = some target ∧
      placeOf target 0 weights = .ok (some i)} = weights[i].toNat * (2 ^ 64 / total.toNat) := by
  have hinterval := card_deal?_interval hpos (a := weightSum (weights.take i))
    (b := weightSum (weights.take i) + weights[i].toNat) (Nat.zero_le _)
    (htotal ▸ weightSum_take_add_le weights hi)
  rw [Nat.add_sub_cancel_left, UInt64.toNat_zero, Nat.sub_zero] at hinterval
  rw [← hinterval]
  apply card_word_congr
  intro w
  constructor
  · rintro ⟨target, hdeal, hplace⟩
    exact ⟨target, hdeal, (placeOf_iff htotal hi target).1 ⟨(deal?_bounds hpos hdeal).2, hplace⟩⟩
  · rintro ⟨target, hdeal, hinterval⟩
    exact ⟨target, hdeal, ((placeOf_iff htotal hi target).2 hinterval).2⟩

/-- A word that is not left over ends a draw by weight at once. -/
theorem run_weighted_of_deal? (htotal : total.toNat = weightSum weights) (hpos : 0 < total) {r : Rng}
    {target : UInt64} (hdeal : deal? 0 total r.output = some target)
    (hplace : placeOf target 0 weights = .ok (some i)) :
    (weighted weights).run r = (.ok (some i), r.advance) := by
  have hrange : (range 0 total).run r = (.ok target, r.advance) :=
    (run_range_eq_ok_iff hpos).2 ⟨0, fun m hm => absurd hm (Nat.not_lt_zero m), hdeal, rfl⟩
  rw [weighted_eq_bind htotal hpos, run_bind, hrange]
  show (liftM (placeOf target 0 weights) : Draw (Option Nat)).run r.advance = _
  rw [hplace]
  rfl

theorem run_weighted_eq_none_iff (hfit : weightSum weights < 2 ^ 64) {r r' : Rng} :
    (weighted weights).run r = (.ok none, r') ↔ weightSum weights = 0 ∧ r' = r := by
  constructor
  · intro hrun
    have hweighted : WP (fun _ => False) r (weighted weights) _ := WP.weighted hfit r
    rcases (hweighted.of_ok hrun).2 with ⟨-, hzero, hr⟩ | ⟨_, _, hplace, -⟩
    · exact ⟨hzero, hr⟩
    · cases hplace
  · rintro ⟨hzero, rfl⟩
    rw [weighted_eq_pure hzero, run_pure]

/-- If the weights add up to zero nothing is drawn. Otherwise a number below their sum is drawn from
its range, which ends in every state but that of zeros, and there is a place in whose interval it
lies, so that no sum overflows and the weight of the place is positive. Each place has as many of the
numbers as its weight says, and in the same proportion the words that are not left over. -/
theorem weighted_proportional (hfit : weightSum weights < 2 ^ 64) :
    (∀ r r', (weighted weights).run r = (.ok none, r') ↔ weightSum weights = 0 ∧ r' = r) ∧
    ∀ total : UInt64, total.toNat = weightSum weights → 0 < total →
      (∀ r, WP (fun _ => False) r (weighted weights) (fun place r' => ∃ target i,
        (range 0 total).run r = (.ok target, r') ∧ target < total ∧ place = some i ∧
          placeOf target 0 weights = .ok (some i) ∧ Covers weights i target.toNat) ∧
        (r ≠ ⟨0, 0, 0, 0⟩ → ∃ place r', (weighted weights).run r = (.ok place, r'))) ∧
      (∀ r target i, deal? 0 total r.output = some target →
        placeOf target 0 weights = .ok (some i) →
          (weighted weights).run r = (.ok (some i), r.advance)) ∧
      (∀ target < total, ∃ i, ∃ hi : i < weights.length,
        placeOf target 0 weights = .ok (some i) ∧ Covers weights i target.toNat ∧
          weights[i] ≠ 0) ∧
      ∀ i (hi : i < weights.length),
        Nat.card {target : UInt64 // target < total ∧ placeOf target 0 weights = .ok (some i)} =
          weights[i].toNat ∧
        Nat.card {w : UInt64 // ∃ target, deal? 0 total w = some target ∧
          placeOf target 0 weights = .ok (some i)} =
            weights[i].toNat * (2 ^ 64 / total.toNat) := by
  refine ⟨fun r r' => run_weighted_eq_none_iff hfit, fun total htotal hpos => ⟨fun r => ?_,
    fun r target i => run_weighted_of_deal? htotal hpos, fun target htarget => ?_, fun i hi =>
      ⟨card_placeOf htotal hi, card_deal?_placeOf htotal hpos hi⟩⟩⟩
  · have htarget : WP (fun _ => False) r (weighted weights) _ := WP.weighted_target htotal hpos r
    refine ⟨.mono htarget fun place r' _ h => ?_, htarget.exists_run_eq_ok fun _ => id⟩
    obtain ⟨target, i, hrun, hplace, hlookup, hcovers⟩ := h
    have hlt : target < total := UInt64.lt_iff_toNat_lt.2 (htotal ▸ hcovers.lt_weightSum)
    exact ⟨target, i, hrun, hlt, hplace, hlookup, hcovers⟩
  · have hlt := UInt64.lt_iff_toNat_lt.1 htarget
    obtain ⟨i, hplace, hcovers⟩ := exists_placeOf hfit (htotal ▸ hlt)
    exact ⟨i, hcovers.lt_length, hplace, hcovers, hcovers.weight_ne_zero _⟩

/-- Weights with a zero between them, of which the words are shared 26 to 6. -/
theorem weighted_proportional_twentySix :
    weightSum [26, 0, 6] < 2 ^ 64 ∧ (32 : UInt64).toNat = weightSum [26, 0, 6] ∧ (0 : UInt64) < 32 ∧
      (∃ place r', (weighted [26, 0, 6]).run ⟨1, 2, 3, 4⟩ = (.ok place, r')) ∧
      Nat.card {target : UInt64 // target < 32 ∧ placeOf target 0 [26, 0, 6] = .ok (some 2)} = 6 ∧
      Nat.card {w : UInt64 // ∃ target, deal? 0 32 w = some target ∧
        placeOf target 0 [26, 0, 6] = .ok (some 0)} = 26 * 2 ^ 59 ∧
      Nat.card {w : UInt64 // ∃ target, deal? 0 32 w = some target ∧
        placeOf target 0 [26, 0, 6] = .ok (some 1)} = 0 := by
  have hfit : weightSum [26, 0, 6] < 2 ^ 64 := by decide
  have htotal : (32 : UInt64).toNat = weightSum [26, 0, 6] := by decide
  have hpos : (0 : UInt64) < 32 := by decide
  obtain ⟨hdraws, -, -, hcards⟩ := (weighted_proportional hfit).2 32 htotal hpos
  exact ⟨hfit, htotal, hpos, (hdraws ⟨1, 2, 3, 4⟩).2 (by decide), (hcards 2 (by decide)).1, (hcards 0 (by decide)).2.trans (by decide),
    (hcards 1 (by decide)).2.trans (by decide)⟩

end Chorale.Draw
