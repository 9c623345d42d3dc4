import Chorale.Proofs.Draw.Range

/-!
# Draws by weight

The weights cut the numbers below their sum into intervals, one for each place and as long as its
weight (`Covers`). A number is looked up at the place whose interval it lies in
(`placeOf_eq_ok_iff`), so that a draw by weight gives a place whose weight is positive, or draws
nothing if there is none (`WP.weighted`).
-/

namespace Chorale.Draw

variable {allowed : Failure → Prop}

/-- The sum of weights. -/
def weightSum (weights : List UInt64) : Nat := (weights.map (·.toNat)).sum

@[simp] theorem weightSum_nil : weightSum [] = 0 := rfl

@[simp] theorem weightSum_cons (w : UInt64) (weights : List UInt64) :
    weightSum (w :: weights) = w.toNat + weightSum weights := by
  simp [weightSum]

@[simp] theorem weightSum_append (front back : List UInt64) :
    weightSum (front ++ back) = weightSum front + weightSum back := by
  simp [weightSum]

theorem weightSum_eq_zero_iff {weights : List UInt64} :
    weightSum weights = 0 ↔ ∀ w ∈ weights, w = 0 := by
  simp [weightSum, List.sum_eq_zero_iff, ← UInt64.toNat_inj]

theorem weightSum_take_succ (weights : List UInt64) {i : Nat} (h : i < weights.length) :
    weightSum (weights.take (i + 1)) = weightSum (weights.take i) + weights[i].toNat := by
  have hsplit : weights.take (i + 1) = weights.take i ++ [weights[i]] :=
    (List.take_append_getElem h).symm
  rw [hsplit, weightSum_append, weightSum_cons, weightSum_nil, Nat.add_zero]

theorem weightSum_take_mono (weights : List UInt64) {i j : Nat} (h : i ≤ j) :
    weightSum (weights.take i) ≤ weightSum (weights.take j) := by
  obtain ⟨rest, hrest⟩ := List.take_prefix_take_left (l := weights) h
  rw [← hrest, weightSum_append]
  exact Nat.le_add_right ..

theorem weightSum_take_add_le (weights : List UInt64) {i : Nat} (h : i < weights.length) :
    weightSum (weights.take i) + weights[i].toNat ≤ weightSum weights := by
  have hmono := weightSum_take_mono weights (show i + 1 ≤ weights.length from h)
  rwa [weightSum_take_succ weights h, List.take_length] at hmono

/-! ## Intervals -/

/-- The number `target` lies in the interval of the place `i`: the weights before the place add up
to at most `target`, and together with the weight of the place to more. -/
structure Covers (weights : List UInt64) (i target : Nat) : Prop where
  lt_length : i < weights.length
  le : weightSum (weights.take i) ≤ target
  lt : target < weightSum (weights.take i) + weights[i].toNat

variable {weights : List UInt64} {i j target : Nat}

theorem Covers.weight_ne_zero (h : Covers weights i target) (hi : i < weights.length) :
    weights[i] ≠ 0 := by
  intro hzero
  have := h.lt
  rw [hzero] at this
  exact absurd h.le (Nat.not_le.2 this)

theorem Covers.lt_weightSum (h : Covers weights i target) : target < weightSum weights :=
  Nat.lt_of_lt_of_le h.lt (weightSum_take_add_le weights h.lt_length)

theorem Covers.place_le (hi : Covers weights i target) (hj : Covers weights j target) : j ≤ i := by
  apply Nat.not_lt.1
  intro hlt
  have hsucc := weightSum_take_succ weights hi.lt_length
  have hmono := weightSum_take_mono weights (show i + 1 ≤ j from hlt)
  have := hi.lt
  have := hj.le
  omega

/-- Intervals of different places have no number in common. -/
theorem Covers.place_eq (hi : Covers weights i target) (hj : Covers weights j target) : i = j :=
  Nat.le_antisymm (hj.place_le hi) (hi.place_le hj)

/-- The place at which the running total first exceeds the target is the one in whose interval the
target lies. -/
theorem placeOf_eq (target total : UInt64) (weights : List UInt64)
    (hfit : total.toNat + weightSum weights < 2 ^ 64) (hle : total.toNat ≤ target.toNat)
    (hlt : target.toNat < total.toNat + weightSum weights) :
    ∃ i, placeOf target total weights = .ok (some i) ∧
      Covers weights i (target.toNat - total.toNat) := by
  induction weights generalizing total with
  | nil => simp only [weightSum_nil] at hlt; omega
  | cons w weights ih =>
    simp only [weightSum_cons] at hfit hlt
    obtain ⟨total', hadd, htotal'⟩ := Checked.unsigned64.add_eq_ok (a := total) (b := w) (by omega)
    by_cases h : target < total'
    · have hplace : placeOf target total (w :: weights) = .ok (some 0) := by
        rw [placeOf, hadd]
        exact if_pos h
      have := UInt64.lt_iff_toNat_lt.1 h
      exact ⟨0, hplace, Nat.succ_pos _, Nat.zero_le _, by simp; omega⟩
    · have hge : total'.toNat ≤ target.toNat := Nat.not_lt.1 (mt UInt64.lt_iff_toNat_lt.2 h)
      obtain ⟨i, hplace, hi, hlow, hhigh⟩ := ih total' (by omega) hge (by omega)
      refine ⟨i + 1, ?_, Nat.succ_lt_succ hi, ?_, ?_⟩
      · rw [placeOf, hadd]
        show (if target < total' then _ else _) = _
        rw [if_neg h, hplace]
        rfl
      · rw [List.take_succ_cons, weightSum_cons]; omega
      · rw [List.take_succ_cons, weightSum_cons, List.getElem_cons_succ]; omega

theorem exists_placeOf {target : UInt64} (hfit : weightSum weights < 2 ^ 64)
    (hlt : target.toNat < weightSum weights) :
    ∃ i, placeOf target 0 weights = .ok (some i) ∧ Covers weights i target.toNat :=
  placeOf_eq target 0 weights (by simpa using hfit) (Nat.zero_le _) (by simpa using hlt)

/-- A number below the sum of the weights is looked up at the place in whose interval it lies. -/
theorem placeOf_eq_ok_iff {target : UInt64} (hfit : weightSum weights < 2 ^ 64)
    (hlt : target.toNat < weightSum weights) :
    placeOf target 0 weights = .ok (some i) ↔ Covers weights i target.toNat := by
  obtain ⟨j, hplace, hcovers⟩ := exists_placeOf hfit hlt
  rw [hplace]
  constructor
  · intro h
    cases h
    exact hcovers
  · intro h
    rw [hcovers.place_eq h]

/-! ## Draws -/

theorem sum_weights_eq {total : UInt64} (htotal : total.toNat = weightSum weights) :
    Checked.sum 0 weights = .ok total := by
  obtain ⟨total', hsum, htotal'⟩ := Checked.unsigned64.sum_eq_ok 0 weights (by
    show 0 + weightSum weights < 2 ^ 64
    rw [Nat.zero_add, ← htotal]
    exact total.toNat_lt)
  have heq : total'.toNat = total.toNat := by
    rw [htotal, htotal']
    exact Nat.zero_add _
  rw [hsum, UInt64.toNat_inj.1 heq]

/-- If no weight is positive, nothing is drawn. -/
theorem weighted_eq_pure (h : weightSum weights = 0) : weighted weights = pure none := by
  have hsum : Checked.sum 0 weights = .ok 0 := sum_weights_eq h.symm
  rw [weighted, hsum]
  rfl

/-- Otherwise a number below the sum of the weights is drawn and looked up. -/
theorem weighted_eq_bind {total : UInt64} (htotal : total.toNat = weightSum weights)
    (hpos : 0 < total) :
    weighted weights = (do
      let target ← range 0 total
      placeOf target 0 weights : Draw (Option Nat)) := by
  rw [weighted, sum_weights_eq htotal]
  exact if_neg (UInt64.pos_iff_ne_zero.1 hpos)

theorem WP.weighted_target {total : UInt64} (htotal : total.toNat = weightSum weights)
    (hpos : 0 < total) (r : Rng) :
    WP allowed r (Draw.weighted weights) fun place r' => ∃ target i,
      (Draw.range 0 total).run r = (.ok target, r') ∧ place = some i ∧
        placeOf target 0 weights = .ok (some i) ∧ Covers weights i target.toNat := by
  have hfit : weightSum weights < 2 ^ 64 := htotal ▸ total.toNat_lt
  rw [weighted_eq_bind htotal hpos]
  refine bind (mono (range hpos r).run fun target r' _ ⟨hrun, htarget⟩ => lift ?_)
  obtain ⟨i, hplace, hcovers⟩ :=
    exists_placeOf hfit (htotal ▸ UInt64.lt_iff_toNat_lt.1 htarget.2)
  exact .of_eq_ok hplace ⟨target, i, hrun, rfl, hplace, hcovers⟩

/-- If the weights are zero nothing is drawn; otherwise a place is, and its weight is positive. -/
theorem WP.weighted {weights : List UInt64} (hfit : weightSum weights < 2 ^ 64) (r : Rng) :
    WP allowed r (Draw.weighted weights) fun place r' =>
      (place = none ∧ weightSum weights = 0 ∧ r' = r) ∨
        ∃ i, ∃ hi : i < weights.length, place = some i ∧ weights[i] ≠ 0 := by
  obtain ⟨total, htotal⟩ := Checked.unsigned64.exists_size_eq _ hfit
  by_cases hzero : total = 0
  · have hsum : weightSum weights = 0 := by rw [← htotal, hzero]; rfl
    rw [weighted_eq_pure hsum]
    exact pure (.inl ⟨rfl, hsum, rfl⟩)
  · have hpos : 0 < total := UInt64.pos_iff_ne_zero.2 hzero
    refine mono (weighted_target htotal hpos r) fun place _ _ h => .inr ?_
    obtain ⟨target, i, -, hplace, -, hcovers⟩ := h
    exact ⟨i, hcovers.lt_length, hplace, hcovers.weight_ne_zero _⟩

end Chorale.Draw
