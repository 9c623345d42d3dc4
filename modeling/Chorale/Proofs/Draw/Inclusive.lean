import Chorale.Proofs.Draw.Uniform

/-!
# Draws from an inclusive range

A draw from `low ≤ x ≤ high` is a draw from the numbers below the word after `high`, and the greatest
word has none after it. So it fails if the range is empty, and it overflows if the range ends with
the greatest word, whether that is its only number or all words are in it
(`inclusiveRange_greatest`). Every other inclusive range is drawn from without bias (`dealsEvenly`,
`inclusiveRange_outcome`).
-/

namespace Chorale.Draw

variable {low high : UInt64}

theorem run_inclusiveRange_of_lt (h : high < low) (r : Rng) :
    (inclusiveRange low high).run r = (.error .emptyInclusiveRange, r) := by
  rw [inclusiveRange, if_neg (UInt64.not_le.2 h)]
  rfl

/-- The end of the range is looked at before anything is drawn. -/
theorem run_inclusiveRange_of_greatest (h : low ≤ high) (hhigh : high.toNat = 2 ^ 64 - 1) (r : Rng) :
    (inclusiveRange low high).run r = (.error .overflow, r) := by
  have hover : (Checked.add high 1 : Except Failure UInt64) = .error .overflow := by
    refine Checked.ofInt_eq_overflow_iff.2 fun top htop => ?_
    have hlt := top.toNat_lt
    have htop : (top.toNat : Int) = high.toNat + 1 := htop
    omega
  rw [inclusiveRange, if_pos h, hover]
  rfl

/-- Words are dealt to the numbers `low ≤ x ≤ high` and, as far as they go round, to each of these the
same number of them. -/
structure DealsEvenly (low high : UInt64) (deal? : UInt64 → Option UInt64) : Prop where
  bounds {w x : UInt64} : deal? w = some x → low ≤ x ∧ x ≤ high
  card : Nat.card {w : UInt64 // ∃ x, deal? w = some x} =
    (high.toNat - low.toNat + 1) * (2 ^ 64 / (high.toNat - low.toNat + 1))
  card_eq {v : UInt64} : low ≤ v → v ≤ high →
    Nat.card {w : UInt64 // deal? w = some v} = 2 ^ 64 / (high.toNat - low.toNat + 1)

theorem dealsEvenly (h : low ≤ high) (hhigh : high.toNat + 1 < 2 ^ 64) :
    DealsEvenly low high (deal? low (high + 1)) := by
  have hlt : low < high + 1 := (lt_add_one_iff hhigh).2 h
  have hle := UInt64.le_iff_toNat_le.1 h
  have hwidth : (high + 1).toNat - low.toNat = high.toNat - low.toNat + 1 := by
    rw [toNat_add_one hhigh]
    omega
  refine ⟨fun hx => ?_, ?_, fun hlow hv => ?_⟩
  · obtain ⟨hlow, hx⟩ := deal?_bounds hlt hx
    exact ⟨hlow, (lt_add_one_iff hhigh).1 hx⟩
  · rw [card_deal? hlt, hwidth]
  · rw [card_deal?_eq_some hlt hlow ((lt_add_one_iff hhigh).2 hv), hwidth]

/-- A draw from an inclusive range that is not empty and ends below the greatest word gives the number
of it that the first word that is not left over is dealt to, or never ends. -/
theorem run_inclusiveRange (h : low ≤ high) (hhigh : high.toNat + 1 < 2 ^ 64) (r : Rng) :
    (∃ n x, (∀ m < n, deal? low (high + 1) (Rng.advance^[m] r).output = none) ∧
      deal? low (high + 1) (Rng.advance^[n] r).output = some x ∧ low ≤ x ∧ x ≤ high ∧
      (inclusiveRange low high).run r = (.ok x, Rng.advance^[n + 1] r)) ∨
    (∀ n, deal? low (high + 1) (Rng.advance^[n] r).output = none) ∧
      ∃ r', (inclusiveRange low high).run r = (.error .endlessRejection, r') := by
  rw [inclusiveRange_eq_range h hhigh]
  refine (run_range ((lt_add_one_iff hhigh).2 h) r).imp_left ?_
  rintro ⟨n, x, hbefore, hx, hrun⟩
  obtain ⟨hlow, hle⟩ := (dealsEvenly h hhigh).bounds hx
  exact ⟨n, x, hbefore, hx, hlow, hle, hrun⟩

/-- A draw from an inclusive range says so just if the range is empty, and fails besides, other than
by never ending, if the range ends with the greatest word. In all other ranges it gives a number, the
one that the first word that is not left over is dealt to, and words are dealt to all of the numbers
evenly. -/
theorem inclusiveRange_outcome (low high : UInt64) :
    (∀ r, (∃ e r', e ≠ .endlessRejection ∧ (inclusiveRange low high).run r = (.error e, r')) ↔
      high < low ∨ high.toNat = 2 ^ 64 - 1) ∧
    (∀ r, (∃ r', (inclusiveRange low high).run r = (.error .emptyInclusiveRange, r')) ↔
      high < low) ∧
    (low ≤ high → high.toNat ≠ 2 ^ 64 - 1 →
      DealsEvenly low high (deal? low (high + 1)) ∧
      ∀ r,
        (∃ n x, (∀ m < n, deal? low (high + 1) (Rng.advance^[m] r).output = none) ∧
          deal? low (high + 1) (Rng.advance^[n] r).output = some x ∧ low ≤ x ∧ x ≤ high ∧
          (inclusiveRange low high).run r = (.ok x, Rng.advance^[n + 1] r)) ∨
        (∀ n, deal? low (high + 1) (Rng.advance^[n] r).output = none) ∧
          ∃ r', (inclusiveRange low high).run r = (.error .endlessRejection, r')) := by
  by_cases hempty : high < low
  · have hrun := run_inclusiveRange_of_lt hempty
    have hfails (r : Rng) : ∃ e r', e ≠ .endlessRejection ∧
        (inclusiveRange low high).run r = (.error e, r') :=
      ⟨.emptyInclusiveRange, r, nofun, hrun r⟩
    refine ⟨fun r => ⟨fun _ => .inl hempty, fun _ => hfails r⟩,
      fun r => ⟨fun _ => hempty, fun _ => ⟨r, hrun r⟩⟩, fun h => ?_⟩
    exact absurd hempty (UInt64.not_lt.2 h)
  have hle : low ≤ high := UInt64.not_lt.1 hempty
  by_cases hgreatest : high.toNat = 2 ^ 64 - 1
  · have hrun := run_inclusiveRange_of_greatest hle hgreatest
    refine ⟨fun r => ⟨fun _ => .inr hgreatest, fun _ => ⟨.overflow, r, nofun, hrun r⟩⟩,
      fun r => ⟨?_, fun h => absurd h hempty⟩, fun _ h => absurd hgreatest h⟩
    rintro ⟨r', h⟩
    cases (hrun r).symm.trans h
  · have hhigh : high.toNat + 1 < 2 ^ 64 := by
      have := high.toNat_lt
      omega
    have hcases := run_inclusiveRange hle hhigh
    -- Such a draw fails in one way only.
    have hfails {r r' : Rng} {e : Failure}
        (h : (inclusiveRange low high).run r = (.error e, r')) : e = .endlessRejection := by
      rcases hcases r with ⟨n, x, -, -, -, -, hrun⟩ | ⟨-, r₁, hrun⟩ <;> cases hrun.symm.trans h
      rfl
    refine ⟨fun r => ⟨?_, fun h => (h.elim hempty hgreatest).elim⟩,
      fun r => ⟨?_, fun h => absurd h hempty⟩, fun _ _ => ⟨dealsEvenly hle hhigh, hcases⟩⟩
    · rintro ⟨e, r', he, h⟩
      exact absurd (hfails h) he
    · rintro ⟨r', h⟩
      cases hfails h

/-- Four numbers, to which a quarter of all words are dealt each, and all words but the greatest, to
which they are dealt one by one. -/
theorem inclusiveRange_outcome_four :
    ((1 : UInt64) ≤ 4 ∧ (4 : UInt64).toNat ≠ 2 ^ 64 - 1 ∧
      Nat.card {w : UInt64 // deal? 1 (4 + 1) w = some 4} = 2 ^ 62) ∧
    (0 : UInt64) ≤ 0xfffffffffffffffe ∧ (0xfffffffffffffffe : UInt64).toNat ≠ 2 ^ 64 - 1 ∧
      Nat.card {w : UInt64 // deal? 0 (0xfffffffffffffffe + 1) w = some 0} = 1 := by
  have hfour : (1 : UInt64) ≤ 4 := by decide
  have hwidest : (0 : UInt64) ≤ 0xfffffffffffffffe := by decide
  obtain ⟨heven, -⟩ := (inclusiveRange_outcome 1 4).2.2 hfour (by decide)
  obtain ⟨heven', -⟩ := (inclusiveRange_outcome 0 0xfffffffffffffffe).2.2 hwidest (by decide)
  exact ⟨⟨hfour, by decide, heven.card_eq hfour (UInt64.le_refl 4)⟩, hwidest, by decide,
    heven'.card_eq (UInt64.le_refl 0) hwidest⟩

/-- Ranges that are not empty overflow if they end with the greatest word: the range of that word
alone, and that of all words. -/
theorem inclusiveRange_greatest :
    (inclusiveRange 0xffffffffffffffff 0xffffffffffffffff).run (.ofSeed 1) =
        (.error .overflow, .ofSeed 1) ∧
      (inclusiveRange 0 0xffffffffffffffff).run (.ofSeed 1) = (.error .overflow, .ofSeed 1) :=
  ⟨run_inclusiveRange_of_greatest (by decide) (by decide) _,
    run_inclusiveRange_of_greatest (by decide) (by decide) _⟩

end Chorale.Draw
