import Chorale.Proofs.Draw.WP

/-!
# Draws from a range

Words are dealt to the numbers of a range by their remainders, except for the first `2 ^ 64 % width`
of them, and this is so whether or not the width is a power of two (`deal?_eq_some_iff`). A draw from
a range that is not empty gives a number of it unless it never ends (`WP.range`,
`WP.inclusiveRange`): what the first word that is not left over is dealt to (`run_range`). An
inclusive range is the range up to the word after its end, if there is one
(`inclusiveRange_eq_range`).
-/

namespace Chorale.Draw

variable {allowed : Failure → Prop}

theorem toNat_leftover {width : UInt64} (h : 0 < width.toNat) :
    (leftover width).toNat = 2 ^ 64 % width.toNat := by
  have hlt := width.toNat_lt
  have hneg : (0 - width).toNat = 2 ^ 64 - width.toNat := by
    rw [UInt64.toNat_sub, UInt64.toNat_zero, Nat.add_zero, Nat.mod_eq_of_lt (by omega)]
  rw [leftover, UInt64.toNat_mod, hneg]
  exact (Nat.mod_eq_sub_mod (Nat.le_of_lt hlt)).symm

/-- The low bits of a word are its remainder. -/
theorem and_sub_one_eq_mod {width : UInt64} (h : isPowerOfTwo width.toNat) (w : UInt64) :
    w &&& (width - 1) = w % width := by
  obtain ⟨k, hk⟩ := isPowerOfTwo_iff.1 h
  have hle : (1 : UInt64) ≤ width := by
    rw [UInt64.le_iff_toNat_le, hk]
    exact Nat.one_le_two_pow
  have hsub : (width - 1).toNat = width.toNat - 1 := UInt64.toNat_sub_of_le _ _ hle
  apply UInt64.toNat_inj.1
  rw [UInt64.toNat_and, UInt64.toNat_mod, hsub, hk, Nat.and_two_pow_sub_one_eq_mod]

theorem leftover_eq_zero {width : UInt64} (h : isPowerOfTwo width.toNat) : leftover width = 0 := by
  obtain ⟨k, hk⟩ := isPowerOfTwo_iff.1 h
  have hk64 : k ≤ 64 := (Nat.pow_le_pow_iff_right (by decide)).1 (hk ▸ Nat.le_of_lt width.toNat_lt)
  apply UInt64.toNat_inj.1
  rw [toNat_leftover (hk ▸ Nat.two_pow_pos k), hk]
  exact Nat.mod_eq_zero_of_dvd (Nat.pow_dvd_pow 2 hk64)

/-- Words are dealt by their remainders, also if there is a power of two of numbers. -/
theorem deal?_eq (low high w : UInt64) :
    deal? low high w =
      if leftover (high - low) ≤ w then some (low + w % (high - low)) else none := by
  by_cases h : isPowerOfTwo (high - low).toNat
  · simp only [deal?, if_pos h, and_sub_one_eq_mod h, leftover_eq_zero h]
    exact (if_pos UInt64.zero_le).symm
  · simp only [deal?, if_neg h]

/-- A word is dealt to the number that its remainder is away from the low end. -/
theorem deal?_eq_some_iff {low high w x : UInt64} (h : low < high) :
    deal? low high w = some x ↔
      2 ^ 64 % (high.toNat - low.toNat) ≤ w.toNat ∧
        x.toNat = low.toNat + w.toNat % (high.toNat - low.toNat) := by
  have hlt := UInt64.lt_iff_toNat_lt.1 h
  have hhigh := high.toNat_lt
  have hwidth : (high - low).toNat = high.toNat - low.toNat :=
    UInt64.toNat_sub_of_le _ _ (UInt64.le_of_lt h)
  have hmod := Nat.mod_lt w.toNat (show high.toNat - low.toNat > 0 by omega)
  have hsum : (low + w % (high - low)).toNat =
      low.toNat + w.toNat % (high.toNat - low.toNat) := by
    rw [UInt64.toNat_add, UInt64.toNat_mod, hwidth, Nat.mod_eq_of_lt (by omega)]
  have hleft : leftover (high - low) ≤ w ↔ 2 ^ 64 % (high.toNat - low.toNat) ≤ w.toNat := by
    rw [UInt64.le_iff_toNat_le, toNat_leftover (by omega), hwidth]
  rw [deal?_eq, ← hsum, UInt64.toNat_inj, ← hleft]
  split
  · rename_i hle
    simp [hle, eq_comm]
  · rename_i hle
    simp [hle]

theorem deal?_bounds {low high w x : UInt64} (h : low < high) (hx : deal? low high w = some x) :
    low ≤ x ∧ x < high := by
  have hlt := UInt64.lt_iff_toNat_lt.1 h
  have hmod := Nat.mod_lt w.toNat (show high.toNat - low.toNat > 0 by omega)
  obtain ⟨-, hx⟩ := (deal?_eq_some_iff h).1 hx
  rw [UInt64.le_iff_toNat_le, UInt64.lt_iff_toNat_lt, hx]
  omega

theorem run_range_eq_ok_iff {low high x : UInt64} {r r' : Rng} (h : low < high) :
    (range low high).run r = (.ok x, r') ↔
      ∃ n, (∀ m < n, deal? low high (Rng.advance^[m] r).output = none) ∧
        deal? low high (Rng.advance^[n] r).output = some x ∧ r' = Rng.advance^[n + 1] r := by
  rw [range, if_pos h]
  exact run_firstDealt_eq_ok_iff

/-- A draw from a range that is not empty gives what the first word that is not left over is dealt to,
or every word of its stream is left over. -/
theorem run_range {low high : UInt64} (h : low < high) (r : Rng) :
    (∃ n x, (∀ m < n, deal? low high (Rng.advance^[m] r).output = none) ∧
      deal? low high (Rng.advance^[n] r).output = some x ∧
      (range low high).run r = (.ok x, Rng.advance^[n + 1] r)) ∨
    (∀ n, deal? low high (Rng.advance^[n] r).output = none) ∧
      ∃ r', (range low high).run r = (.error .endlessRejection, r') := by
  have hrange : range low high = firstDealt (deal? low high) Rng.stateCount := if_pos h
  rw [hrange]
  rcases run_firstDealt (deal? low high) Rng.stateCount r with ⟨n, -, x, hx⟩ | ⟨-, hrun⟩
  · exact .inl ⟨n, x, hx⟩
  · exact .inr ⟨(endless_of_run_firstDealt hrun).2, _, hrun⟩

theorem WP.range {low high : UInt64} (h : low < high) (r : Rng) :
    WP allowed r (Draw.range low high) fun x _ => low ≤ x ∧ x < high := by
  rcases run_range h r with ⟨n, x, -, hx, hrun⟩ | ⟨hnone, r', hrun⟩
  · exact of_run_ok hrun (r.leads_iterate _) (deal?_bounds h hx)
  · exact of_run_error hrun (.inr ⟨rfl, r, .refl r, low, high, h, hnone⟩)

/-! ## Inclusive ranges -/

theorem toNat_add_one {high : UInt64} (h : high.toNat + 1 < 2 ^ 64) :
    (high + 1).toNat = high.toNat + 1 := by
  rw [UInt64.toNat_add, UInt64.toNat_one, Nat.mod_eq_of_lt h]

theorem lt_add_one_iff {x high : UInt64} (h : high.toNat + 1 < 2 ^ 64) : x < high + 1 ↔ x ≤ high := by
  rw [UInt64.lt_iff_toNat_lt, toNat_add_one h, UInt64.le_iff_toNat_le, Nat.lt_succ_iff]

/-- An inclusive range that ends below the greatest word is the range up to the word after its end. -/
theorem inclusiveRange_eq_range {low high : UInt64} (h : low ≤ high)
    (hhigh : high.toNat + 1 < 2 ^ 64) : inclusiveRange low high = range low (high + 1) := by
  have hadd : ((high + 1).toNat : Int) = high.toNat + 1 := by exact_mod_cast toNat_add_one hhigh
  have htop : (Checked.add high 1 : Except Failure UInt64) = .ok (high + 1) :=
    Checked.add_eq_ok_iff.2 hadd
  rw [inclusiveRange, if_pos h, htop]
  rfl

/-- The bounds of an inclusive range that ends below the greatest word. -/
theorem WP.inclusiveRange {low high : UInt64} (h : low ≤ high) (hhigh : high.toNat + 1 < 2 ^ 64)
    (r : Rng) : WP allowed r (Draw.inclusiveRange low high) fun x _ => low ≤ x ∧ x ≤ high := by
  rw [inclusiveRange_eq_range h hhigh]
  refine mono (range ((lt_add_one_iff hhigh).2 h) r) fun x _ _ hx => ?_
  exact ⟨hx.1, (lt_add_one_iff hhigh).1 hx.2⟩

end Chorale.Draw
