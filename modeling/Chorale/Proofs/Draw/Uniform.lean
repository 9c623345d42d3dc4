import Chorale.Proofs.Draw.Range
import Mathlib.Data.Nat.Count
import Mathlib.Data.Nat.Periodic
import Mathlib.SetTheory.Cardinal.Finite

/-!
# Draws are unbiased

Behind the words that are left over the remainders go round a whole number of times
(`count_mod_from`). So the numbers of any interval in a range are dealt the same number of words each
(`card_deal?_interval`), and a draw prefers none of them (`range_unbiased`).
-/

namespace Chorale.Draw

/-! ## Counting words -/

/-- A word is a number below `2 ^ 64`. -/
def wordEquiv (p : Nat → Prop) : {w : UInt64 // p w.toNat} ≃ {k : Nat // k < 2 ^ 64 ∧ p k} where
  toFun w := ⟨w.val.toNat, w.val.toNat_lt, w.property⟩
  invFun k := ⟨UInt64.ofNatLT k.val k.property.1, k.property.2⟩
  left_inv _ := rfl
  right_inv _ := rfl

theorem card_word (p : Nat → Prop) [DecidablePred p] :
    Nat.card {w : UInt64 // p w.toNat} = Nat.count p (2 ^ 64) := by
  let _ := Nat.CountSet.fintype p (2 ^ 64)
  rw [Nat.card_congr (wordEquiv p), Nat.card_eq_fintype_card, Nat.count_eq_card_fintype]

theorem card_word_congr {p q : UInt64 → Prop} (h : ∀ w, p w ↔ q w) :
    Nat.card {w : UInt64 // p w} = Nat.card {w : UInt64 // q w} :=
  Nat.card_congr (Equiv.subtypeEquivRight h)

theorem count_interval {a b n : Nat} (h : b ≤ n) :
    Nat.count (fun k => a ≤ k ∧ k < b) n = b - a := by
  rw [Nat.count_eq_card_filter_range, ← Nat.card_Ico]
  congr 1
  ext k
  simp only [Finset.mem_filter, Finset.mem_range, Finset.mem_Ico]
  omega

/-- In `q` rounds through the remainders there are `q` times as many of a kind as in one. -/
theorem count_mod_mul (p : Nat → Prop) [DecidablePred p] (n q : Nat) :
    Nat.count (fun k => p (k % n)) (q * n) = q * Nat.count p n := by
  induction q with
  | zero => simp
  | succ q ih =>
    have hround : Nat.count (fun k => p ((q * n + k) % n)) n = Nat.count p n := by
      simp only [Nat.count_eq_card_filter_range]
      congr 1
      apply Finset.filter_congr
      intro k hk
      rw [Nat.mul_add_mod_self_right, Nat.mod_eq_of_lt (Finset.mem_range.1 hk)]
    rw [Nat.succ_mul, Nat.count_add, ih, hround, Nat.succ_mul]

/-- Without the first `size % n` numbers, those below `size` are `size / n` rounds through the
remainders. -/
theorem count_mod_from (p : Nat → Prop) [DecidablePred p] (size n : Nat) :
    Nat.count (fun k => size % n ≤ k ∧ p (k % n)) size = size / n * Nat.count p n := by
  have hround : Function.Periodic (fun k => p (k % n)) (size / n * n) := by
    intro k
    show p ((k + size / n * n) % n) = p (k % n)
    rw [Nat.add_mul_mod_self_right]
  have hsize : size % n + size / n * n = size := Nat.mod_add_div' ..
  rw [← count_mod_mul, ← Nat.filter_Ico_card_eq_of_periodic (size % n) _ _ hround, hsize,
    Nat.count_eq_card_filter_range]
  congr 1
  ext k
  simp only [Finset.mem_filter, Finset.mem_range, Finset.mem_Ico]
  tauto

/-! ## The words of a range -/

variable {low high : UInt64}

/-- The numbers of an interval in the range are dealt `2 ^ 64 / width` words each. -/
theorem card_deal?_interval (h : low < high) {a b : Nat} (ha : low.toNat ≤ a)
    (hb : b ≤ high.toNat) :
    Nat.card {w : UInt64 // ∃ x, deal? low high w = some x ∧ a ≤ x.toNat ∧ x.toNat < b} =
      (b - a) * (2 ^ 64 / (high.toNat - low.toNat)) := by
  obtain ⟨n, hn⟩ : ∃ n, high.toNat - low.toNat = n := ⟨_, rfl⟩
  have hdealt (w : UInt64) : (∃ x, deal? low high w = some x ∧ a ≤ x.toNat ∧ x.toNat < b) ↔
      2 ^ 64 % n ≤ w.toNat ∧ a - low.toNat ≤ w.toNat % n ∧ w.toNat % n < b - low.toNat := by
    have hlt := UInt64.lt_iff_toNat_lt.1 h
    have hhigh := high.toNat_lt
    have hmod := Nat.mod_lt w.toNat (show n > 0 by omega)
    simp only [deal?_eq_some_iff h, hn]
    constructor
    · rintro ⟨x, ⟨hle, hx⟩, hlow, hhigh⟩
      exact ⟨hle, by omega, by omega⟩
    · rintro ⟨hle, hlow, hhigh⟩
      obtain ⟨x, hx⟩ := Checked.unsigned64.exists_size_eq (low.toNat + w.toNat % n) (by omega)
      exact ⟨x, ⟨hle, hx⟩, by omega, by omega⟩
  have hwidth : b - low.toNat - (a - low.toNat) = b - a := by omega
  rw [card_word_congr hdealt,
    card_word fun k => 2 ^ 64 % n ≤ k ∧ a - low.toNat ≤ k % n ∧ k % n < b - low.toNat,
    count_mod_from fun k => a - low.toNat ≤ k ∧ k < b - low.toNat, count_interval (by omega), hn,
    hwidth, Nat.mul_comm]

/-- Less is left over than is dealt, as the numbers of a range are dealt at least one word each. -/
theorem half_lt_mul_div {n size : Nat} (hpos : 0 < n) (hle : n ≤ size) :
    size < 2 * (n * (size / n)) := by
  have hmod := Nat.mod_lt size hpos
  have hdiv := Nat.div_add_mod size n
  have hone : n * 1 ≤ n * (size / n) := Nat.mul_le_mul_left n ((Nat.one_le_div_iff hpos).2 hle)
  omega

theorem card_deal? (h : low < high) :
    Nat.card {w : UInt64 // ∃ x, deal? low high w = some x} =
      (high.toNat - low.toNat) * (2 ^ 64 / (high.toNat - low.toNat)) := by
  rw [← card_deal?_interval h (Nat.le_refl _) (Nat.le_refl _)]
  apply card_word_congr
  intro w
  constructor
  · rintro ⟨x, hx⟩
    have hbounds := deal?_bounds h hx
    exact ⟨x, hx, UInt64.le_iff_toNat_le.1 hbounds.1, UInt64.lt_iff_toNat_lt.1 hbounds.2⟩
  · rintro ⟨x, hx, -, -⟩
    exact ⟨x, hx⟩

theorem card_deal?_eq_some (h : low < high) {v : UInt64} (hlow : low ≤ v) (hhigh : v < high) :
    Nat.card {w : UInt64 // deal? low high w = some v} = 2 ^ 64 / (high.toNat - low.toNat) := by
  have hlt := UInt64.lt_iff_toNat_lt.1 hhigh
  rw [← Nat.one_mul (2 ^ 64 / _), ← Nat.add_sub_cancel_left v.toNat 1,
    ← card_deal?_interval h (UInt64.le_iff_toNat_le.1 hlow) (Nat.succ_le_of_lt hlt)]
  apply card_word_congr
  intro w
  constructor
  · intro hw
    exact ⟨v, hw, Nat.le_refl _, Nat.lt_succ_self _⟩
  · rintro ⟨x, hx, hle, hlt⟩
    have hxv : x = v := UInt64.toNat_inj.1 (by omega)
    rw [hx, hxv]

/-- A draw takes words until one is not left over, and gives what that is dealt to: the number of the
range that its remainder says, with no sum that overflows. More than half of all words are not left
over, and each number of the range is dealt as many of them as any other. -/
theorem range_unbiased (h : low < high) :
    (∀ (r r' : Rng) (x : UInt64), (range low high).run r = (.ok x, r') ↔
      ∃ n, (∀ m < n, deal? low high (Rng.advance^[m] r).output = none) ∧
        deal? low high (Rng.advance^[n] r).output = some x ∧ r' = Rng.advance^[n + 1] r) ∧
    (∀ w x, deal? low high w = some x →
      x.toNat = low.toNat + w.toNat % (high.toNat - low.toNat) ∧ low ≤ x ∧ x < high) ∧
    Nat.card {w : UInt64 // ∃ x, deal? low high w = some x} =
      (high.toNat - low.toNat) * (2 ^ 64 / (high.toNat - low.toNat)) ∧
    2 ^ 64 < 2 * Nat.card {w : UInt64 // ∃ x, deal? low high w = some x} ∧
    ∀ v, low ≤ v → v < high →
      Nat.card {w : UInt64 // deal? low high w = some v} = 2 ^ 64 / (high.toNat - low.toNat) := by
  have hlt := UInt64.lt_iff_toNat_lt.1 h
  have hhigh := high.toNat_lt
  refine ⟨fun r r' x => run_range_eq_ok_iff h, fun w x hx => ?_, card_deal? h, ?_,
    fun v => card_deal?_eq_some h⟩
  · exact ⟨((deal?_eq_some_iff h).1 hx).2, deal?_bounds h hx⟩
  · rw [card_deal? h]
    exact half_lt_mul_div (by omega) (by omega)

/-- A range of seven numbers, for which two words are left over, and the widest range, for which one
word is. -/
theorem range_unbiased_seven :
    ((3 : UInt64) < 10 ∧ (3 : UInt64) ≤ 9 ∧ (9 : UInt64) < 10 ∧
      Nat.card {w : UInt64 // ∃ x, deal? 3 10 w = some x} = 2 ^ 64 - 2 ∧
      Nat.card {w : UInt64 // deal? 3 10 w = some 9} = 2635249153387078802) ∧
    (0 : UInt64) < 0xffffffffffffffff ∧
      Nat.card {w : UInt64 // ∃ x, deal? 0 0xffffffffffffffff w = some x} = 2 ^ 64 - 1 := by
  have hseven : (3 : UInt64) < 10 := by decide
  have hwidest : (0 : UInt64) < 0xffffffffffffffff := by decide
  obtain ⟨-, -, hcard, -, heach⟩ := range_unbiased hseven
  obtain ⟨-, -, hcard', -⟩ := range_unbiased hwidest
  exact ⟨⟨hseven, by decide, by decide, hcard, heach 9 (by decide) (by decide)⟩, hwidest, hcard'⟩

end Chorale.Draw
