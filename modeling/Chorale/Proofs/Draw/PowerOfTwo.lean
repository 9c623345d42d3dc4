import Chorale.Proofs.Draw.Range

/-!
# Ranges of a power of two of numbers

A range of a power of two of numbers is drawn from by the low bits of one word. It could as well be
drawn from as all others are, by the remainder of a word that is not left over
(`rangeByRemainder`): then no word is left over and the low bits of a word are its remainder, so that
both draws give the same number and leave the generator one word later (`range_powerOfTwo`).
-/

namespace Chorale.Draw

/-- The number in `low ≤ x < high` that the remainder of a word tells, unless the word is left over,
whatever the width of the range is. -/
def dealByRemainder? (low high w : UInt64) : Option UInt64 :=
  if leftover (high - low) ≤ w then some (low + w % (high - low)) else none

/-- A number in `low ≤ x < high`, drawn by the remainders of words. -/
def rangeByRemainder (low high : UInt64) : Draw UInt64 :=
  if low < high then firstDealt (dealByRemainder? low high) Rng.stateCount
  else throw .emptyRange

/-- If the first word of the stream is dealt to a number, a draw takes no other. -/
theorem run_firstDealt_stateCount {α : Type} {deal? : UInt64 → Option α} {r : Rng} {a : α}
    (h : deal? r.output = some a) :
    (firstDealt deal? Rng.stateCount).run r = (.ok a, r.advance) := by
  obtain ⟨limit, hlimit⟩ : ∃ limit, Rng.stateCount = limit + 1 :=
    Nat.exists_eq_succ_of_ne_zero (by decide)
  rw [hlimit]
  exact run_firstDealt_of_some h limit

/-- In a range of `2 ^ k` numbers no word is left over: any word is dealt to the number that its
remainder, which is its low bits, is away from the low end, with no sum that overflows. So the first
word of the stream decides the draw, made by its remainder or by its low bits. -/
theorem range_powerOfTwo {low high : UInt64} {k : Nat} (h : high.toNat - low.toNat = 2 ^ k) :
    leftover (high - low) = 0 ∧
      (∀ w, dealByRemainder? low high w = some (low + w % (high - low)) ∧
        low + w % (high - low) = low + (w &&& (high - low - 1)) ∧
        (low + w % (high - low)).toNat = low.toNat + w.toNat % 2 ^ k) ∧
      ∀ r, (rangeByRemainder low high).run r = (.ok (low + r.output % (high - low)), r.advance) ∧
        (range low high).run r = (rangeByRemainder low high).run r := by
  have hpos : 0 < 2 ^ k := Nat.two_pow_pos k
  have hhigh := high.toNat_lt
  have hlt : low < high := UInt64.lt_iff_toNat_lt.2 (by omega)
  have hwidth : (high - low).toNat = 2 ^ k :=
    (UInt64.toNat_sub_of_le _ _ (UInt64.le_of_lt hlt)).trans h
  have hpow : isPowerOfTwo (high - low).toNat := isPowerOfTwo_iff.2 ⟨k, hwidth⟩
  have hnone : leftover (high - low) = 0 := leftover_eq_zero hpow
  have hdeal (w : UInt64) : dealByRemainder? low high w = some (low + w % (high - low)) := by
    rw [dealByRemainder?, hnone]
    exact if_pos UInt64.zero_le
  refine ⟨hnone, fun w => ⟨hdeal w, ?_, ?_⟩, fun r => ?_⟩
  · rw [and_sub_one_eq_mod hpow]
  · have hmod := Nat.mod_lt w.toNat hpos
    rw [UInt64.toNat_add, UInt64.toNat_mod, hwidth, Nat.mod_eq_of_lt (by omega)]
  · have hremainder : (rangeByRemainder low high).run r =
        (.ok (low + r.output % (high - low)), r.advance) := by
      rw [rangeByRemainder, if_pos hlt]
      exact run_firstDealt_stateCount (hdeal _)
    have hmask : deal? low high r.output = some (low + (r.output &&& (high - low - 1))) :=
      if_pos hpow
    refine ⟨hremainder, ?_⟩
    rw [hremainder, range, if_pos hlt, run_firstDealt_stateCount hmask, and_sub_one_eq_mod hpow]

/-- A range of one number, and a range of half as many numbers as there are words. -/
theorem range_powerOfTwo_ends :
    (6 : UInt64).toNat - (5 : UInt64).toNat = 2 ^ 0 ∧
      (range 5 6).run (.ofSeed 1) = (.ok 5, (Rng.ofSeed 1).advance) ∧
      (0xffffffffffffffff : UInt64).toNat - (0x7fffffffffffffff : UInt64).toNat = 2 ^ 63 ∧
      (range 0x7fffffffffffffff 0xffffffffffffffff).run (.ofSeed 1) =
        (.ok 0xcfc5d07f6f03c29a, (Rng.ofSeed 1).advance) := by
  have hone : (6 : UInt64).toNat - (5 : UInt64).toNat = 2 ^ 0 := by decide
  have hhalf : (0xffffffffffffffff : UInt64).toNat - (0x7fffffffffffffff : UInt64).toNat =
      2 ^ 63 := by decide
  obtain ⟨hremainder, hrun⟩ := (range_powerOfTwo hone).2.2 (.ofSeed 1)
  obtain ⟨hremainder', hrun'⟩ := (range_powerOfTwo hhalf).2.2 (.ofSeed 1)
  have hfive : 5 + (Rng.ofSeed 1).output % (6 - 5) = 5 := by decide
  have hvalue : 0x7fffffffffffffff +
      (Rng.ofSeed 1).output % (0xffffffffffffffff - 0x7fffffffffffffff) = 0xcfc5d07f6f03c29a := by
    decide
  exact ⟨hone, by rw [hrun, hremainder, hfive], hhalf, by rw [hrun', hremainder', hvalue]⟩

end Chorale.Draw
