import Chorale.Proofs.Draw.Range
import Chorale.Proofs.Rng.Period

/-!
# Which draws get stuck

A draw from a range goes on as long as its words are left over. Every stream but that of zeros has
every word, the greatest among them, which is never left over; and if there is a power of two of
numbers, no word is left over. The stream of zeros has only zeros, and from any other range these
are left over for ever (`exists_leftover_le_iff`). So the state of zeros is the only one that gets
stuck (`Rng.stuck_iff`): from every other state a draw fails only as it may (`WP.allowed_of_error`),
and gives a value if it may not fail (`WP.exists_run_eq_ok`). No seed's stream is that of zeros
(`Rng.not_stuck_ofSeed`).
-/

namespace Chorale

namespace Rng

theorem output_iterate_zeros (n : Nat) : (advance^[n] zeros).output = 0 := by
  rw [zeros, iterate_advance_zero]
  decide

end Rng

namespace Draw

/-- Words are left over unless there is a power of two of numbers. -/
theorem leftover_eq_zero_iff {width : UInt64} (h : 0 < width.toNat) :
    leftover width = 0 ↔ isPowerOfTwo width.toNat := by
  refine ⟨fun hzero => ?_, leftover_eq_zero⟩
  have hmod := congrArg UInt64.toNat hzero
  rw [toNat_leftover h, UInt64.toNat_zero] at hmod
  obtain ⟨k, -, hk⟩ := (Nat.dvd_prime_pow Nat.prime_two).1 (Nat.dvd_of_mod_eq_zero hmod)
  exact isPowerOfTwo_iff.2 ⟨k, hk⟩

theorem toNat_width_pos {low high : UInt64} (h : low < high) : 0 < (high - low).toNat := by
  have hlt := UInt64.lt_iff_toNat_lt.1 h
  rw [UInt64.toNat_sub_of_le _ _ (UInt64.le_of_lt h)]
  omega

variable {low high : UInt64}

/-- A word that is not left over comes sooner or later, except in the stream of zeros. -/
theorem exists_leftover_le_iff (h : low < high) (r : Rng) :
    (∃ n, leftover (high - low) ≤ (Rng.advance^[n] r).output) ↔
      r ≠ Rng.zeros ∨ isPowerOfTwo (high - low).toNat := by
  constructor
  · intro hexists
    obtain ⟨n, hn⟩ := hexists
    by_cases hr : r = Rng.zeros
    · right
      rw [hr, Rng.output_iterate_zeros, UInt64.le_zero_iff] at hn
      exact (leftover_eq_zero_iff (toNat_width_pos h)).1 hn
    · exact .inl hr
  · rintro (hr | hpow)
    · obtain ⟨n, hn⟩ := Rng.exists_output_eq hr 0xffffffffffffffff
      refine ⟨n, ?_⟩
      have hlt := (leftover (high - low)).toNat_lt
      rw [hn, UInt64.le_iff_toNat_le]
      exact Nat.le_of_lt_succ hlt
    · exact ⟨0, leftover_eq_zero hpow ▸ UInt64.zero_le⟩

theorem deal?_eq_none_iff {w : UInt64} : deal? low high w = none ↔ w < leftover (high - low) := by
  rw [deal?_eq, ← UInt64.not_le]
  split
  · rename_i hle
    simp [hle]
  · rename_i hle
    simp [hle]

/-- A draw from a range gives a number if some word of its stream is not left over. -/
theorem exists_run_range_iff (h : low < high) (r : Rng) :
    (∃ x r', (range low high).run r = (.ok x, r')) ↔
      ∃ n, leftover (high - low) ≤ (Rng.advance^[n] r).output := by
  rcases run_range h r with ⟨n, x, -, hx, hrun⟩ | ⟨hnone, r', hrun⟩
  · have hle : leftover (high - low) ≤ (Rng.advance^[n] r).output := by
      rw [← UInt64.not_lt, ← deal?_eq_none_iff, hx]
      simp
    exact ⟨fun _ => ⟨n, hle⟩, fun _ => ⟨x, _, hrun⟩⟩
  · constructor
    · intro hexists
      obtain ⟨x, r'', hok⟩ := hexists
      cases hrun.symm.trans hok
    · intro hexists
      obtain ⟨n, hn⟩ := hexists
      exact absurd (deal?_eq_none_iff.1 (hnone n)) (UInt64.not_lt.2 hn)

end Draw

namespace Rng

/-- Only in the stream of zeros does a draw from a range never end. -/
theorem stuck_iff (r : Rng) : r.Stuck ↔ r = zeros := by
  constructor
  · intro hstuck
    obtain ⟨_, ⟨m, rfl⟩, low, high, hlt, hnone⟩ := hstuck
    by_contra hr
    obtain ⟨n, hn⟩ := (Draw.exists_leftover_le_iff hlt _).2 (.inl (iterate_advance_ne_zeros hr m))
    exact absurd (Draw.deal?_eq_none_iff.1 (hnone n)) (UInt64.not_lt.2 hn)
  · intro hr
    refine ⟨r, .refl r, 0, 3, by decide, fun n => ?_⟩
    rw [Draw.deal?_eq_none_iff, hr, output_iterate_zeros]
    decide

theorem not_stuck_ofSeed (seed : UInt64) : ¬(ofSeed seed).Stuck := by
  rw [stuck_iff]
  exact ofSeed_ne_zero seed

end Rng

namespace Draw.WP

variable {α : Type} {allowed : Failure → Prop} {r : Rng} {x : Draw α} {post : α → Rng → Prop}

/-- Only in the state of zeros may a draw never end. -/
theorem allowed_of_error (h : WP allowed r x post) (hr : r ≠ Rng.zeros) {e : Failure} {r' : Rng}
    (hrun : x.run r = (.error e, r')) : allowed e := by
  rcases h.of_error hrun with hallowed | ⟨-, hstuck⟩
  · exact hallowed
  · exact absurd (r.stuck_iff.1 hstuck) hr

/-- What does not fail in another way gives a value. -/
theorem exists_run_eq_ok (h : WP allowed r x post) (hallowed : ∀ e, ¬ allowed e)
    (hr : r ≠ Rng.zeros) : ∃ a r', x.run r = (.ok a, r') := by
  rcases hrun : x.run r with ⟨e | a, r'⟩
  · exact absurd (h.allowed_of_error hr hrun) (hallowed e)
  · exact ⟨a, r', rfl⟩

end Draw.WP

end Chorale
