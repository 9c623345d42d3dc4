import Chorale.Proofs.Archive.RoundTrip
import Chorale.Proofs.Draw.Stuck

/-!
# Which draws end

The state of zeros can be read from a text, as any other state can. A draw from a range that is then
made in it never ends, unless there is a power of two of numbers; from all other states it ends
(`range_ends_iff`, `range_zeros_endless`).
-/

namespace Chorale.Draw

variable {low high : UInt64}

/-- Any state is read from its text. A draw that is then made from a range meets a word that is not
left over, and gives a number, if the state is not that of zeros or there is a power of two of
numbers, and in no other case. -/
theorem range_ends_iff (h : low < high) (r : Rng) :
    (Json.read r.toJson.write).bind Rng.ofJson? = some r ∧
      ((∃ n, leftover (high - low) ≤ (Rng.advance^[n] r).output) ↔
        r ≠ ⟨0, 0, 0, 0⟩ ∨ isPowerOfTwo (high - low).toNat) ∧
      ((∃ x r', (range low high).run r = (.ok x, r')) ↔
        r ≠ ⟨0, 0, 0, 0⟩ ∨ isPowerOfTwo (high - low).toNat) :=
  ⟨Json.restore Rng.ofJson?_toJson r, exists_leftover_le_iff h r,
    (exists_run_range_iff h r).trans (exists_leftover_le_iff h r)⟩

/-- A state with a single bit, and the range from which the most words are left over: nearly half. -/
theorem range_ends_iff_one_bit :
    (0 : UInt64) < 0x8000000000000001 ∧
      ∃ x r', (range 0 0x8000000000000001).run ⟨1, 0, 0, 0⟩ = (.ok x, r') := by
  have hlt : (0 : UInt64) < 0x8000000000000001 := by decide
  exact ⟨hlt, (range_ends_iff hlt ⟨1, 0, 0, 0⟩).2.2.2 (.inl (by decide))⟩

/-- The state of zeros is read from a text. All words of its stream are left over from a range of
three numbers, so that a draw from it never ends. -/
theorem range_zeros_endless :
    (Json.read "\x7b\"s\":[0,0,0,0]\x7d".toList).bind Rng.ofJson? = some ⟨0, 0, 0, 0⟩ ∧
      (0 : UInt64) < 3 ∧
      (∀ n, (Rng.advance^[n] ⟨0, 0, 0, 0⟩).output < leftover (3 - 0)) ∧
      ∃ r', (range 0 3).run ⟨0, 0, 0, 0⟩ = (.error .endlessRejection, r') := by
  have hlt : (0 : UInt64) < 3 := by decide
  have hleft (n : Nat) : (Rng.advance^[n] ⟨0, 0, 0, 0⟩).output < leftover (3 - 0) := by
    rw [Rng.iterate_advance_zero]
    decide
  refine ⟨by decide +kernel, hlt, hleft, ?_⟩
  rcases run_range hlt ⟨0, 0, 0, 0⟩ with ⟨n, x, -, hx, -⟩ | ⟨-, hrun⟩
  · cases hx.symm.trans (deal?_eq_none_iff.2 (hleft n))
  · exact hrun

end Chorale.Draw
