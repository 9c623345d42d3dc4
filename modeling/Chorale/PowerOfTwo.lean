/-!
# Powers of two

`isPowerOfTwo n` decides whether `n` is a power of two (`isPowerOfTwo_iff`). Such a number can be
halved exactly down to one, and it splits the words of any larger width evenly.
-/

namespace Chorale

/-- Whether `n` is a power of two: then the power that its highest bit stands for. -/
def isPowerOfTwo (n : Nat) : Bool := 1 <<< n.log2 == n

theorem isPowerOfTwo_iff {n : Nat} : isPowerOfTwo n = true ↔ n.isPowerOfTwo := by
  rw [isPowerOfTwo, beq_iff_eq, Nat.one_shiftLeft]
  refine ⟨fun h => ⟨_, h.symm⟩, ?_⟩
  rintro ⟨k, rfl⟩
  rw [Nat.log2_two_pow]

end Chorale
