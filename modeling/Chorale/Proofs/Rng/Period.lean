import Chorale.Proofs.Rng.Factors
import Chorale.Proofs.Rng.Overlay

/-!
# The period of the generator

One pattern chooses nothing among the first states of the stream of `unit` (`overlay_modulus`), so
that multiples of it can be laid over any pattern (`overlay_reduce`). By squaring and reducing, a
short pattern is found that chooses the state any number of steps down the stream (`power?`). So it
is computed that the stream of `unit` comes back to it after `2 ^ 256 - 1` steps and after no part
of these (`minimalPeriod_unit`): it goes through all states but the state of zeros
(`exists_iterate_unit`), and so does every other stream (`leads_of_ne_zeros`).
-/

namespace Chorale

namespace Rng

/-! ## Reduction -/

/-- The pattern that has the bits of a number in its slots. -/
def spread : Nat → Nat → Nat
  | 0, _ => 0
  | width + 1, bits => bits % 2 + slot * spread width (bits / 2)

theorem fills_spread (width bits : Nat) : Fills 1 width (spread width bits) := by
  induction width generalizing bits with
  | zero => rfl
  | succ width ih =>
    have hbit : bits % 2 < 2 := Nat.mod_lt _ (by decide)
    refine ⟨?_, ?_⟩
    · rw [spread, Nat.add_mul_mod_self_left]
      exact Nat.le_trans (Nat.mod_le _ _) (Nat.le_of_lt_succ hbit)
    · rw [spread, Nat.add_mul_div_left _ _ (by decide), Nat.div_eq_of_lt (by unfold slot; omega),
        Nat.zero_add]
      exact ih _

/-- A state with a single bit. -/
def unit : Rng := ⟨1, 0, 0, 0⟩

/-- The pattern that chooses nothing from the stream of `unit`. -/
def modulus : Nat :=
  spread 257 0x10003c03c3f3ecb1904b4edcf26259f850280002bcefd1a5e9d116f2bb0f0f001

/-- The high slots of `X ^ 512`, divided by the modulus. -/
def modulusInverse : Nat :=
  spread 257 0x10003c0396f32c298132b61f2778b69e1aa1297eadd5e76b793a906d956fbc489

theorem overlay_modulus : overlay 257 modulus unit = zeros := by decide +kernel

/-- The multiple of the modulus that the high slots of a pattern call for. Nothing depends on its
being the right one, but that few slots are left. -/
def multiple (pattern : Nat) : Nat :=
  pattern / slot ^ 256 * modulusInverse / slot ^ 256 &&& ones 256

/-- A pattern of bits with a multiple of the modulus laid over it. -/
def reduce (pattern : Nat) : Nat := pattern ^^^ (multiple pattern * modulus &&& ones 513)

theorem fills_reduce {p : Nat} (hp : Fills 1 513 p) : Fills 1 513 (reduce p) :=
  hp.xor (fills_and_ones _ _)

/-- What is laid over the pattern chooses nothing. -/
theorem overlay_reduce (p : Nat) : overlay 513 (reduce p) unit = overlay 513 p unit := by
  have hmultiple : Fills 1 256 (multiple p) := fills_and_ones _ _
  have hmodulus : Fills 1 257 modulus := fills_spread _ _
  have hnone : overlay 513 (multiple p * modulus) unit = zeros := by
    rw [overlay_mul hmultiple hmodulus (by decide), overlay_modulus, overlay_zeros]
  rw [reduce, overlay_xor, overlay_and_ones, hnone, xor_zeros]

/-! ## Powers -/

/-- The product of a pattern of bits with itself. -/
def square (pattern : Nat) : Nat := pattern * pattern &&& ones 512

theorem overlay_square {p : Nat} (hp : Fills 1 256 p) (r : Rng) :
    overlay 512 (square p) r = overlay 256 p (overlay 256 p r) := by
  rw [square, overlay_and_ones]
  exact overlay_mul hp hp (by decide) r

/-- The pattern for `steps` steps, made from one for half as many. -/
def double (steps half : Nat) : Nat := if steps % 2 = 1 then slot * square half else square half

/-- A pattern of 256 bits that chooses the state `steps` steps down the stream of `unit`, if one
is found. -/
def power? : Nat → Nat → Option Nat
  | 0, steps => if steps = 0 then some 1 else none
  | bits + 1, steps => do
    let half ← power? bits (steps / 2)
    let next := reduce (double steps half)
    if next < slot ^ 256 then some next else none

/-- Twice half as many steps are one step less if they are odd. -/
theorem overlay_double {p steps : Nat} (hp : Fills 1 256 p)
    (h : overlay 256 p unit = advance^[steps / 2] unit) :
    Fills 1 513 (double steps p) ∧ overlay 513 (double steps p) unit = advance^[steps] unit := by
  have hfills : Fills 1 512 (square p) := fills_and_ones _ _
  have hsquare : overlay 512 (square p) unit = advance^[steps / 2 + steps / 2] unit := by
    rw [overlay_square hp, h, ← iterate_advance_overlay, h, Function.iterate_add_apply]
  unfold double
  by_cases hodd : steps % 2 = 1
  · have hsteps : steps = steps / 2 + steps / 2 + 1 := by omega
    simp only [if_pos hodd]
    refine ⟨hfills.slot_mul, ?_⟩
    rw [overlay_slot_mul, ← advance_overlay, hsquare, ← Function.iterate_succ_apply' advance]
    exact congrArg (advance^[·] unit) hsteps.symm
  · have hsteps : steps = steps / 2 + steps / 2 := by omega
    simp only [if_neg hodd]
    refine ⟨hfills.widen (by decide), ?_⟩
    rw [overlay_of_fills hfills (by decide), hsquare, ← hsteps]

theorem power?_eq_some {bits steps p : Nat} (h : power? bits steps = some p) :
    Fills 1 256 p ∧ overlay 256 p unit = advance^[steps] unit := by
  induction bits generalizing steps p with
  | zero =>
    rw [power?] at h
    split at h
    · rename_i hsteps
      cases h
      rw [hsteps]
      exact ⟨⟨by decide, Fills.zero 255⟩, by decide +kernel⟩
    · cases h
  | succ bits ih =>
    rw [power?] at h
    obtain ⟨half, hhalf, h⟩ := Option.bind_eq_some_iff.1 h
    obtain ⟨hfills, hhalf⟩ := ih hhalf
    obtain ⟨hdouble, hsteps⟩ := overlay_double hfills hhalf
    have hreduce := overlay_reduce (double steps half)
    have hfills := fills_reduce hdouble
    generalize reduce (double steps half) = next at *
    dsimp only at h
    split at h
    · rename_i hlt
      cases h
      have hp : Fills 1 256 p := hfills.narrow (by decide) hlt
      refine ⟨hp, ?_⟩
      rw [← hsteps, ← hreduce]
      exact (overlay_of_fills hp (by decide) unit).symm
    · cases h

/-! ## The period -/

theorem power?_fullPeriod : power? 256 fullPeriod = some 1 := by decide +kernel

theorem power?_part :
    ∀ p ∈ fullPeriodFactors, (power? 256 (fullPeriod / p)).any (overlay 256 · unit ≠ unit) := by
  decide +kernel

theorem minimalPeriod_unit : Function.minimalPeriod advance unit = fullPeriod := by
  apply minimalPeriod_eq_of_factors prime_of_mem_fullPeriodFactors
  · rw [prod_fullPeriodFactors]
  · rw [← (power?_eq_some power?_fullPeriod).2]
    decide +kernel
  · intro p hp
    have hpart := power?_part p hp
    cases hpattern : power? 256 (fullPeriod / p) with
    | none =>
      rw [hpattern] at hpart
      cases hpart
    | some pattern =>
      rw [hpattern] at hpart
      rw [← (power?_eq_some hpattern).2]
      exact of_decide_eq_true hpart

/-! ## All states but one -/

theorem ncard_ne_zeros : {r : Rng | r ≠ zeros}.ncard = fullPeriod := by
  have hcompl := Set.ncard_compl {zeros}
  rwa [card_eq, Set.ncard_singleton] at hcompl

theorem iterate_advance_ne_zeros {r : Rng} (h : r ≠ zeros) (n : Nat) : advance^[n] r ≠ zeros := by
  have hne := (advance_injective.iterate n).ne h
  rwa [zeros, iterate_advance_zero] at hne

/-- The stream of `unit` goes through all states but the state of zeros. -/
theorem exists_iterate_unit {r : Rng} (h : r ≠ zeros) : ∃ n, advance^[n] unit = r := by
  have hinj : Set.InjOn (advance^[·] unit) (Set.Iio fullPeriod) := by
    rw [← minimalPeriod_unit]
    exact Function.iterate_injOn_Iio_minimalPeriod
  have hcard : ((advance^[·] unit) '' Set.Iio fullPeriod).ncard = fullPeriod := by
    rw [hinj.ncard_image, ← Finset.coe_range, Set.ncard_coe_finset, Finset.card_range]
  have hsubset : (advance^[·] unit) '' Set.Iio fullPeriod ⊆ {r : Rng | r ≠ zeros} := by
    intro r' hr'
    obtain ⟨n, -, rfl⟩ := hr'
    exact iterate_advance_ne_zeros (by decide) n
  have heq : (advance^[·] unit) '' Set.Iio fullPeriod = {r : Rng | r ≠ zeros} := by
    apply Set.eq_of_subset_of_ncard_le hsubset
    rw [hcard, ncard_ne_zeros]
  have hmem : r ∈ (advance^[·] unit) '' Set.Iio fullPeriod := heq ▸ h
  obtain ⟨n, -, hn⟩ := hmem
  exact ⟨n, hn⟩

/-- A stream that does not begin in the state of zeros goes through all other states. -/
theorem leads_of_ne_zeros {r r' : Rng} (h : r ≠ zeros) (h' : r' ≠ zeros) : r.Leads r' := by
  obtain ⟨m, rfl⟩ := exists_iterate_unit h
  obtain ⟨n, rfl⟩ := exists_iterate_unit h'
  have hperiod : Function.IsPeriodicPt advance fullPeriod unit := by
    rw [← minimalPeriod_unit]
    exact Function.isPeriodicPt_minimalPeriod _ _
  have hpos : 0 < fullPeriod := by decide
  have hle : m ≤ m * fullPeriod := Nat.le_mul_of_pos_right m hpos
  -- After the rest of `m` rounds the stream is at `unit` again.
  refine ⟨n + (m * fullPeriod - m), ?_⟩
  rw [← Function.iterate_add_apply, Nat.add_assoc, Nat.sub_add_cancel hle,
    Function.iterate_add_apply, hperiod.const_mul m]

/-- Every word stands in every stream but that of zeros. -/
theorem exists_output_eq {r : Rng} (h : r ≠ zeros) (w : UInt64) :
    ∃ n, (advance^[n] r).output = w := by
  -- The outer words of a state make its word, the others keep it from being the state of zeros.
  have hne : (⟨w, 1, 0, 0 - w⟩ : Rng) ≠ zeros := by
    intro heq
    have hsecond : (1 : UInt64) = 0 := congrArg Rng.s1 heq
    exact absurd hsecond (by decide)
  obtain ⟨n, hn⟩ := leads_of_ne_zeros h hne
  refine ⟨n, ?_⟩
  have hsum : w + (0 - w) = 0 := by rw [UInt64.zero_sub, UInt64.add_right_neg]
  have hturned : rotateLeft 0 23 = 0 := by decide
  rw [hn, output, hsum, hturned, UInt64.zero_add]

end Rng

end Chorale
