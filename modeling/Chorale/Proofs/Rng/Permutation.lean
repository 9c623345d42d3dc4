import Chorale.Proofs.Draw.Stream
import Mathlib.Data.Nat.ModEq
import Mathlib.SetTheory.Cardinal.Finite

/-!
# The generator permutes its states

Nothing is lost from one state to the next. A word that was mixed with a shifted copy of itself, turned
round or multiplied by an odd number can be told from the result (`xor_shiftRight_injective`,
`xor_shiftLeft_injective`, `rotateLeft_injective`, `mul_injective`), and these are all that a seed and
a state go through:

* `scramble_injective`, `ofSeed_injective`: seeds have different states;
* `advance_bijective`: each of the `2 ^ 256` states comes after exactly one state;
* `advance_permutes`: so streams that begin in different states never come together, and no seed's
  stream comes to the state of zeros, which would be followed by itself for ever.
-/

namespace Chorale

/-! ## Words -/

/-- A word and a copy of it that `f` has moved, laid over each other, tell the word, if only zero
stays where it is. -/
theorem xor_map_injective {f : UInt64 → UInt64} (hxor : ∀ x y, f (x ^^^ y) = f x ^^^ f y)
    (hzero : ∀ x, f x = x → x = 0) : Function.Injective fun x => x ^^^ f x := by
  intro x y h
  have h : x ^^^ f x = y ^^^ f y := h
  apply UInt64.xor_eq_zero_iff.1
  apply hzero
  -- The difference of both words is moved to itself.
  have hcancel : (x ^^^ y) ^^^ (f x ^^^ f y) = 0 := by
    calc (x ^^^ y) ^^^ (f x ^^^ f y) = (x ^^^ f x) ^^^ (y ^^^ f y) := by ac_rfl
      _ = 0 := by rw [h, UInt64.xor_self]
  rw [hxor]
  exact (UInt64.xor_eq_zero_iff.1 hcancel).symm

/-- What two words are mixed with alike drops out of their difference. -/
theorem xor_xor_cancel (x y z : UInt64) : (x ^^^ y) ^^^ (y ^^^ z) = x ^^^ z := by
  rw [UInt64.xor_assoc, ← UInt64.xor_assoc y, UInt64.xor_self, UInt64.zero_xor]

theorem eq_zero_of_shiftRight_eq {x count : UInt64} (hcount : 0 < count.toNat % 64)
    (h : x >>> count = x) : x = 0 := by
  have h := congrArg UInt64.toNat h
  rw [UInt64.toNat_shiftRight, Nat.shiftRight_eq_div_pow] at h
  by_contra hne
  have hpos : 0 < x.toNat := Nat.pos_of_ne_zero fun e => hne (UInt64.toNat_inj.1 e)
  have hlt := Nat.div_lt_self hpos (Nat.one_lt_two_pow (Nat.pos_iff_ne_zero.1 hcount))
  omega

theorem xor_shiftRight_injective {count : UInt64} (hcount : 0 < count.toNat % 64) :
    Function.Injective fun x : UInt64 => x ^^^ (x >>> count) :=
  xor_map_injective (fun _ _ => UInt64.shiftRight_xor) fun _ => eq_zero_of_shiftRight_eq hcount

/-- Taking the word away from its shift multiplies it by an odd number. -/
theorem eq_zero_of_shiftLeft_eq {x : UInt64} (h : x <<< 17 = x) : x = 0 := by
  have h := congrArg UInt64.toNat h
  have hcount : (17 : UInt64).toNat % 64 = 17 := by decide
  rw [UInt64.toNat_shiftLeft, Nat.shiftLeft_eq, hcount] at h
  have hmod : x.toNat * 2 ^ 17 ≡ x.toNat * 1 [MOD 2 ^ 64] := by
    rw [Nat.ModEq, h, Nat.mul_one, Nat.mod_eq_of_lt x.toNat_lt]
  have hdvd : 2 ^ 64 ∣ x.toNat * 2 ^ 17 - x.toNat * 1 :=
    (Nat.modEq_iff_dvd' (Nat.mul_le_mul_left x.toNat (by decide))).1 hmod.symm
  rw [← Nat.mul_sub] at hdvd
  have hodd : Nat.Coprime (2 ^ 64) (2 ^ 17 - 1) := by decide
  apply UInt64.toNat_inj.1
  exact Nat.eq_zero_of_dvd_of_lt (hodd.dvd_of_dvd_mul_right hdvd) x.toNat_lt

theorem xor_shiftLeft_injective : Function.Injective fun x : UInt64 => x ^^^ (x <<< 17) :=
  xor_map_injective (fun _ _ => UInt64.shiftLeft_xor) fun _ => eq_zero_of_shiftLeft_eq

/-- The low bits come to the top and the high bits to the bottom. -/
theorem toNat_rotateLeft (x : UInt64) :
    (rotateLeft x 45).toNat = x.toNat % 2 ^ 19 * 2 ^ 45 + x.toNat / 2 ^ 19 := by
  have hlt := x.toNat_lt
  have hlow : x.toNat <<< 45 % 2 ^ 64 = (x.toNat % 2 ^ 19) <<< 45 := by
    rw [Nat.shiftLeft_eq, Nat.shiftLeft_eq]
    omega
  have hhigh : x.toNat >>> 19 = x.toNat / 2 ^ 19 := Nat.shiftRight_eq_div_pow _ _
  have hsum : (rotateLeft x 45).toNat = x.toNat <<< 45 % 2 ^ 64 ||| x.toNat >>> 19 := by
    rw [rotateLeft, UInt64.toNat_or, UInt64.toNat_shiftLeft, UInt64.toNat_shiftRight]
    rfl
  rw [hsum, hlow, hhigh, ← Nat.shiftLeft_add_eq_or_of_lt (by omega), Nat.shiftLeft_eq]

theorem rotateLeft_injective : Function.Injective fun x => rotateLeft x 45 := by
  intro x y h
  have h : (rotateLeft x 45).toNat = (rotateLeft y 45).toNat := congrArg UInt64.toNat h
  have hx := x.toNat_lt
  have hy := y.toNat_lt
  rw [toNat_rotateLeft, toNat_rotateLeft] at h
  apply UInt64.toNat_inj.1
  omega

/-- A factor with an inverse can be taken away again. -/
theorem mul_injective {factor : UInt64} (inverse : UInt64) (h : factor * inverse = 1) :
    Function.Injective fun x => x * factor := by
  apply Function.LeftInverse.injective (g := (· * inverse))
  intro x
  show x * factor * inverse = x
  rw [UInt64.mul_assoc, h, UInt64.mul_one]

namespace Rng

/-! ## Seeds -/

theorem scramble_injective : Function.Injective scramble := by
  have h₁ : Function.Injective fun z : UInt64 => (z ^^^ (z >>> 30)) * 0xbf58476d1ce4e5b9 :=
    (mul_injective 0x96de1b173f119089 (by decide)).comp
      (xor_shiftRight_injective (by decide))
  have h₂ : Function.Injective fun z : UInt64 => (z ^^^ (z >>> 27)) * 0x94d049bb133111eb :=
    (mul_injective 0x319642b2d24d8ec3 (by decide)).comp
      (xor_shiftRight_injective (by decide))
  have h₃ : Function.Injective fun z : UInt64 => z ^^^ (z >>> 31) :=
    xor_shiftRight_injective (by decide)
  exact h₃.comp (h₂.comp h₁)

/-- The first word of a state tells its seed. -/
theorem ofSeed_injective : Function.Injective ofSeed := by
  intro seed seed' h
  have h : scramble (seed + seedStep) = scramble (seed' + seedStep) := congrArg Rng.s0 h
  exact (UInt64.add_left_inj _).1 (scramble_injective h)

/-- The first two words of a seed's state are different, so that they are not both zero. -/
theorem ofSeed_ne_zero (seed : UInt64) : ofSeed seed ≠ ⟨0, 0, 0, 0⟩ := by
  intro h
  have h₀ : scramble (seed + seedStep) = 0 := congrArg Rng.s0 h
  have h₁ : scramble (seed + seedStep + seedStep) = 0 := congrArg Rng.s1 h
  have hsame : seed + seedStep + seedStep = seed + seedStep + 0 := by
    rw [scramble_injective (h₁.trans h₀.symm), UInt64.add_zero]
  have hstep : seedStep = 0 := (UInt64.add_right_inj _).1 hsame
  exact absurd hstep (by decide)

/-! ## States -/

theorem code_surjective {n : Nat} (h : n < stateCount) : ∃ r : Rng, r.code = n := by
  refine ⟨⟨UInt64.ofNat n, UInt64.ofNat (n / 2 ^ 64), UInt64.ofNat (n / 2 ^ 128),
    UInt64.ofNat (n / 2 ^ 192)⟩, ?_⟩
  simp only [stateCount, UInt64.size] at h
  simp only [code, UInt64.toNat_ofNat']
  omega

/-- States are the numbers below `2 ^ 256`. -/
theorem card_eq : Nat.card Rng = 2 ^ 256 := by
  have hbijective : Function.Bijective fun r : Rng => (⟨r.code, r.code_lt⟩ : Fin stateCount) := by
    constructor
    · intro r r' h
      exact code_injective (Fin.mk.inj h)
    · intro n
      obtain ⟨r, hr⟩ := code_surjective n.isLt
      exact ⟨r, Fin.ext hr⟩
  rw [Nat.card_congr (Equiv.ofBijective _ hbijective), Nat.card_fin]
  decide

instance : Finite Rng := Nat.finite_of_card_ne_zero (by rw [card_eq]; decide)

/-- The words of a state are told from the words after it one by one: the last of those gives the sum
of the outer words, this the first word, and with it the second, third and fourth. -/
theorem advance_injective : Function.Injective advance := by
  rintro ⟨a₀, a₁, a₂, a₃⟩ ⟨b₀, b₁, b₂, b₃⟩ h
  simp only [advance, Rng.mk.injEq] at h
  obtain ⟨h₀, h₁, h₂, h₃⟩ := h
  have hsum : a₃ ^^^ a₁ = b₃ ^^^ b₁ := rotateLeft_injective h₃
  rw [hsum, UInt64.xor_left_inj] at h₀
  have hshift : a₁ ^^^ (a₁ <<< 17) = b₁ ^^^ (b₁ <<< 17) := by
    rw [← xor_xor_cancel a₁ (a₂ ^^^ a₀), ← xor_xor_cancel b₁ (b₂ ^^^ b₀), h₁, h₂]
  have hsecond : a₁ = b₁ := xor_shiftLeft_injective hshift
  rw [hsecond, UInt64.xor_right_inj, h₀, UInt64.xor_left_inj] at h₁
  rw [hsecond, UInt64.xor_left_inj] at hsum
  rw [h₀, hsecond, h₁, hsum]

theorem advance_bijective : Function.Bijective advance :=
  Finite.injective_iff_bijective.1 advance_injective

theorem iterate_advance_zero (n : Nat) : advance^[n] ⟨0, 0, 0, 0⟩ = ⟨0, 0, 0, 0⟩ :=
  Function.iterate_fixed (by decide) n

/-- The stream of a seed never comes to the state of zeros. Seeds have different states, each of the
`2 ^ 256` states comes after exactly one, and different states, such as those of different seeds, are
followed by different states for ever. -/
theorem advance_permutes :
    (∀ seed n, advance^[n] (ofSeed seed) ≠ ⟨0, 0, 0, 0⟩) ∧
      Function.Injective ofSeed ∧ Nat.card Rng = 2 ^ 256 ∧ Function.Bijective advance ∧
      (∀ r r' : Rng, r ≠ r' → ∀ n, advance^[n] r ≠ advance^[n] r') ∧
      ∀ seed seed', seed ≠ seed' → ∀ n, advance^[n] (ofSeed seed) ≠ advance^[n] (ofSeed seed') := by
  have happart (r r' : Rng) (hne : r ≠ r') (n : Nat) : advance^[n] r ≠ advance^[n] r' :=
    (advance_injective.iterate n).ne hne
  refine ⟨fun seed n => ?_, ofSeed_injective, card_eq, advance_bijective, happart,
    fun seed seed' hne => happart _ _ (ofSeed_injective.ne hne)⟩
  rw [← iterate_advance_zero n]
  exact happart _ _ (ofSeed_ne_zero seed) n

end Rng

end Chorale
