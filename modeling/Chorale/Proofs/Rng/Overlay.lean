import Chorale.Proofs.Rng.Permutation
import Mathlib.Data.Nat.Bitwise

/-!
# States laid over each other

Laid over each other bit by bit (`r ^^^ r'`), states are a vector space over the two bits, and
`advance` is linear (`advance_xor`). A *pattern* chooses states of a stream: it is a number of slots
of 16 bits, and the states at its odd slots are laid over each other (`overlay`). So patterns are
polynomials over the two bits, and their value at `advance` is taken at a state:

* patterns laid over each other, or added without a carry, choose the overlay of what they choose
  (`overlay_xor`, `overlay_add`);
* the product of two patterns of bits chooses by one among the choices of the other (`overlay_mul`),
  as no slot of it overflows (`Fills.mul`);
* only the lowest bits of the slots count (`overlay_and_ones`).
-/

namespace Chorale

theorem rotateLeft_xor (x y : UInt64) :
    rotateLeft (x ^^^ y) 45 = rotateLeft x 45 ^^^ rotateLeft y 45 := by
  apply UInt64.toBitVec_inj.1
  ext i hi
  by_cases hlow : i < 45
  · simp [rotateLeft, hlow]
  · have hge (z : BitVec 64) : z.getLsbD (19 + i) = false := BitVec.getLsbD_of_ge z _ (by omega)
    simp [rotateLeft, hlow, hge]

namespace Rng

/-! ## Overlays of two states -/

/-- The state of zeros. -/
def zeros : Rng := ⟨0, 0, 0, 0⟩

instance : XorOp Rng where
  xor r r' := ⟨r.s0 ^^^ r'.s0, r.s1 ^^^ r'.s1, r.s2 ^^^ r'.s2, r.s3 ^^^ r'.s3⟩

section

variable (r r' : Rng)

theorem xor_def : r ^^^ r' = ⟨r.s0 ^^^ r'.s0, r.s1 ^^^ r'.s1, r.s2 ^^^ r'.s2, r.s3 ^^^ r'.s3⟩ := rfl

instance : Std.Commutative (fun r r' : Rng => r ^^^ r') where
  comm r r' := by simp only [xor_def, UInt64.xor_comm]

instance : Std.Associative (fun r r' : Rng => r ^^^ r') where
  assoc r r' r'' := by simp only [xor_def, UInt64.xor_assoc]

theorem xor_self : r ^^^ r = zeros := by simp [xor_def, zeros]

@[simp] theorem xor_zeros : r ^^^ zeros = r := by simp [xor_def, zeros]

@[simp] theorem zeros_xor : zeros ^^^ r = r := by simp [xor_def, zeros]

@[simp] theorem advance_zeros : zeros.advance = zeros := by decide

theorem advance_xor : (r ^^^ r').advance = r.advance ^^^ r'.advance := by
  have hshift : (r.s1 ^^^ r'.s1) <<< 17 = r.s1 <<< 17 ^^^ r'.s1 <<< 17 := UInt64.shiftLeft_xor
  have hmix : (r.s3 ^^^ r'.s3) ^^^ (r.s1 ^^^ r'.s1) = (r.s3 ^^^ r.s1) ^^^ (r'.s3 ^^^ r'.s1) := by
    ac_rfl
  rw [xor_def, xor_def]
  unfold advance
  dsimp only
  rw [hshift, hmix, rotateLeft_xor, mk.injEq]
  generalize r.s1 <<< 17 = high, r'.s1 <<< 17 = high'
  refine ⟨?_, ?_, ?_, rfl⟩
  · ac_rfl
  · ac_rfl
  · ac_rfl

end

/-! ## Patterns -/

/-- The slots of a pattern have 16 bits, enough for the products of patterns of bits. -/
def slot : Nat := 2 ^ 16

/-- Each of the lowest slots of a pattern, and no other, may have up to `most`. -/
def Fills (most : Nat) : Nat → Nat → Prop
  | 0, pattern => pattern = 0
  | width + 1, pattern => pattern % slot ≤ most ∧ Fills most width (pattern / slot)

namespace Fills

variable {most most' width width' p q : Nat}

theorem eq_zero (h : Fills most 0 p) : p = 0 := h

theorem zero : ∀ width, Fills most width 0
  | 0 => rfl
  | width + 1 => ⟨Nat.zero_le _, by simpa using zero width⟩

theorem widen (h : Fills most width p) (hle : width ≤ width') : Fills most width' p := by
  induction width generalizing width' p with
  | zero =>
    rw [h.eq_zero]
    exact zero _
  | succ width ih =>
    obtain ⟨width', rfl⟩ := Nat.exists_eq_add_one_of_ne_zero (Nat.ne_zero_of_lt hle)
    exact ⟨h.1, ih h.2 (Nat.le_of_succ_le_succ hle)⟩

theorem narrow (h : Fills most width' p) (hle : width ≤ width') (hlt : p < slot ^ width) :
    Fills most width p := by
  induction width generalizing width' p with
  | zero => simpa [Fills] using hlt
  | succ width ih =>
    obtain ⟨width', rfl⟩ := Nat.exists_eq_add_one_of_ne_zero (Nat.ne_zero_of_lt hle)
    rw [Nat.pow_succ, Nat.mul_comm] at hlt
    exact ⟨h.1, ih h.2 (Nat.le_of_succ_le_succ hle) (Nat.div_lt_of_lt_mul hlt)⟩

/-- Two slots are added without a carry. -/
theorem add_div_slot (h : p % slot + q % slot < slot) : (p + q) / slot = p / slot + q / slot := by
  simp only [slot] at h ⊢
  omega

theorem add (hp : Fills most width p) (hq : Fills most' width q) (hlt : most + most' < slot) :
    Fills (most + most') width (p + q) := by
  induction width generalizing p q with
  | zero =>
    rw [hp.eq_zero, hq.eq_zero]
    exact zero 0
  | succ width ih =>
    obtain ⟨hlow, hp⟩ := hp
    obtain ⟨hlow', hq⟩ := hq
    refine ⟨?_, ?_⟩
    · rw [Nat.add_mod]
      exact Nat.le_trans (Nat.mod_le _ _) (Nat.add_le_add hlow hlow')
    · rw [add_div_slot (by omega)]
      exact ih hp hq

theorem slot_mul (h : Fills most width p) : Fills most (width + 1) (slot * p) := by
  refine ⟨?_, ?_⟩
  · rw [Nat.mul_mod_right]
    exact Nat.zero_le _
  · rw [Nat.mul_div_cancel_left p (by decide)]
    exact h

/-- A factor that is a bit leaves the other as it is or nothing of it. -/
theorem bit_mul {bit : Nat} (hbit : bit ≤ 1) (h : Fills most width p) :
    Fills most width (bit * p) := by
  rcases Nat.le_one_iff_eq_zero_or_eq_one.1 hbit with rfl | rfl
  · rw [Nat.zero_mul]
    exact zero width
  · rw [Nat.one_mul]
    exact h

/-- The lowest slot of the first factor and the slots above it. -/
theorem mul_eq_add_slot_mul (p q : Nat) : p * q = p % slot * q + slot * (p / slot * q) := by
  rw [← Nat.mul_assoc, ← Nat.add_mul, Nat.mod_add_div]

/-- A product adds up as many copies of the second factor as the first has slots. -/
theorem mul (hp : Fills 1 width p) (hq : Fills most width' q) (hlt : width * most < slot) :
    Fills (width * most) (width + width') (p * q) := by
  induction width generalizing p with
  | zero =>
    rw [hp.eq_zero, Nat.zero_mul, Nat.zero_mul]
    exact zero _
  | succ width ih =>
    rw [Nat.succ_mul] at hlt ⊢
    rw [mul_eq_add_slot_mul p q, Nat.add_comm (width * most), Nat.add_right_comm]
    have hlow : Fills most (width + width' + 1) (p % slot * q) := (hq.bit_mul hp.1).widen (by omega)
    exact hlow.add (ih hp.2 (by omega)).slot_mul (by omega)

end Fills

/-- The pattern with a one in each of the lowest slots. -/
def ones : Nat → Nat
  | 0 => 0
  | width + 1 => 1 + slot * ones width

section

variable (width p q : Nat)

theorem ones_mod : ones (width + 1) % slot = 1 := by
  rw [ones, Nat.add_mul_mod_self_left]
  rfl

theorem ones_div : ones (width + 1) / slot = ones width := by
  rw [ones, Nat.add_mul_div_left _ _ (by decide)]
  exact Nat.zero_add _

theorem and_ones_mod : (p &&& ones (width + 1)) % slot = p % 2 := by
  have hones := ones_mod width
  unfold slot at hones ⊢
  rw [Nat.and_mod_two_pow, hones, Nat.and_one_is_mod]
  omega

theorem and_ones_div : (p &&& ones (width + 1)) / slot = p / slot &&& ones width := by
  have hones := ones_div width
  unfold slot at hones ⊢
  rw [Nat.and_div_two_pow, hones]

theorem fills_and_ones : Fills 1 width (p &&& ones width) := by
  induction width generalizing p with
  | zero => exact Nat.and_zero p
  | succ width ih =>
    refine ⟨?_, ?_⟩
    · rw [and_ones_mod]
      omega
    · rw [and_ones_div]
      exact ih _

/-- Bits laid over each other are bits. -/
theorem Fills.xor {width p q : Nat} (hp : Fills 1 width p) (hq : Fills 1 width q) :
    Fills 1 width (p ^^^ q) := by
  induction width generalizing p q with
  | zero =>
    rw [hp.eq_zero, hq.eq_zero]
    exact Fills.zero 0
  | succ width ih =>
    obtain ⟨hlow, hp⟩ := hp
    obtain ⟨hlow', hq⟩ := hq
    refine ⟨?_, ?_⟩
    · unfold slot at hlow hlow' ⊢
      rw [Nat.xor_mod_two_pow]
      exact Nat.le_of_lt_succ (Nat.xor_lt_two_pow (n := 1) (by omega) (by omega))
    · unfold slot at hp hq ⊢
      rw [Nat.xor_div_two_pow]
      exact ih hp hq

end

/-! ## Overlays of the states of a stream -/

/-- The state, if the lowest slot of a pattern is odd, and otherwise the state of zeros. -/
def pick (pattern : Nat) (r : Rng) : Rng := if pattern % 2 = 1 then r else zeros

/-- The first states of the stream of `r` for which the slot of a pattern is odd, laid over each
other. -/
def overlay : Nat → Nat → Rng → Rng
  | 0, _, _ => zeros
  | width + 1, pattern, r => pick pattern r ^^^ overlay width (pattern / slot) r.advance

section

variable (width p q : Nat) (r r' : Rng)

@[simp] theorem overlay_zero_width : overlay 0 p r = zeros := rfl

theorem overlay_succ :
    overlay (width + 1) p r = pick p r ^^^ overlay width (p / slot) r.advance := rfl

@[simp] theorem pick_zeros : pick p zeros = zeros := ite_self zeros

@[simp] theorem pick_zero : pick 0 r = zeros := rfl

theorem advance_pick : (pick p r).advance = pick p r.advance := by
  unfold pick
  split
  · rfl
  · rfl

theorem pick_add : pick (p + q) r = pick p r ^^^ pick q r := by
  unfold pick
  rcases Nat.mod_two_eq_zero_or_one p with hp | hp
  · simp [Nat.add_mod, hp]
  · rcases Nat.mod_two_eq_zero_or_one q with hq | hq
    · simp [Nat.add_mod, hp, hq]
    · simp [Nat.add_mod, hp, hq, xor_self]

theorem pick_congr {p q : Nat} (h : p % 2 = q % 2) (r : Rng) : pick p r = pick q r := by
  rw [pick, pick, h]

@[simp] theorem overlay_zeros : overlay width p zeros = zeros := by
  induction width generalizing p with
  | zero => rfl
  | succ width ih => simp [overlay_succ, ih]

@[simp] theorem overlay_zero : overlay width 0 r = zeros := by
  induction width generalizing r with
  | zero => rfl
  | succ width ih =>
    rw [overlay_succ, Nat.zero_div, ih, pick_zero, xor_zeros]

theorem advance_overlay : (overlay width p r).advance = overlay width p r.advance := by
  induction width generalizing p r with
  | zero => simp
  | succ width ih => rw [overlay_succ, advance_xor, advance_pick, ih, overlay_succ]

theorem iterate_advance_overlay (n : Nat) :
    advance^[n] (overlay width p r) = overlay width p (advance^[n] r) := by
  induction n generalizing r with
  | zero => rfl
  | succ n ih => rw [Function.iterate_succ_apply, advance_overlay, ih, Function.iterate_succ_apply]

/-- Patterns laid over each other choose the overlay of what they choose. -/
theorem overlay_xor : overlay width (p ^^^ q) r = overlay width p r ^^^ overlay width q r := by
  induction width generalizing p q r with
  | zero => simp
  | succ width ih =>
    have hdiv : (p ^^^ q) / slot = p / slot ^^^ q / slot := Nat.xor_div_two_pow
    rw [overlay_succ, hdiv, ih, pick_congr Nat.xor_mod_two_eq, pick_add, overlay_succ, overlay_succ]
    ac_rfl

/-- Only the lowest bits of the slots count. -/
theorem overlay_and_ones : overlay width (p &&& ones width) r = overlay width p r := by
  induction width generalizing p r with
  | zero => rfl
  | succ width ih =>
    have hlow := and_ones_mod width p
    have hpick : pick (p &&& ones (width + 1)) r = pick p r := by
      apply pick_congr
      unfold slot at hlow
      omega
    rw [overlay_succ, hpick, and_ones_div, ih, overlay_succ]

theorem overlay_slot_mul : overlay (width + 1) (slot * p) r = overlay width p r.advance := by
  have hpick : pick (slot * p) r = zeros := by
    apply if_neg
    unfold slot
    omega
  rw [overlay_succ, hpick, Nat.mul_div_cancel_left p (by decide), zeros_xor]

end

section

variable {most most' width width' p q : Nat}

/-- The slots that are not filled choose nothing. -/
theorem overlay_of_fills (h : Fills most width p) (hle : width ≤ width') (r : Rng) :
    overlay width' p r = overlay width p r := by
  induction width generalizing width' p r with
  | zero =>
    rw [h.eq_zero, overlay_zero, overlay_zero]
  | succ width ih =>
    obtain ⟨width', rfl⟩ := Nat.exists_eq_add_one_of_ne_zero (Nat.ne_zero_of_lt hle)
    rw [overlay_succ, ih h.2 (Nat.le_of_succ_le_succ hle), overlay_succ]

/-- Patterns added without a carry choose the overlay of what they choose. -/
theorem overlay_add (hp : Fills most width p) (hq : Fills most' width q)
    (hlt : most + most' < slot) (r : Rng) :
    overlay width (p + q) r = overlay width p r ^^^ overlay width q r := by
  induction width generalizing p q r with
  | zero => simp
  | succ width ih =>
    obtain ⟨hlow, hp⟩ := hp
    obtain ⟨hlow', hq⟩ := hq
    rw [overlay_succ, Fills.add_div_slot (by omega), ih hp hq, pick_add, overlay_succ, overlay_succ]
    ac_rfl

/-- A bit times a pattern chooses what the pattern chooses or nothing. -/
theorem overlay_bit_mul {bit : Nat} (hbit : bit ≤ 1) (r : Rng) :
    overlay width (bit * p) r = pick bit (overlay width p r) := by
  rcases Nat.le_one_iff_eq_zero_or_eq_one.1 hbit with rfl | rfl
  · rw [Nat.zero_mul, overlay_zero, pick_zero]
  · rw [Nat.one_mul]
    rfl

/-- The product of two patterns of bits chooses by one among the choices of the other. -/
theorem overlay_mul (hp : Fills 1 width p) (hq : Fills most width' q) (hlt : width * most < slot)
    (r : Rng) : overlay (width + width') (p * q) r = overlay width p (overlay width' q r) := by
  induction width generalizing p r with
  | zero =>
    rw [hp.eq_zero, Nat.zero_mul, overlay_zero, overlay_zero]
  | succ width ih =>
    rw [Nat.succ_mul] at hlt
    have hbit : Fills most width' (p % slot * q) := hq.bit_mul hp.1
    have hlow : Fills most (width + width' + 1) (p % slot * q) := hbit.widen (by omega)
    have hhigh : Fills (width * most) (width + width' + 1) (slot * (p / slot * q)) :=
      (hp.2.mul hq (by omega)).slot_mul
    have hpick : pick (p % slot) (overlay width' q r) = pick p (overlay width' q r) :=
      pick_congr (Nat.mod_mod_of_dvd p (by decide)) _
    calc overlay (width + 1 + width') (p * q) r
        = overlay (width + width' + 1) (p % slot * q + slot * (p / slot * q)) r := by
          rw [← Fills.mul_eq_add_slot_mul, Nat.add_right_comm]
      _ = overlay (width + width' + 1) (p % slot * q) r ^^^
            overlay (width + width' + 1) (slot * (p / slot * q)) r := by
          rw [overlay_add hlow hhigh (by omega)]
      _ = pick p (overlay width' q r) ^^^ overlay (width + width') (p / slot * q) r.advance := by
          rw [overlay_of_fills hbit (by omega), overlay_bit_mul hp.1, hpick, overlay_slot_mul]
      _ = pick p (overlay width' q r) ^^^ overlay width (p / slot) (overlay width' q r).advance := by
          rw [ih hp.2 (by omega), advance_overlay]
      _ = overlay (width + 1) p (overlay width' q r) := rfl

end

end Rng

end Chorale
