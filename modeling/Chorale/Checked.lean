import Chorale.Failure

/-!
# Checked arithmetic

The integers of the library have a fixed width, and a result that does not fit is the failure
`overflow`, never a wrapped value. An operation works on the integers that its arguments stand for
and gives the value that stands for the result, if there is one:

* `ofInt_eq_ok_iff`: `Checked.ofInt n` is the value that stands for `n`;
* `add_eq_ok_iff`, `sub_eq_ok_iff`, `mul_eq_ok_iff`, `neg_eq_ok_iff`: so for the operations;
* `eq_ok_or_overflow`: what does not succeed overflows.
-/

namespace Chorale

/-- A fixed-width integer type: every value stands for an integer, and an integer for at most one
value. -/
class FixedWidth (α : Type) where
  /-- The integer that a value stands for. -/
  toInt : α → Int
  /-- The value that stands for an integer. -/
  ofInt? : Int → Option α
  ofInt?_eq_some_iff {n : Int} {a : α} : ofInt? n = some a ↔ toInt a = n

export FixedWidth (ofInt?_eq_some_iff)

instance : FixedWidth UInt8 where
  toInt a := a.toNat
  ofInt? n := if 0 ≤ n ∧ n < 0x100 then some (UInt8.ofNat n.toNat) else none
  ofInt?_eq_some_iff {n a} := by
    have ha := a.toNat_lt
    split
    · rw [Option.some.injEq, ← UInt8.toNat_inj, UInt8.toNat_ofNat', Nat.mod_eq_of_lt (by omega)]
      omega
    · simp only [reduceCtorEq, false_iff]; omega

instance : FixedWidth UInt32 where
  toInt a := a.toNat
  ofInt? n := if 0 ≤ n ∧ n < 0x100000000 then some (UInt32.ofNat n.toNat) else none
  ofInt?_eq_some_iff {n a} := by
    have ha := a.toNat_lt
    split
    · rw [Option.some.injEq, ← UInt32.toNat_inj, UInt32.toNat_ofNat', Nat.mod_eq_of_lt (by omega)]
      omega
    · simp only [reduceCtorEq, false_iff]; omega

instance : FixedWidth UInt64 where
  toInt a := a.toNat
  ofInt? n := if 0 ≤ n ∧ n < 0x10000000000000000 then some (UInt64.ofNat n.toNat) else none
  ofInt?_eq_some_iff {n a} := by
    have ha := a.toNat_lt
    split
    · rw [Option.some.injEq, ← UInt64.toNat_inj, UInt64.toNat_ofNat', Nat.mod_eq_of_lt (by omega)]
      omega
    · simp only [reduceCtorEq, false_iff]; omega

instance : FixedWidth Int32 where
  toInt a := a.toInt
  ofInt? n := if -0x80000000 ≤ n ∧ n < 0x80000000 then some (Int32.ofInt n) else none
  ofInt?_eq_some_iff {n a} := by
    have hl := a.le_toInt
    have hh := a.toInt_lt
    split
    · rw [Option.some.injEq, ← Int32.toInt_inj, Int32.toInt_ofInt_of_le (by omega) (by omega)]
      omega
    · simp only [reduceCtorEq, false_iff]; omega

namespace Checked

variable {α : Type} [FixedWidth α]

/-- The value that stands for `n`. -/
def ofInt (n : Int) : Except Failure α :=
  match FixedWidth.ofInt? n with
  | some a => .ok a
  | none => .error .overflow

/-- The sum of two values. -/
def add (a b : α) : Except Failure α := ofInt (FixedWidth.toInt a + FixedWidth.toInt b)

/-- The difference of two values. -/
def sub (a b : α) : Except Failure α := ofInt (FixedWidth.toInt a - FixedWidth.toInt b)

/-- The product of two values. -/
def mul (a b : α) : Except Failure α := ofInt (FixedWidth.toInt a * FixedWidth.toInt b)

/-- The negative of a value. -/
def neg (a : α) : Except Failure α := ofInt (-FixedWidth.toInt a)

/-- The sum of the values, added from the left. -/
def sum (zero : α) (values : List α) : Except Failure α := values.foldlM add zero

/-! ## What the operations give -/

theorem ofInt_eq_ok_iff {n : Int} {a : α} : ofInt n = .ok a ↔ FixedWidth.toInt a = n := by
  rw [← ofInt?_eq_some_iff, ofInt]
  cases FixedWidth.ofInt? (α := α) n <;> simp

theorem add_eq_ok_iff {a b c : α} :
    add a b = .ok c ↔ FixedWidth.toInt c = FixedWidth.toInt a + FixedWidth.toInt b :=
  ofInt_eq_ok_iff

theorem sub_eq_ok_iff {a b c : α} :
    sub a b = .ok c ↔ FixedWidth.toInt c = FixedWidth.toInt a - FixedWidth.toInt b :=
  ofInt_eq_ok_iff

theorem mul_eq_ok_iff {a b c : α} :
    mul a b = .ok c ↔ FixedWidth.toInt c = FixedWidth.toInt a * FixedWidth.toInt b :=
  ofInt_eq_ok_iff

theorem neg_eq_ok_iff {a c : α} : neg a = .ok c ↔ FixedWidth.toInt c = -FixedWidth.toInt a :=
  ofInt_eq_ok_iff

/-- What is not a value overflows. -/
theorem eq_ok_or_overflow (n : Int) :
    (∃ a : α, ofInt n = .ok a) ∨ ofInt (α := α) n = .error .overflow := by
  rw [ofInt]
  cases FixedWidth.ofInt? (α := α) n <;> simp

end Checked

end Chorale
