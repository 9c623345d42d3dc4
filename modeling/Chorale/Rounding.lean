/-!
# Rounding

Quotients of natural numbers rounded to the nearest natural number.
-/

namespace Chorale

/-- The natural number nearest to `n / d`; of two, the even one. -/
def roundHalfEven (n d : Nat) : Nat :=
  let quotient := n / d
  let twice := 2 * (n % d)
  if twice < d ∨ (twice = d ∧ quotient % 2 = 0) then quotient else quotient + 1

end Chorale
