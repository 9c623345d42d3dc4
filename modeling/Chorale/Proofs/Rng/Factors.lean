import Mathlib.Data.List.Prime
import Mathlib.Dynamics.PeriodicPts.Lemmas
import Mathlib.NumberTheory.LucasPrimality
import Mathlib.Tactic.NormNum.Prime
import Mathlib.Tactic.ReduceModChar

/-!
# The prime factors of the period

The states of a generator other than the state of zeros are `2 ^ 256 - 1`. The prime factors of this
number (`fullPeriodFactors`) are those of the first eight Fermat numbers, the greatest of them prime
by Lucas's test (`prime_of_factors`). A point whose orbit comes back after a number of steps, but
not after a part of it that leaves out one of the prime factors, has that number as its least period
(`minimalPeriod_eq_of_factors`).
-/

namespace Chorale

/-- The prime factors of a number are among primes that all of it divides a power of. -/
theorem mem_of_prime_dvd {n k q : Nat} {factors : List Nat} (hprime : ∀ p ∈ factors, p.Prime)
    (hfactors : n ∣ factors.prod ^ k) (hq : q.Prime) (h : q ∣ n) : q ∈ factors := by
  have hdvd : q ∣ factors.prod := hq.dvd_of_dvd_pow (h.trans hfactors)
  exact mem_list_primes_of_dvd_prod hq.prime (fun p hp => (hprime p hp).prime) hdvd

/-! ## Periods -/

theorem minimalPeriod_eq_of_factors {α : Type} {f : α → α} {x : α} {n : Nat} {factors : List Nat}
    (hprime : ∀ p ∈ factors, p.Prime) (hfactors : n ∣ factors.prod)
    (hperiod : f^[n] x = x) (hpart : ∀ p ∈ factors, f^[n / p] x ≠ x) :
    Function.minimalPeriod f x = n := by
  obtain ⟨k, hk⟩ := Function.IsPeriodicPt.minimalPeriod_dvd (f := f) (x := x) hperiod
  by_contra hne
  have hk_one : k ≠ 1 := by
    intro h
    rw [h, Nat.mul_one] at hk
    exact hne hk.symm
  -- A prime factor of `k` is one that can be left out.
  obtain ⟨p, hp, j, hj⟩ := Nat.exists_prime_and_dvd hk_one
  have hn : n = p * (Function.minimalPeriod f x * j) := by
    rw [hk, hj, Nat.mul_left_comm]
  have hmem : p ∈ factors := by
    apply mem_of_prime_dvd hprime (k := 1) _ hp ⟨_, hn⟩
    rwa [Nat.pow_one]
  apply hpart p hmem
  rw [Nat.div_eq_of_eq_mul_right hp.pos hn]
  exact (Function.isPeriodicPt_minimalPeriod f x).mul_const j

/-! ## Primes -/

/-- A number is prime if some residue has the order of its units. -/
theorem prime_of_factors {p : Nat} (a : ZMod p) (factors : List Nat) (k : Nat)
    (hprime : ∀ q ∈ factors, q.Prime) (hfactors : p - 1 ∣ factors.prod ^ k)
    (hone : a ^ (p - 1) = 1) (hpart : ∀ q ∈ factors, a ^ ((p - 1) / q) ≠ 1) : p.Prime := by
  apply lucas_primality p a hone
  intro q hq hdvd
  exact hpart q (mem_of_prime_dvd hprime hfactors hq hdvd)

theorem prime_67280421310721 : Nat.Prime 67280421310721 := by
  apply prime_of_factors 3 [2, 5, 47, 373, 2998279] 8
  · norm_num
  · norm_num
  · reduce_mod_char
  · norm_num only [List.forall_mem_cons]
    reduce_mod_char
    decide

theorem prime_18533742247 : Nat.Prime 18533742247 := by
  apply prime_of_factors 6 [2, 3, 181, 1896229] 3
  · norm_num
  · norm_num
  · reduce_mod_char
  · norm_num only [List.forall_mem_cons]
    reduce_mod_char
    decide

theorem prime_116503103764643 : Nat.Prime 116503103764643 := by
  apply prime_of_factors 2 [2, 7, 449, 18533742247] 1
  · simp only [List.forall_mem_cons, prime_18533742247]
    norm_num
  · norm_num
  · reduce_mod_char
  · norm_num only [List.forall_mem_cons]
    reduce_mod_char
    decide

theorem prime_59649589127497217 : Nat.Prime 59649589127497217 := by
  apply prime_of_factors 3 [2, 116503103764643] 9
  · simp only [List.forall_mem_cons, prime_116503103764643]
    norm_num
  · norm_num
  · reduce_mod_char
  · norm_num only [List.forall_mem_cons]
    reduce_mod_char
    decide

theorem prime_733803839347 : Nat.Prime 733803839347 := by
  apply prime_of_factors 2 [2, 3, 2203, 55515497] 1
  · norm_num
  · norm_num
  · reduce_mod_char
  · norm_num only [List.forall_mem_cons]
    reduce_mod_char
    decide

theorem prime_5704689200685129054721 : Nat.Prime 5704689200685129054721 := by
  apply prime_of_factors 21 [2, 3, 5, 12497, 733803839347] 9
  · simp only [List.forall_mem_cons, prime_733803839347]
    norm_num
  · norm_num
  · reduce_mod_char
  · norm_num only [List.forall_mem_cons]
    reduce_mod_char
    decide

namespace Rng

/-- How many states there are besides the state of zeros. -/
def fullPeriod : Nat := 2 ^ 256 - 1

/-- The prime factors of `2 ^ 256 - 1`, in the order of the Fermat numbers that they divide. -/
def fullPeriodFactors : List Nat :=
  [3, 5, 17, 257, 65537, 641, 6700417, 274177, 67280421310721, 59649589127497217,
    5704689200685129054721]

theorem prod_fullPeriodFactors : fullPeriodFactors.prod = fullPeriod := by decide

theorem prime_of_mem_fullPeriodFactors : ∀ p ∈ fullPeriodFactors, p.Prime := by
  unfold fullPeriodFactors
  simp only [List.forall_mem_cons, prime_67280421310721, prime_59649589127497217,
    prime_5704689200685129054721]
  norm_num

end Rng

end Chorale
