import Chorale.Draw
import Mathlib.Combinatorics.Pigeonhole
import Mathlib.Logic.Function.Iterate

/-!
# Draws that never end

A draw from a range takes words until one is not left over. As a generator has `Rng.stateCount`
states, its stream repeats states from then on at the latest, so that a draw that was not dealt a
number in so many words is never dealt one:

* `exists_iterate_lt`: every state of a stream is reached in less than `Rng.stateCount` steps;
* `run_firstDealt_eq_ok_iff`: a draw gives what the first word that is not left over is dealt to;
* `endless_of_run_firstDealt`: a draw that fails would go on for ever.

`Rng.Stuck` says that a stream holds such a draw.
-/

namespace Chorale

namespace Rng

/-- `r'` is a state of the stream of `r`. -/
def Leads (r r' : Rng) : Prop := ∃ n, advance^[n] r = r'

theorem Leads.refl (r : Rng) : r.Leads r := ⟨0, rfl⟩

theorem Leads.trans {r₁ r₂ r₃ : Rng} (h₁ : r₁.Leads r₂) (h₂ : r₂.Leads r₃) : r₁.Leads r₃ := by
  obtain ⟨m, rfl⟩ := h₁
  obtain ⟨n, rfl⟩ := h₂
  exact ⟨n + m, Function.iterate_add_apply ..⟩

theorem leads_iterate (r : Rng) (n : Nat) : r.Leads (advance^[n] r) := ⟨n, rfl⟩

/-- A draw from some range, begun somewhere in the stream of `r`, never ends. -/
def Stuck (r : Rng) : Prop :=
  ∃ r', r.Leads r' ∧ ∃ low high, low < high ∧
    ∀ n, Draw.deal? low high (advance^[n] r').output = none

theorem Leads.stuck {r r' : Rng} (h : r.Leads r') : r'.Stuck → r.Stuck := by
  rintro ⟨r'', h', endless⟩
  exact ⟨r'', h.trans h', endless⟩

/-! ## Streams repeat -/

/-- A state as one number. -/
def code (r : Rng) : Nat :=
  r.s0.toNat + 2 ^ 64 * (r.s1.toNat + 2 ^ 64 * (r.s2.toNat + 2 ^ 64 * r.s3.toNat))

theorem code_lt (r : Rng) : r.code < stateCount := by
  have h0 := r.s0.toNat_lt; have h1 := r.s1.toNat_lt
  have h2 := r.s2.toNat_lt; have h3 := r.s3.toNat_lt
  simp only [code, stateCount, UInt64.size]
  omega

theorem code_injective : Function.Injective code := by
  rintro ⟨a0, a1, a2, a3⟩ ⟨b0, b1, b2, b3⟩ h
  have h0 := a0.toNat_lt; have h1 := a1.toNat_lt; have h2 := a2.toNat_lt; have h3 := a3.toNat_lt
  have k0 := b0.toNat_lt; have k1 := b1.toNat_lt; have k2 := b2.toNat_lt; have k3 := b3.toNat_lt
  simp only [code] at h
  simp only [mk.injEq, ← UInt64.toNat_inj]
  omega

/-- Among the first states of a stream, one more than there are states, two are equal. -/
theorem exists_iterate_eq (r : Rng) :
    ∃ m n, m < n ∧ n ≤ stateCount ∧ advance^[m] r = advance^[n] r := by
  have hcard : (Finset.range stateCount).card < (Finset.range (stateCount + 1)).card := by
    rw [Finset.card_range, Finset.card_range]
    exact Nat.lt_succ_self _
  obtain ⟨m, hm, n, hn, hne, h⟩ := Finset.exists_ne_map_eq_of_card_lt_of_maps_to hcard
    (f := fun n => (advance^[n] r).code) fun n _ => by
      simpa using code_lt (advance^[n] r)
  have hm := Nat.lt_succ_iff.1 (Finset.mem_range.1 hm)
  have hn := Nat.lt_succ_iff.1 (Finset.mem_range.1 hn)
  rcases Nat.lt_or_gt_of_ne hne with hlt | hlt
  · exact ⟨m, n, hlt, hn, code_injective h⟩
  · exact ⟨n, m, hlt, hm, (code_injective h).symm⟩

theorem exists_iterate_lt (r : Rng) (n : Nat) : ∃ m < stateCount, advance^[m] r = advance^[n] r := by
  obtain ⟨a, b, hab, hb, h⟩ := exists_iterate_eq r
  induction n using Nat.strong_induction_on with
  | _ n ih =>
    by_cases hn : n < stateCount
    · exact ⟨n, hn, rfl⟩
    -- Past `b` the stream is where it was `b - a` steps before.
    obtain ⟨m, hm, e⟩ := ih (n - b + a) (by omega)
    refine ⟨m, hm, e.trans ?_⟩
    rw [Function.iterate_add_apply, h, ← Function.iterate_add_apply, Nat.sub_add_cancel (by omega)]

end Rng

/-! ## The first word that is not left over -/

namespace Draw

variable {α : Type} {deal? : UInt64 → Option α} {r : Rng}

theorem run_firstDealt (deal? : UInt64 → Option α) (limit : Nat) (r : Rng) :
    (∃ n < limit, ∃ a, (∀ m < n, deal? (Rng.advance^[m] r).output = none) ∧
      deal? (Rng.advance^[n] r).output = some a ∧
      (firstDealt deal? limit).run r = (.ok a, Rng.advance^[n + 1] r)) ∨
    ((∀ n < limit, deal? (Rng.advance^[n] r).output = none) ∧
      (firstDealt deal? limit).run r = (.error .endlessRejection, Rng.advance^[limit] r)) := by
  induction limit generalizing r with
  | zero => exact .inr ⟨fun n hn => absurd hn (Nat.not_lt_zero n), rfl⟩
  | succ limit ih =>
    cases hw : deal? r.output with
    | some a =>
      exact .inl ⟨0, Nat.succ_pos _, a, fun m hm => absurd hm (Nat.not_lt_zero m), hw,
        run_firstDealt_of_some hw limit⟩
    | none =>
      have hrun := run_firstDealt_of_none hw limit
      -- A place of the stream of `r` is the first one or a place of the stream of `r.advance`.
      have hcons {n : Nat} (h : ∀ m < n, deal? (Rng.advance^[m] r.advance).output = none) :
          ∀ m < n + 1, deal? (Rng.advance^[m] r).output = none
        | 0, _ => hw
        | m + 1, hm => h m (Nat.lt_of_succ_lt_succ hm)
      rcases ih r.advance with ⟨n, hn, a, hbefore, ha, h⟩ | ⟨hall, h⟩
      · exact .inl ⟨n + 1, Nat.succ_lt_succ hn, a, hcons hbefore, ha, hrun.trans h⟩
      · exact .inr ⟨hcons hall, hrun.trans h⟩

/-- A draw that fails after as many words as there are states is dealt nothing by any later word
either. -/
theorem endless_of_run_firstDealt {e : Failure} {r' : Rng}
    (h : (firstDealt deal? Rng.stateCount).run r = (.error e, r')) :
    e = .endlessRejection ∧ ∀ n, deal? (Rng.advance^[n] r).output = none := by
  rcases run_firstDealt deal? Rng.stateCount r with ⟨n, -, a, -, -, h'⟩ | ⟨hall, h'⟩
  · cases h.symm.trans h'
  · refine ⟨by cases h.symm.trans h'; rfl, fun n => ?_⟩
    obtain ⟨m, hm, e⟩ := Rng.exists_iterate_lt r n
    exact e ▸ hall m hm

/-- A draw gives what the first word of the stream that is not left over is dealt to. -/
theorem run_firstDealt_eq_ok_iff {r' : Rng} {a : α} :
    (firstDealt deal? Rng.stateCount).run r = (.ok a, r') ↔
      ∃ n, (∀ m < n, deal? (Rng.advance^[m] r).output = none) ∧
        deal? (Rng.advance^[n] r).output = some a ∧ r' = Rng.advance^[n + 1] r := by
  rcases run_firstDealt deal? Rng.stateCount r with ⟨n, -, b, hbefore, hb, hrun⟩ | ⟨hall, hrun⟩
  · rw [hrun]
    constructor
    · intro h
      cases h
      exact ⟨n, hbefore, hb, rfl⟩
    · rintro ⟨n', hbefore', ha, rfl⟩
      -- Two first words that are dealt to something are one.
      have hn : n = n' := by
        rcases Nat.lt_trichotomy n n' with hlt | heq | hlt
        · cases hb.symm.trans (hbefore' n hlt)
        · exact heq
        · cases ha.symm.trans (hbefore n' hlt)
      subst hn
      cases hb.symm.trans ha
      rfl
  · have hnone := (endless_of_run_firstDealt hrun).2
    rw [hrun]
    constructor
    · intro h
      cases h
    · rintro ⟨n, -, ha, -⟩
      cases (hnone n).symm.trans ha

end Draw

end Chorale
