import Chorale.Proofs.Harmony.Decoding

/-!
# Interleaved progressions

What a pass of a scale's harmony grammar does to a word, read in groups of three letters: each token
stays where it was among the others, and between it and the next comes a new one, to which the scale
lets it move (`Grows.getElem?`). So to leave out every second token is to go back a step, and all
tokens that the grammar ever comes to can be read (`Grammar.interleaves`).
-/

namespace Chorale.Harmony

/-- The first of each two. -/
def everySecond {α : Type} : List α → List α
  | [] => []
  | [a] => [a]
  | a :: _ :: rest => a :: everySecond rest

theorem everySecond_map {α β : Type} (f : α → β) (as : List α) :
    everySecond (as.map f) = (everySecond as).map f := by
  fun_induction everySecond as with
  | case1 => rfl
  | case2 => rfl
  | case3 a b rest ih => simp [everySecond, ih]

theorem groups_tokens (scale : Scale) (ds : List (Fin 12)) :
    groups (tokens scale ds) = ds.map (degreeToken scale) := by
  simpa [groups] using groups_tokens_append scale ds []

variable {scale : Scale} {ds ds' : List (Fin 12)}

/-- Each degree stays at its place among the old ones, and behind it comes a move away from it. -/
theorem Grows.getElem? (h : Grows scale ds ds') {k : Nat} (hk : k < ds.length) :
    ds'[2 * k]? = some ds[k] ∧
      ∃ target, ds'[2 * k + 1]? = some target ∧ 1 ≤ scale.score ds[k] target := by
  induction h generalizing k with
  | nil => exact absurd hk (Nat.not_lt_zero k)
  | @cons source target rest grown hmove hrest ih =>
    obtain _ | k := k
    · exact ⟨rfl, target, rfl, hmove⟩
    · exact ih (Nat.lt_of_succ_lt_succ hk)

/-- The degrees that were there are every second one. -/
theorem Grows.everySecond_eq (h : Grows scale ds ds') : everySecond ds' = ds := by
  induction h with
  | nil => rfl
  | cons _ _ ih => rw [everySecond, ih]

/-- The tokens that were there are every second one. -/
theorem Grows.everySecond_groups (h : Grows scale ds ds') :
    (everySecond (groups (tokens scale ds'))).flatten = tokens scale ds := by
  rw [groups_tokens, everySecond_map, h.everySecond_eq, tokens, List.flatMap_def]

theorem parse?_of_mem_groups {token : Word} (h : token ∈ groups (tokens scale ds)) :
    ∃ d, Token.parse? token = some (triadToken scale d) := by
  rw [groups_tokens] at h
  obtain ⟨d, -, rfl⟩ := List.mem_map.1 h
  exact ⟨d, parse?_degreeToken scale d⟩

/-- A pass over any tokens of a scale's triads leaves each of them and puts a move behind it. After
`count` steps from rest there are `2 ^ count` tokens, all of which can be read, and those that a
further step leaves are every second one. Passes and steps come to an end from every state but that
of zeros. -/
theorem Grammar.interleaves (scale : Scale) :
    (∀ (degrees : List (Fin 12)) (r : Rng),
      Draw.WP (fun _ => False) r ((Grammar.ofScale scale).system.rewrite (tokens scale degrees))
        (fun w _ => ∃ grown, w = tokens scale grown ∧ grown.length = 2 * degrees.length ∧
          ∀ (k : Nat) (hk : k < degrees.length), grown[2 * k]? = some degrees[k] ∧
            ∃ target, grown[2 * k + 1]? = some target ∧ 1 ≤ scale.score degrees[k] target) ∧
      (r ≠ ⟨0, 0, 0, 0⟩ → ∃ w r',
        ((Grammar.ofScale scale).system.rewrite (tokens scale degrees)).run r = (.ok w, r'))) ∧
    ∀ (count : Nat) (r : Rng),
      Draw.WP (fun _ => False) r ((Grammar.ofScale scale).system.stepTimes count)
        (fun reached r' => reached.current.length = 3 * 2 ^ count ∧
          (∀ token ∈ groups reached.current, ∃ d, Token.parse? token = some (triadToken scale d)) ∧
          Draw.WP (fun _ => False) r' reached.step (fun next _ =>
            (everySecond (groups next.current)).flatten = reached.current) ∧
          (r' ≠ ⟨0, 0, 0, 0⟩ → ∃ next r'', reached.step.run r' = (.ok next, r''))) ∧
      (r ≠ ⟨0, 0, 0, 0⟩ → ∃ reached r',
        ((Grammar.ofScale scale).system.stepTimes count).run r = (.ok reached, r')) := by
  constructor
  · intro degrees r
    have hpass : Draw.WP (fun _ => False) r ((Grammar.ofScale scale).system.rewrite _) _ :=
      WP.rewrite_tokens (doubled_ofScale scale).isOf degrees r
    refine ⟨hpass.mono ?_, hpass.exists_run_eq_ok fun _ => id⟩
    intro w _ _ ⟨grown, hgrows, hw⟩
    exact ⟨grown, hw, hgrows.length, fun k hk => hgrows.getElem? hk⟩
  · intro count r
    have hsteps : Draw.WP (fun _ => False) r ((Grammar.ofScale scale).system.stepTimes count) _ :=
      WP.stepTimes (doubled_ofScale scale) count r
    refine ⟨hsteps.mono fun reached r' _ hreached => ?_, hsteps.exists_run_eq_ok fun _ => id⟩
    have hstep : Draw.WP (fun _ => False) r' reached.step _ := WP.step_grows hreached r'
    refine ⟨hreached.length, ?_, ?_, hstep.exists_run_eq_ok fun _ => id⟩
    · obtain ⟨ds, hcurrent, -⟩ := hreached.degrees
      intro token htoken
      exact parse?_of_mem_groups (hcurrent ▸ htoken)
    · refine hstep.mono fun next _ _ ⟨_, ds, ds', hgrows, hds, hds'⟩ => ?_
      rw [hds, hds']
      exact hgrows.everySecond_groups

end Chorale.Harmony
