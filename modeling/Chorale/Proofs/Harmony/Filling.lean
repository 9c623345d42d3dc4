import Chorale.Harmony.Progression
import Chorale.Proofs.Draw.Stuck
import Chorale.Proofs.Harmony.Doubling
import Mathlib.Data.Nat.BitIndices

/-!
# How progressions are filled

Each run doubles from 6 letters on for as long as it fits, so that it takes the greatest `6 * 2 ^ n`
letters there is room for (`WP.growRun`), in a few steps (`steps_of_growRun`). Laying runs one after another is reading off the binary
digits of a sixth of the room, the highest first (`bitIndices_two_pow_add`): no two runs have one
length, and what is left in the end is less than 6 letters (`WP.fill`). So a progression is
completed if its length is a multiple of 6 and stalls at the last multiple otherwise
(`Grammar.progression_runs`).
-/

namespace Chorale.Harmony

/-- The binary digits of a number, but for the highest. -/
theorem bitIndices_two_pow_add {k m : Nat} (h : m < 2 ^ k) :
    (2 ^ k + m).bitIndices = m.bitIndices ++ [k] := by
  have hsorted : (m.bitIndices ++ [k]).SortedLT := by
    rw [List.sortedLT_iff_pairwise, List.pairwise_append]
    refine ⟨Nat.bitIndices_sorted.pairwise, List.pairwise_singleton _ _, fun i hi j hj => ?_⟩
    cases List.mem_singleton.1 hj
    exact (Nat.pow_lt_pow_iff_right (by decide)).1
      (Nat.lt_of_le_of_lt (Nat.two_pow_le_of_mem_bitIndices hi) h)
  rw [← Nat.bitIndices_sum_map_two_pow hsorted, List.map_append, List.sum_append,
    Nat.sum_map_two_pow_bitIndices]
  simp [Nat.add_comm]

/-! ## Runs -/

/-- A run of the scale's grammar after `n + 1` steps from rest, drawn from a state in the stream
of `r`: it has `6 * 2 ^ n` letters and starts with the tonic. -/
structure IsRun (scale : Scale) (r : Rng) (n : Nat) (run : Word) : Prop where
  length : run.length = 6 * 2 ^ n
  tonic : degreeToken scale 0 <+: run
  steps : ∃ r₁ grown r₂, r.Leads r₁ ∧ grown.current = run ∧
    ((Grammar.ofScale scale).system.stepTimes (n + 1)).run r₁ = (.ok grown, r₂)

section

variable {scale : Scale} {system : RewriteSystem} {r r₁ r' : Rng} {n : Nat} {run : Word}

theorem IsRun.of_leads (hr : r.Leads r') (h : IsRun scale r' n run) : IsRun scale r n run := by
  obtain ⟨r₁, grown, r₂, hr₁, hcurrent, hsteps⟩ := h.steps
  exact ⟨h.length, h.tonic, r₁, grown, r₂, hr.trans hr₁, hcurrent, hsteps⟩

theorem IsRun.of_doubled (hr : r.Leads r₁) (h : Doubled scale (n + 1) system)
    (hsteps : ((Grammar.ofScale scale).system.stepTimes (n + 1)).run r₁ = (.ok system, r')) :
    IsRun scale r n system.current where
  length := by rw [h.length, Nat.pow_succ']; omega
  tonic := by
    obtain ⟨_ | ⟨d, ds⟩, hcurrent, -, hhead⟩ := h.degrees
    · cases hhead
    · cases hhead
      rw [hcurrent]
      exact List.prefix_append _ _
  steps := ⟨r₁, system, r', hr, rfl, hsteps⟩

/-- The letters of a run are tokens of the scale. -/
theorem IsRun.degrees (h : IsRun scale r n run) : ∃ ds, run = tokens scale ds := by
  obtain ⟨r₁, grown, r₂, -, rfl, hsteps⟩ := h.steps
  have hwp : Draw.WP (fun _ => True) r₁ _ _ := WP.stepTimes (doubled_ofScale scale) (n + 1) r₁
  obtain ⟨ds, hcurrent, -⟩ := (hwp.of_ok hsteps).2.degrees
  exact ⟨ds, hcurrent⟩

variable {allowed : Failure → Prop}

/-- Once a run has begun it grows for as long as it fits. -/
theorem WP.growRun_of_doubled {room : Nat} (hr : r.Leads r₁) (h : Doubled scale (n + 1) system)
    (hsteps : ((Grammar.ofScale scale).system.stepTimes (n + 1)).run r₁ = (.ok system, r'))
    (hroom : 6 * 2 ^ n ≤ room) :
    Draw.WP allowed r' (growRun room system.current system) fun (run, grown) _ =>
      ∃ k, Doubled scale (k + 2) grown ∧ IsRun scale r k run ∧
        6 * 2 ^ k ≤ room ∧ room < 6 * 2 ^ (k + 1) := by
  induction hmeasure : room - 6 * 2 ^ n using Nat.strong_induction_on generalizing n system r' with
  | _ measure ih =>
    have hlength := h.length
    rw [growRun]
    refine .bind (.mono (WP.step h r').run fun grown r'' _ ⟨hstep, hgrown⟩ => ?_)
    have hsteps' := RewriteSystem.run_stepTimes_succ hsteps hstep
    have hlength' := hgrown.length
    have hpos := Nat.two_pow_pos n
    rw [Nat.pow_succ'] at hlength
    rw [Nat.pow_succ', Nat.pow_succ'] at hlength'
    by_cases hfits : grown.current.length ≤ room
    · rw [dif_pos ⟨by omega, hfits⟩]
      have hroom' : 6 * 2 ^ (n + 1) ≤ room := by rw [Nat.pow_succ']; omega
      exact ih _ (by rw [Nat.pow_succ']; omega) hgrown hsteps' hroom' rfl
    · rw [dif_neg fun hcond => hfits hcond.2]
      exact .pure ⟨n, hgrown, .of_doubled hr h hsteps, hroom, by rw [Nat.pow_succ']; omega⟩

/-- A run takes the most letters that it can, and none only if there is not room for 6. -/
theorem WP.growRun {room : Nat} (h : IsOf scale system) (r : Rng) :
    Draw.WP allowed r (Harmony.growRun room [] system.reset) fun (run, grown) _ =>
      (room < 6 ∧ run = [] ∧ Doubled scale 1 grown) ∨ ∃ k, Doubled scale (k + 2) grown ∧
        IsRun scale r k run ∧ 6 * 2 ^ k ≤ room ∧ room < 6 * 2 ^ (k + 1) := by
  have hrest : Doubled scale 0 system.reset := .atRest h
  rw [Harmony.growRun]
  refine .bind (.mono (WP.step hrest r).run fun grown r' _ ⟨hstep, hgrown⟩ => ?_)
  have hsteps : ((Grammar.ofScale scale).system.stepTimes 1).run r = (.ok grown, r') := by
    refine RewriteSystem.run_stepTimes_succ (Draw.run_pure _ r) ?_
    rw [← h]
    exact hstep
  have hlength : grown.current.length = 6 := hgrown.length
  by_cases hfits : grown.current.length ≤ room
  · rw [dif_pos ⟨by rw [hlength]; decide, hfits⟩]
    exact .mono (growRun_of_doubled (.refl r) hgrown hsteps (by omega)) fun _ _ _ h => .inr h
  · rw [dif_neg fun hcond => hfits hcond.2]
    exact .pure (.inl ⟨by omega, rfl, hgrown⟩)

/-- The steps of a run are counted from rest, and each doubles it: there are less than 64 of them,
the one too far included, if the room is counted by a number of 64 bits. -/
theorem steps_of_growRun {room : Nat} {grown : RewriteSystem} (h : IsOf scale system)
    (hroom : room < 2 ^ 64)
    (hrun : (Harmony.growRun room [] system.reset).run r = (.ok (run, grown), r')) :
    grown.steps < 64 := by
  have hwp : Draw.WP (fun _ => True) r (Harmony.growRun room [] system.reset) _ := WP.growRun h r
  rcases (hwp.of_ok hrun).2 with ⟨-, -, hgrown⟩ | ⟨k, hgrown, -, hlow, -⟩
  · rw [hgrown.steps_eq]
    decide
  · have hlt : k < 62 := (Nat.pow_lt_pow_iff_right (by decide : 1 < 2)).1 (by omega)
    rw [hgrown.steps_eq]
    omega

/-! ## Filling -/

/-- The runs laid behind `laid` have the lengths that the binary digits of a sixth of the room say,
the highest first; what is left over stalls the progression. -/
theorem WP.fill {required : Nat} {laid : Word} {n m : Nat} (h : IsOf scale system)
    (hrequired : required = laid.length + 6 * n + m) (hm : m < 6) (r : Rng) :
    Draw.WP allowed r (Harmony.fill required laid system) fun (outcome, left) _ =>
      IsOf scale left ∧
        (m = 0 ∧ (∃ runs, List.Forall₂ (IsRun scale r) n.bitIndices.reverse runs ∧
          outcome = .ok (laid ++ runs.flatten ++ cadence)) ∨
        m ≠ 0 ∧ outcome = .error (.stalled (laid.length + 6 * n) required)) := by
  induction n using Nat.strong_induction_on generalizing laid system r with
  | _ n ih =>
    rw [Harmony.fill]
    by_cases hmore : laid.length < required
    · rw [if_pos hmore]
      refine .bind (.mono (WP.growRun h r) fun (run, grown) r' hr hrun => ?_)
      rcases hrun with ⟨hroom, rfl, hgrown⟩ | ⟨k, hgrown, hrun, hlow, hhigh⟩
      · have hn : n = 0 := by omega
        subst hn
        exact .pure ⟨hgrown.isOf, .inr ⟨by omega, rfl⟩⟩
      · have hpos := Nat.two_pow_pos k
        have hrun' : run ≠ [] := fun e => by
          have := hrun.length
          rw [e, List.length_nil] at this
          omega
        rw [Nat.pow_succ'] at hhigh
        obtain ⟨n', rfl⟩ : ∃ n', n = 2 ^ k + n' := ⟨n - 2 ^ k, by omega⟩
        have hlaid : required = (laid ++ run).length + 6 * n' + m := by
          rw [List.length_append, hrun.length]
          omega
        show Draw.WP _ _ (if _ : run = [] then _ else _) _
        rw [dif_neg hrun']
        refine .mono (ih n' (by omega) hgrown.isOf hlaid r') fun (outcome, left) _ _ ⟨hleft, houtcome⟩ => ?_
        refine ⟨hleft, houtcome.imp (And.imp_right ?_) (And.imp_right ?_)⟩
        · rintro ⟨runs, hruns, rfl⟩
          rw [bitIndices_two_pow_add (by omega), List.reverse_append]
          refine ⟨run :: runs, .cons hrun (hruns.imp fun j run' h => h.of_leads hr), ?_⟩
          simp
        · rintro rfl
          rw [List.length_append, hrun.length]
          congr 2
          omega
    · rw [if_neg hmore]
      have hn : n = 0 := by omega
      subst hn
      exact .pure ⟨h, .inl ⟨by omega, [], by simp, by simp⟩⟩

theorem le_greatestLength_iff {n : UInt64} : n ≤ greatestLength ↔ n.toNat < 2 ^ 63 := by
  rw [UInt64.le_iff_toNat_le]
  exact Nat.lt_succ_iff.symm

/-- A progression is begun if a word can be as long as it has to be. -/
theorem WP.closedLength {required : UInt64}
    (hoverflow : 2 ^ 64 ≤ required.toNat + 6 → allowed .overflow)
    (hlong : 2 ^ 63 ≤ required.toNat + 6 → required.toNat + 6 < 2 ^ 64 → allowed .tooLong) :
    Checked.WP allowed (Harmony.closedLength required) fun _ => True := by
  by_cases hfits : required.toNat + 6 < 2 ^ 64
  · obtain ⟨length, hadd, hlength⟩ := Checked.unsigned64.add_eq_ok (a := required) (b := 6) hfits
    have hlength : length.toNat = required.toNat + 6 := hlength
    refine .bind (.of_eq_ok hadd ?_)
    by_cases hle : length ≤ greatestLength
    · rw [if_pos hle]
      exact .ok trivial
    · rw [if_neg hle]
      rw [le_greatestLength_iff] at hle
      exact .error (hlong (by omega) hfits)
  · refine .bind (.mono (.add (hoverflow (by omega)) required 6) fun length hlength => ?_)
    have hlength : (length.toNat : Int) = required.toNat + (6 : Int) := hlength
    have hlt := length.toNat_lt
    omega

/-- A progression of the scale's grammar, wherever that was left. -/
theorem WP.progression {grammar : Grammar} {required : UInt64} (h : IsOf scale grammar.system)
    (hoverflow : 2 ^ 64 ≤ required.toNat + 6 → allowed .overflow)
    (hlong : 2 ^ 63 ≤ required.toNat + 6 → required.toNat + 6 < 2 ^ 64 → allowed .tooLong) (r : Rng) :
    Draw.WP allowed r (grammar.progression required) fun (outcome, left) _ =>
      IsOf scale left.system ∧
        (6 ∣ required.toNat ∧ (∃ runs,
          List.Forall₂ (IsRun scale r) (required.toNat / 6).bitIndices.reverse runs ∧
            outcome = .ok (runs.flatten ++ cadence)) ∨
        ¬ 6 ∣ required.toNat ∧
          outcome = .error (.stalled (required.toNat - required.toNat % 6) required.toNat)) := by
  refine .bind (.lift (.mono (closedLength hoverflow hlong) fun _ _ => ?_))
  have hsplit : required.toNat = ([] : Word).length + 6 * (required.toNat / 6) + required.toNat % 6 := by
    rw [List.length_nil]
    omega
  refine .bind (.mono (fill h hsplit (Nat.mod_lt _ (by decide)) r) fun (outcome, left) _ _ => ?_)
  rintro ⟨hleft, ⟨hm, runs, hruns, rfl⟩ | ⟨hm, rfl⟩⟩
  · exact .pure ⟨hleft, .inl ⟨Nat.dvd_of_mod_eq_zero hm, runs, hruns, rfl⟩⟩
  · refine .pure ⟨hleft, .inr ⟨mt Nat.mod_eq_zero_of_dvd hm, ?_⟩⟩
    rw [List.length_nil]
    congr 2
    omega

end

theorem length_flatten_runs {scale : Scale} {r : Rng} {n : Nat} {runs : List Word}
    (h : List.Forall₂ (IsRun scale r) n.bitIndices.reverse runs) : runs.flatten.length = 6 * n := by
  have hsum {js : List Nat} {runs : List Word} (h : List.Forall₂ (IsRun scale r) js runs) :
      runs.flatten.length = 6 * (js.map (2 ^ ·)).sum := by
    induction h with
    | nil => rfl
    | cons hrun _ ih =>
      rw [List.flatten_cons, List.length_append, hrun.length, ih, List.map_cons, List.sum_cons,
        Nat.mul_add]
  rw [hsum h, List.map_reverse, List.sum_reverse, Nat.sum_map_two_pow_bitIndices]

/-! ## Progressions -/

/-- A progression is completed if its length is a multiple of 6, by one run for each binary digit of
a sixth of the length, and stalls otherwise. If a word can be so long, one of the two is given in
every state but that of zeros. -/
theorem Grammar.progression_runs (scale : Scale) (required : UInt64)
    (h : required.toNat + 6 < 2 ^ 64) (r : Rng) :
    Draw.WP (fun e => e = .tooLong ∧ 2 ^ 63 ≤ required.toNat + 6) r
      ((Grammar.ofScale scale).progression required) (fun (outcome, _) _ =>
        (6 ∣ required.toNat ∧ ∃ runs,
          List.Forall₂ (IsRun scale r) (required.toNat / 6).bitIndices.reverse runs ∧
          outcome = .ok (runs.flatten ++ "08M08M".toList) ∧
          (runs.flatten ++ "08M08M".toList).length = required.toNat + 6) ∨
        (¬ 6 ∣ required.toNat ∧
          outcome = .error (.stalled (required.toNat - required.toNat % 6) required.toNat))) ∧
      (required.toNat + 6 < 2 ^ 63 → r ≠ ⟨0, 0, 0, 0⟩ → ∃ outcome left r',
        ((Grammar.ofScale scale).progression required).run r = (.ok (outcome, left), r')) := by
  have hscale : IsOf scale (Grammar.ofScale scale).system := rfl
  have hwp : Draw.WP (fun e => e = .tooLong ∧ 2 ^ 63 ≤ required.toNat + 6) r
      ((Grammar.ofScale scale).progression required) _ :=
    WP.progression hscale (fun hle => absurd h (by omega)) (fun hle _ => ⟨rfl, hle⟩) r
  constructor
  · refine hwp.mono fun (outcome, left) _ _ => ?_
    rintro ⟨-, ⟨hdvd, runs, hruns, rfl⟩ | hstalled⟩
    · refine .inl ⟨hdvd, runs, hruns, rfl, ?_⟩
      rw [List.length_append, length_flatten_runs hruns, Nat.mul_div_cancel' hdvd]
      rfl
    · exact .inr hstalled
  · intro hroom hr
    have hbegun : ∀ e : Failure, ¬ (e = .tooLong ∧ 2 ^ 63 ≤ required.toNat + 6) := fun e he => by omega
    obtain ⟨⟨outcome, left⟩, r', hrun⟩ := hwp.exists_run_eq_ok hbegun hr
    exact ⟨outcome, left, r', hrun⟩

/-- Eighteen letters are a run of twelve behind one of six. -/
theorem Grammar.progression_runs_eighteen :
    (18 : UInt64).toNat + 6 < 2 ^ 64 ∧ ∃ long short left r',
      ((Grammar.ofScale .minor).progression 18).run ⟨1, 2, 3, 4⟩ =
        (.ok (.ok (long ++ short ++ "08M08M".toList), left), r') ∧
      IsRun .minor ⟨1, 2, 3, 4⟩ 1 long ∧ IsRun .minor ⟨1, 2, 3, 4⟩ 0 short ∧
      (long ++ short ++ "08M08M".toList).length = 24 := by
  have hfits : (18 : UInt64).toNat + 6 < 2 ^ 64 := by decide
  obtain ⟨hruns, hends⟩ := Grammar.progression_runs .minor 18 hfits ⟨1, 2, 3, 4⟩
  obtain ⟨outcome, left, r', hrun⟩ := hends (by decide) (by decide)
  rcases (hruns.of_ok hrun).2 with ⟨-, runs, hruns, rfl, hlength⟩ | ⟨hstalled, -⟩
  · have hdigits : ((18 : UInt64).toNat / 6).bitIndices.reverse = [1, 0] := by decide
    rw [hdigits] at hruns
    obtain ⟨long, _, hlong, hrest, rfl⟩ := List.forall₂_cons_left_iff.1 hruns
    obtain ⟨short, _, hshort, hnone, rfl⟩ := List.forall₂_cons_left_iff.1 hrest
    cases hnone
    rw [List.flatten_cons, List.flatten_cons, List.flatten_nil, List.append_nil] at hrun hlength
    exact ⟨hfits, long, short, left, r', hrun, hlong, hshort, hlength⟩
  · exact absurd (by decide) hstalled

end Chorale.Harmony
