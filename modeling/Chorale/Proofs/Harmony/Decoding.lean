import Chorale.Proofs.Harmony.Filling
import Chorale.Proofs.Harmony.Groups

/-!
# Reading progressions

A progression of a scale's grammar is read token by token, whatever the key: the tokens of the
scale's triads are the chords on their degrees (`decodeFrom_tokens`), and the closing ones are two
dominant chords. So no completed progression is malformed, and there is one chord for each three of
its letters (`decode_runs`, `WP.progression_quarters`).
-/

namespace Chorale.Harmony

/-- The token of the scale's triad on a degree, as it is read. -/
def triadToken (scale : Scale) (d : Fin 12) : Token := ⟨UInt8.ofNat d.val, scale.triad d⟩

/-- The token of the closing chords. -/
def dominantToken : Token := ⟨7, .major⟩

theorem parse?_degreeToken (scale : Scale) (d : Fin 12) :
    Token.parse? (degreeToken scale d) = some (triadToken scale d) := by
  cases scale <;> revert d <;> decide

theorem length_degreeToken (scale : Scale) (d : Fin 12) : (degreeToken scale d).length = 3 := by
  rw [degreeToken, List.length_append, length_degreeDigits]
  rfl

theorem groups_tokens_append (scale : Scale) (ds : List (Fin 12)) (w : Word) :
    groups (tokens scale ds ++ w) = ds.map (degreeToken scale) ++ groups w := by
  rw [tokens, List.flatMap_def]
  exact groups_flatten_append (by simp [length_degreeToken]) w

theorem decodeFrom_tokens {tonic : PitchClass} {position : Nat} {scale : Scale}
    {ds : List (Fin 12)} {w : Word} {chords : List Chord}
    (h : decodeFrom tonic (position + 3 * ds.length) w = .ok chords) :
    decodeFrom tonic position (tokens scale ds ++ w) =
      .ok (ds.map (fun d => (triadToken scale d).chord tonic) ++ chords) := by
  have hspells : List.Forall₂ Spells (ds.map (degreeToken scale)) (ds.map (triadToken scale)) := by
    rw [List.forall₂_map_left_iff, List.forall₂_map_right_iff, List.forall₂_same]
    exact fun d _ => parse?_degreeToken scale d
  rw [decodeFrom_eq, groups_tokens_append, decodeGroups_append hspells, List.length_map,
    ← decodeFrom_eq, h, List.map_map]
  rfl

theorem decodeFrom_cadence (tonic : PitchClass) (position : Nat) :
    decodeFrom tonic position cadence =
      .ok [dominantToken.chord tonic, dominantToken.chord tonic] := rfl

/-- Runs laid behind each other are tokens. -/
theorem exists_tokens_of_runs {scale : Scale} {r : Rng} {js : List Nat} {runs : List Word}
    (h : List.Forall₂ (IsRun scale r) js runs) : ∃ ds, runs.flatten = tokens scale ds := by
  induction h with
  | nil => exact ⟨[], rfl⟩
  | cons hrun _ ih =>
    obtain ⟨ds, rfl⟩ := hrun.degrees
    obtain ⟨ds', hrest⟩ := ih
    exact ⟨ds ++ ds', by rw [List.flatten_cons, hrest, tokens_append]⟩

/-- A completed progression is read as chords, two more than its runs have tokens. -/
theorem decode_runs {scale : Scale} {r : Rng} {js : List Nat} {runs : List Word}
    (h : List.Forall₂ (IsRun scale r) js runs) (tonic : PitchClass) :
    ∃ ds : List (Fin 12), 3 * ds.length = runs.flatten.length ∧ decode tonic (runs.flatten ++ cadence) =
      .ok (ds.map (fun d => (triadToken scale d).chord tonic) ++
        [dominantToken.chord tonic, dominantToken.chord tonic]) := by
  obtain ⟨ds, hruns⟩ := exists_tokens_of_runs h
  refine ⟨ds, by rw [hruns, length_tokens], ?_⟩
  rw [hruns]
  exact decodeFrom_tokens (decodeFrom_cadence tonic _)

theorem WP.requiredLength {allowed : Failure → Prop} {quarters : UInt64}
    (hover : 2 ^ 64 ≤ (quarters.toNat - 2) * 3 → allowed .overflow) :
    Checked.WP allowed (Harmony.requiredLength quarters) fun required =>
      required.toNat = (quarters.toNat - 2) * 3 := by
  by_cases hfits : (quarters.toNat - 2) * 3 < 2 ^ 64
  · obtain ⟨required, hrequired⟩ := Checked.unsigned64.exists_size_eq _ hfits
    exact .of_eq_ok (Checked.ofInt_eq_ok_iff.2 (congrArg Int.ofNat hrequired)) hrequired
  · exact .mono (.ofInt (hover (Nat.not_lt.1 hfits)) _) fun _ h => Int.ofNat.inj h

/-- For an even number of quarter notes the progression is completed, and read as one chord for each
of them, of which the last two are dominant. -/
theorem WP.progression_quarters {allowed : Failure → Prop} {quarters : Nat} {required : UInt64}
    (scale : Scale) (tonic : PitchClass) (htwo : 2 ≤ quarters) (heven : 2 ∣ quarters)
    (hrequired : required.toNat = (quarters - 2) * 3)
    (hover : 2 ^ 64 ≤ required.toNat + 6 → allowed .overflow)
    (hlong : 2 ^ 63 ≤ required.toNat + 6 → required.toNat + 6 < 2 ^ 64 → allowed .tooLong) (r : Rng) :
    Draw.WP allowed r ((Grammar.ofScale scale).progression required) fun (outcome, _) _ =>
      ∃ harmony chords, outcome = .ok harmony ∧ harmony.length = 3 * quarters ∧
        decode tonic harmony =
          .ok (chords ++ [dominantToken.chord tonic, dominantToken.chord tonic]) ∧
        chords.length + 2 = quarters := by
  have hscale : IsOf scale (Grammar.ofScale scale).system := rfl
  refine .mono (WP.progression hscale hover hlong r) ?_
  rintro ⟨outcome, _⟩ _ - ⟨-, ⟨hdvd, runs, hruns, rfl⟩ | ⟨hdvd, -⟩⟩
  · have hlength := length_flatten_runs hruns
    rw [Nat.mul_div_cancel' hdvd, hrequired] at hlength
    obtain ⟨ds, hds, hdecode⟩ := decode_runs hruns tonic
    refine ⟨_, _, rfl, ?_, hdecode, ?_⟩
    · rw [List.length_append, hlength, show cadence.length = 6 from rfl]
      omega
    · rw [List.length_map]
      omega
  · exact absurd (by rw [hrequired]; omega) hdvd

end Chorale.Harmony
