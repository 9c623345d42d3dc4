import Chorale.Proofs.Harmony.Filling
import Chorale.Proofs.Melody.Growth

/-!
# Grammars that are used again

A grammar remembers nothing of its uses. Whatever is done with it, it comes back to the same grammar
at rest (`Melody.Grammar.reset_afterUses`, `Harmony.Grammar.isOf_afterRequests`), and a melody or a
progression is always grown from rest. So it is the one that a new grammar would give, and leaves the
generator as that would (`grammars_forget`).
-/

namespace Chorale

/-- What a draw that changes a thing leaves of it: what it gives besides its value, or the thing as it
was if the draw fails. -/
def Draw.leftOr {α β : Type} (x : Draw (α × β)) (thing : β) (r : Rng) : β :=
  match x.run r with
  | (.ok (_, left), _) => left
  | (.error _, _) => thing

theorem Draw.leftOr_of_ok {α β : Type} {x : Draw (α × β)} {a : α} {left : β} {r r' : Rng}
    (h : x.run r = (.ok (a, left), r')) (thing : β) : x.leftOr thing r = left := by
  rw [leftOr, h]

theorem Draw.leftOr_of_error {α β : Type} {x : Draw (α × β)} {e : Failure} {r r' : Rng}
    (h : x.run r = (.error e, r')) (thing : β) : x.leftOr thing r = thing := by
  rw [leftOr, h]

/-! ## Melodies -/

namespace Melody.Grammar

/-- What can be done with a grammar of melodies. -/
inductive Use where
  | step
  | generate (count : Nat)
  | reset

variable {grammar grown left : Grammar} {melody : Word} {count : Nat} {r r' : Rng}

/-- The grammar as several steps leave it that draw from the state `r` on. The first one that fails
ends them, and the grammar stays as it was before that. -/
def leaveSteps (grammar : Grammar) (r : Rng) : Nat → Grammar
  | 0 => grammar
  | count + 1 =>
    match grammar.step.run r with
    | (.ok grown, r') => grown.leaveSteps r' count
    | (.error _, _) => grammar

/-- The grammar as a use leaves it that draws from the state `r` on. -/
def leave (grammar : Grammar) (r : Rng) : Use → Grammar
  | .step => grammar.leaveSteps r 1
  | .generate count => grammar.reset.leaveSteps r count
  | .reset => grammar.reset

/-- The grammar after uses, each of which draws from some state. -/
def afterUses (grammar : Grammar) (uses : List (Use × Rng)) : Grammar :=
  uses.foldl (fun grammar (use, r) => grammar.leave r use) grammar

/-- A step leads away from the same rest. -/
theorem reset_of_step (h : grammar.step.run r = (.ok grown, r')) : grown.reset = grammar.reset := by
  obtain ⟨attempts, r₁, -, h⟩ := Draw.run_bind_eq_ok_iff.1 h
  cases h
  rfl

theorem steps_of_step (h : grammar.step.run r = (.ok grown, r')) :
    grown.system.steps = grammar.system.steps + 1 := by
  obtain ⟨attempts, r₁, -, h⟩ := Draw.run_bind_eq_ok_iff.1 h
  cases h
  rfl

theorem steps_of_stepTimes (h : (grammar.stepTimes count).run r = (.ok grown, r')) :
    grown.system.steps = grammar.system.steps + count := by
  induction count generalizing grammar r with
  | zero => cases h; rfl
  | succ count ih =>
    obtain ⟨next, r₁, hstep, h⟩ := Draw.run_bind_eq_ok_iff.1 h
    rw [ih h, steps_of_step hstep]
    omega

/-- A melody is grown in as many steps as were asked for. -/
theorem steps_of_generate (h : (grammar.generate count).run r = (.ok (melody, left), r')) :
    left.system.steps = count := by
  obtain ⟨grown, r₁, hsteps, h⟩ := Draw.run_bind_eq_ok_iff.1 h
  cases h
  rw [steps_of_stepTimes hsteps]
  exact Nat.zero_add count

/-- Steps that do not fail leave the grammar that they give. -/
theorem leaveSteps_of_stepTimes (h : (grammar.stepTimes count).run r = (.ok grown, r')) :
    grammar.leaveSteps r count = grown := by
  induction count generalizing grammar r with
  | zero => cases h; rfl
  | succ count ih =>
    obtain ⟨next, r₁, hstep, h⟩ := Draw.run_bind_eq_ok_iff.1 h
    simp only [leaveSteps, hstep]
    exact ih h

/-- So does growing a melody. -/
theorem leave_generate (h : (grammar.generate count).run r = (.ok (melody, left), r')) :
    grammar.leave r (.generate count) = left := by
  obtain ⟨grown, r₁, hsteps, h⟩ := Draw.run_bind_eq_ok_iff.1 h
  cases h
  exact leaveSteps_of_stepTimes hsteps

theorem reset_leaveSteps (grammar : Grammar) (r : Rng) (count : Nat) :
    (grammar.leaveSteps r count).reset = grammar.reset := by
  induction count generalizing grammar r with
  | zero => rfl
  | succ count ih =>
    rw [leaveSteps]
    split
    case h_1 grown r' hstep => rw [ih, reset_of_step hstep]
    case h_2 => rfl

theorem reset_leave (grammar : Grammar) (r : Rng) (use : Use) :
    (grammar.leave r use).reset = grammar.reset := by
  cases use with
  | step => exact reset_leaveSteps grammar r 1
  | generate count => exact reset_leaveSteps grammar.reset r count
  | reset => rfl

/-- Whatever was done with a grammar, it comes to the same rest. -/
theorem reset_afterUses (grammar : Grammar) (uses : List (Use × Rng)) :
    (grammar.afterUses uses).reset = grammar.reset := by
  induction uses generalizing grammar with
  | nil => rfl
  | cons use uses ih =>
    have hfirst := reset_leave grammar use.2 use.1
    exact (ih (grammar.leave use.2 use.1)).trans hfirst

/-- Melodies are grown from rest. -/
theorem generate_congr {grammar' : Grammar} (h : grammar.reset = grammar'.reset) (count : Nat) :
    grammar.generate count = grammar'.generate count := by
  rw [generate, generate, h]

end Melody.Grammar

/-! ## Progressions -/

namespace Harmony

/-- The grammar as a request for a progression leaves it that draws from the state `r` on. One that
is refused, because no word is so long, does not change it. -/
def Grammar.leave (grammar : Grammar) (r : Rng) (required : UInt64) : Grammar :=
  (grammar.progression required).leftOr grammar r

/-- The grammar after requests, each of which draws from some state. -/
def Grammar.afterRequests (grammar : Grammar) (requests : List (UInt64 × Rng)) : Grammar :=
  requests.foldl (fun grammar (required, r) => grammar.leave r required) grammar

variable {scale : Scale} {grammar : Grammar}

/-- Completed or stalled, a progression leaves a grammar of the same scale. -/
theorem Grammar.isOf_leave (h : IsOf scale grammar.system) (r : Rng) (required : UInt64) :
    IsOf scale (grammar.leave r required).system := by
  have hwp : Draw.WP (fun _ => True) r (grammar.progression required)
      fun x _ => IsOf scale x.2.system :=
    .mono (WP.progression h (fun _ => trivial) (fun _ _ => trivial) r) fun _ _ _ h => h.1
  rw [leave]
  rcases hrun : (grammar.progression required).run r with ⟨_ | ⟨outcome, left⟩, r'⟩
  · rw [Draw.leftOr_of_error hrun]
    exact h
  · rw [Draw.leftOr_of_ok hrun]
    exact (hwp.of_ok hrun).2

/-- Whatever was asked of a grammar, it comes to the same rest. -/
theorem Grammar.isOf_afterRequests (h : IsOf scale grammar.system) (requests : List (UInt64 × Rng)) :
    IsOf scale (grammar.afterRequests requests).system := by
  induction requests generalizing grammar with
  | nil => exact h
  | cons request requests ih =>
    have hfirst := isOf_leave h request.2 request.1
    rw [afterRequests, List.foldl_cons]
    exact ih hfirst

/-- Runs are grown from rest, so that the system matters only as far as it is left again. -/
theorem fst_fill_congr {system system' : RewriteSystem} (h : system.reset = system'.reset)
    (required : Nat) (laid : Word) :
    (·.1) <$> fill required laid system = (·.1) <$> fill required laid system' := by
  unfold fill
  rw [h]
  split
  · rfl
  · simp only [map_pure]

theorem Grammar.fst_progression_congr {grammar' : Grammar}
    (h : grammar.system.reset = grammar'.system.reset) (required : UInt64) :
    (·.1) <$> grammar.progression required = (·.1) <$> grammar'.progression required := by
  have hfill (grammar : Grammar) : (·.1) <$> grammar.progression required =
      (closedLength required : Draw UInt64) >>= fun _ =>
        (·.1) <$> fill required.toNat [] grammar.system := by
    simp only [progression, ← bind_pure_comp, bind_assoc]
    rfl
  rw [hfill, hfill, fst_fill_congr h]

end Harmony

/-! ## All grammars -/

/-- Whatever was done with a grammar before and from whatever states that drew, a melody grown from it
is the one that a new grammar of the same word gives, in as many steps as were asked for, and a
progression is the one that a new grammar of the same scale gives or stalls as that does. The
generator is left in the same state. -/
theorem grammars_forget (word : Word) (barTicks : UInt32)
    (uses : List (Melody.Grammar.Use × Rng)) (count : Nat) (scale : Scale)
    (requests : List (UInt64 × Rng)) (required : UInt64) (r : Rng) :
    (((Melody.Grammar.ofWord word barTicks).afterUses uses).generate count).run r =
        ((Melody.Grammar.ofWord word barTicks).generate count).run r ∧
      (∀ melody left r',
        (((Melody.Grammar.ofWord word barTicks).afterUses uses).generate count).run r =
          (.ok (melody, left), r') → left.system.steps = count) ∧
      ((·.1) <$> ((Harmony.Grammar.ofScale scale).afterRequests requests).progression required).run r =
        ((·.1) <$> (Harmony.Grammar.ofScale scale).progression required).run r := by
  have hmelody := Melody.Grammar.reset_afterUses (.ofWord word barTicks) uses
  have hscale : Harmony.IsOf scale (Harmony.Grammar.ofScale scale).system := rfl
  have hharmony := Harmony.Grammar.isOf_afterRequests hscale requests
  refine ⟨?_, fun melody left r' h => Melody.Grammar.steps_of_generate h, ?_⟩
  · rw [Melody.Grammar.generate_congr hmelody]
  · rw [Harmony.Grammar.fst_progression_congr (hharmony.trans hscale.symm)]

end Chorale
