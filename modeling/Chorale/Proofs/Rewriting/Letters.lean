import Chorale.Proofs.Draw.Stuck
import Chorale.Proofs.Rewriting.Pass

/-!
# A pass, letter by letter

A pass over a word is described by the pieces that it puts in the places of the letters and by the
states of the generator between them (`RewriteSystem.IsPass`). The letter at an index is replaced by
the successor of a rule, which one draw by weight chooses among those that fit the letter in the
word, or it stays and nothing is drawn, if none of these has a weight. Every pass is of this kind
(`RewriteSystem.rewrite_letterwise`): what was put before a letter does not matter to it.
-/

namespace Chorale

namespace Site

/-- The sites of a word that follows the letters `before`, by their index. -/
theorem getElem?_ofWordAfter (before w : Word) (index : Nat) :
    (ofWordAfter before w)[index]? =
      (at? w index).map fun site => { site with before := site.before ++ before } := by
  induction w generalizing before index with
  | nil => simp [at?]
  | cons c w ih =>
    cases index with
    | zero => rfl
    | succ index =>
      rw [ofWordAfter_cons, List.getElem?_cons_succ, ih]
      simp only [at?, List.drop_succ_cons]
      split <;> simp

theorem getElem?_ofWord (w : Word) (index : Nat) : (ofWord w)[index]? = at? w index := by
  rw [ofWord, getElem?_ofWordAfter]
  simp

theorem letter_getElem_ofWord (w : Word) (index : Nat) (h : index < (ofWord w).length)
    (h' : index < w.length) : (ofWord w)[index].letter = w[index] := by
  have hletters : ((ofWord w).map (·.letter))[index]? = w[index]? := by
    rw [ofWord, map_letter_ofWordAfter]
  rw [List.getElem?_map, List.getElem?_eq_getElem h, List.getElem?_eq_getElem h'] at hletters
  exact Option.some.inj hletters

end Site

namespace RewriteSystem

variable {system : RewriteSystem} {w : Word} {index : Nat} {site : Site}

/-- The rules that fit the letter at an index of a word, in the order of the system. -/
def candidatesAt (system : RewriteSystem) (w : Word) (index : Nat) : List Rule :=
  system.rules.filter (·.fitsAt system.contextual w index)

theorem candidatesAt_eq (h : Site.at? w index = some site) :
    system.candidatesAt w index = system.candidates site :=
  List.filter_congr fun rule _ => by simp [Rule.fitsAt, h]

/-- Passing over `w` the system puts `pieces` in the places of the letters. The turn of the letter at
an index comes in the state `state index` of the generator, and leaves the next. -/
structure IsPass (system : RewriteSystem) (w : Word) (pieces : List Word) (state : Nat → Rng) :
    Prop where
  length_eq : pieces.length = w.length
  puts : ∀ index (h : index < w.length) (h' : index < pieces.length),
    Puts (system.candidatesAt w index) w[index] (state index) pieces[index] (state (index + 1))

theorem IsPass.of_inTurn {pieces : List Word} {r r' : Rng}
    (h : Draw.InTurn (fun r site => Puts (system.candidates site) site.letter r) r (Site.ofWord w)
      pieces r') :
    ∃ state, state 0 = r ∧ state w.length = r' ∧ system.IsPass w pieces state := by
  have hsites : (Site.ofWord w).length = w.length := Site.length_ofWordAfter [] w
  obtain ⟨state, hfirst, hlast, hlength, hturns⟩ := h.exists_states
  refine ⟨state, hfirst, hsites ▸ hlast, hlength.trans hsites, fun index hi hi' => ?_⟩
  have hi'' : index < (Site.ofWord w).length := hsites ▸ hi
  have hsite : Site.at? w index = some (Site.ofWord w)[index] := by
    rw [← Site.getElem?_ofWord, List.getElem?_eq_getElem hi'']
  rw [candidatesAt_eq hsite, ← Site.letter_getElem_ofWord w index hi'' hi]
  exact hturns index hi'' hi'

/-- The result of a pass, whatever the rules and their weights are, is made of one piece for each
letter, as `IsPass` says; only in the state of zeros may a draw never end. No sum of weights overflows on the way, and
nothing of the system but its rules matters: no word of the system and no count is read, and a pass
gives only a word. -/
theorem rewrite_letterwise (system : RewriteSystem) (hrules : system.rules.length < 2 ^ 32)
    (w : Word) (r : Rng) :
    (∀ index, ∃ total,
      Checked.sum 0 ((system.candidatesAt w index).map (·.weight.toUInt64)) = .ok total) ∧
    Draw.WP (fun _ => False) r (system.rewrite w) (fun w' r' =>
      ∃ pieces state, w' = pieces.flatten ∧ state 0 = r ∧ state w.length = r' ∧
        system.IsPass w pieces state) ∧
    (r ≠ ⟨0, 0, 0, 0⟩ → ∃ w' r', (system.rewrite w).run r = (.ok w', r')) ∧
    ∀ other : RewriteSystem, other.rules = system.rules → other.contextual = system.contextual →
      other.rewrite w = system.rewrite w := by
  have hpass : Draw.WP (fun _ => False) r (system.rewrite w) _ := WP.rewrite_inTurn hrules w r
  refine ⟨fun index => ?_, ?_, hpass.exists_run_eq_ok fun _ => id, fun other hsame hcontextual => ?_⟩
  · have hsum := weightSum_filter_lt hrules (·.fitsAt system.contextual w index)
    obtain ⟨total, htotal, -⟩ := Checked.unsigned64.sum_eq_ok 0 _ ((Nat.zero_add _).trans_lt hsum)
    exact ⟨total, htotal⟩
  · refine hpass.mono fun w' r' _ ⟨pieces, hw', hturns⟩ => ?_
    obtain ⟨state, hfirst, hlast, hpass⟩ := IsPass.of_inTurn hturns
    exact ⟨pieces, state, hw', hfirst, hlast, hpass⟩
  · obtain ⟨start, current, rules, contextual, steps⟩ := system
    cases hsame
    cases hcontextual
    rfl

/-- Contexts that overlap, and a rule without a weight beside others that fit the same letter. -/
theorem rewrite_letterwise_overlapping :
    let system := RewriteSystem.make ['a'] [⟨['a'], 'a', ['a'], 3, ['x', 'y']⟩, ⟨[], 'a', [], 0, ['z']⟩,
      ⟨['a', 'a'], 'a', [], 2, []⟩, ⟨[], 'b', [], 0, ['z']⟩] true
    system.rules.length < 2 ^ 32 ∧ ∃ w' r' pieces state,
      (system.rewrite ['a', 'a', 'a', 'b']).run ⟨1, 2, 3, 4⟩ = (.ok w', r') ∧ w' = pieces.flatten ∧
        state 0 = ⟨1, 2, 3, 4⟩ ∧ state 4 = r' ∧ system.IsPass ['a', 'a', 'a', 'b'] pieces state := by
  intro system
  have hrules : system.rules.length < 2 ^ 32 := by decide
  obtain ⟨-, hpass, hends, -⟩ := rewrite_letterwise system hrules ['a', 'a', 'a', 'b'] ⟨1, 2, 3, 4⟩
  obtain ⟨w', r', hrun⟩ := hends (by decide)
  obtain ⟨-, pieces, state, hw', hfirst, hlast, hputs⟩ := hpass.of_ok hrun
  exact ⟨hrules, w', r', pieces, state, hrun, hw', hfirst, hlast, hputs⟩

end RewriteSystem

end Chorale
