import Chorale.Harmony.Grammar
import Chorale.Melody.Grammar

/-!
# Rewriting a word in two parts

A pass goes from left to right, and at each site it looks at what the contexts of the rules ask for.
If no rule has a right context, a site shows it the letter and what is before (`seesOnly_before`); if
contexts do not count, the letter alone (`seesOnly_letter`). Sites that show the same are rewritten
alike (`rewriteSites_congr`), whatever else stands around them. So a pass over `a ++ b` begins as the
pass over `a` does, and goes on from the state in which that leaves the generator
(`rewrite_append`).
-/

namespace Chorale

namespace Site

/-- The sites of two words one after the other: those of the first have the second behind them, and
those of the second the first before them. -/
theorem ofWordAfter_append (before a b : Word) :
    ofWordAfter before (a ++ b) =
      (ofWordAfter before a).map (fun site => { site with after := site.after ++ b }) ++
        ofWordAfter (a.reverse ++ before) b := by
  induction a generalizing before with
  | nil => rfl
  | cons c a ih => simp [ih]

theorem drop_ofWord_append (a b : Word) :
    (ofWord (a ++ b)).drop a.length = ofWordAfter a.reverse b := by
  have hlength : a.length = (ofWordAfter [] a).length := (length_ofWordAfter [] a).symm
  rw [ofWord, ofWordAfter_append, List.append_nil]
  exact List.drop_left' (by rw [List.length_map, ← hlength])

end Site

/-! ## What rules look at -/

/-- A rule without a right context fits whatever the letters after a site are. -/
theorem Rule.fits_congr_of_right {rule : Rule} (h : rule.right = []) (contextual : Bool)
    {site site' : Site} (hbefore : site.before = site'.before) (hletter : site.letter = site'.letter) :
    rule.fits contextual site = rule.fits contextual site' := by
  simp [Rule.fits, h, hbefore, hletter]

namespace RewriteSystem

variable {α : Type} {system : RewriteSystem} {site site' : Site} {sites sites' : List Site}

/-- What replaces the letters of some sites, one after another. -/
def rewriteSites (system : RewriteSystem) (sites : List Site) : Draw Word := do
  let pieces ← sites.mapM system.rewriteSite
  pure pieces.flatten

theorem rewriteSites_append (system : RewriteSystem) (sites sites' : List Site) :
    system.rewriteSites (sites ++ sites') = (do
      let front ← system.rewriteSites sites
      let back ← system.rewriteSites sites'
      pure (front ++ back)) := by
  simp only [rewriteSites, List.mapM_append, bind_assoc, pure_bind, List.flatten_append]

/-- Sites that `view` does not tell apart are rewritten alike. -/
def SeesOnly (system : RewriteSystem) (view : Site → α) : Prop :=
  ∀ site site', view site = view site' → system.rewriteSite site = system.rewriteSite site'

theorem rewriteSites_congr {view : Site → α} (hview : system.SeesOnly view)
    (h : sites.map view = sites'.map view) : system.rewriteSites sites = system.rewriteSites sites' := by
  have hpieces : sites.mapM system.rewriteSite = sites'.mapM system.rewriteSite := by
    induction sites generalizing sites' with
    | nil => rw [List.map_eq_nil_iff.1 h.symm]
    | cons site sites ih =>
      obtain ⟨site', rest, rfl, hsite, hrest⟩ := List.map_eq_cons_iff.1 h.symm
      rw [List.mapM_cons, List.mapM_cons, hview site site' hsite.symm, ih hrest.symm]
  rw [rewriteSites, rewriteSites, hpieces]

theorem rewriteSite_congr (hletter : site.letter = site'.letter)
    (hfits : ∀ rule ∈ system.rules,
      rule.fits system.contextual site = rule.fits system.contextual site') :
    system.rewriteSite site = system.rewriteSite site' := by
  have hcandidates : system.candidates site = system.candidates site' := List.filter_congr hfits
  rw [rewriteSite, rewriteSite, hcandidates, hletter]

theorem seesOnly_before (h : ∀ rule ∈ system.rules, rule.right = []) :
    system.SeesOnly fun site => (site.before, site.letter) := by
  intro site site' hview
  obtain ⟨hbefore, hletter⟩ := Prod.mk.inj hview
  exact rewriteSite_congr hletter fun rule hmem =>
    Rule.fits_congr_of_right (h rule hmem) _ hbefore hletter

theorem seesOnly_letter (h : system.contextual = false) : system.SeesOnly (·.letter) := by
  intro site site' hletter
  refine rewriteSite_congr hletter fun rule _ => ?_
  have hletter : site.letter = site'.letter := hletter
  simp [Rule.fits, h, hletter]

/-! ## The grammars -/

theorem right_of_mem_melodyRules : ∀ rule ∈ Melody.rules, rule.right = [] := by decide

theorem right_of_mem_harmonyRules (scale : Scale) : ∀ rule ∈ Harmony.rules scale, rule.right = [] := by
  intro rule hmem
  simp only [Harmony.rules, List.mem_flatMap, List.mem_filterMap] at hmem
  obtain ⟨source, -, target, -, hmove⟩ := hmem
  simp only [Harmony.moveRule?] at hmove
  split at hmove <;> cases hmove
  rfl

/-- If no rule has a right context, as none has in the melody grammar and in those of the scales, the
pass over `a ++ b` is the pass over `a` with, behind its word, what replaces the letters of the sites
of `a ++ b` that follow. If contexts do not count, that is the pass over `b`. The second pass begins
in the state in which the first left the generator; and so it is if one of them fails. -/
theorem rewrite_append (system : RewriteSystem) (a b : Word) :
    ((∀ rule ∈ system.rules, rule.right = []) →
      system.rewrite (a ++ b) = do
        let front ← system.rewrite a
        let back ← system.rewriteSites ((Site.ofWord (a ++ b)).drop a.length)
        pure (front ++ back)) ∧
    (system.contextual = false →
      system.rewrite (a ++ b) = do
        let front ← system.rewrite a
        let back ← system.rewrite b
        pure (front ++ back)) ∧
    (∀ rule ∈ Melody.rules, rule.right = []) ∧
    ∀ scale, ∀ rule ∈ Harmony.rules scale, rule.right = [] := by
  refine ⟨fun h => ?_, fun h => ?_, right_of_mem_melodyRules, right_of_mem_harmonyRules⟩
  · have hsites : (Site.ofWord (a ++ b)).map (fun site => (site.before, site.letter)) =
        (Site.ofWord a ++ Site.ofWordAfter a.reverse b).map fun site => (site.before, site.letter) := by
      rw [Site.ofWord, Site.ofWordAfter_append, List.map_append, List.map_append, List.map_map,
        List.append_nil]
      rfl
    rw [Site.drop_ofWord_append]
    exact (rewriteSites_congr (seesOnly_before h) hsites).trans (rewriteSites_append ..)
  · have hsites : (Site.ofWord (a ++ b)).map (·.letter) =
        (Site.ofWord a ++ Site.ofWord b).map (·.letter) := by
      simp only [Site.ofWord, List.map_append, Site.map_letter_ofWordAfter]
    exact (rewriteSites_congr (seesOnly_letter h) hsites).trans (rewriteSites_append ..)

/-- A left context that stands in the first word, and a right context that does not count. -/
theorem rewrite_append_across :
    let bound := RewriteSystem.make ['b'] [⟨['b'], 'a', [], 1, ['c']⟩, ⟨[], 'a', [], 2, ['a', 'b']⟩] true
    let free := RewriteSystem.make ['b'] [⟨['b'], 'a', ['d'], 1, ['c']⟩, ⟨[], 'a', [], 2, ['a', 'b']⟩] false
    ((∀ rule ∈ bound.rules, rule.right = []) ∧
      bound.rewrite (['a', 'b'] ++ ['a']) = do
        let front ← bound.rewrite ['a', 'b']
        let back ← bound.rewriteSites [⟨['b', 'a'], 'a', []⟩]
        pure (front ++ back)) ∧
    (free.contextual = false ∧
      free.rewrite (['a', 'b'] ++ ['a']) = do
        let front ← free.rewrite ['a', 'b']
        let back ← free.rewrite ['a']
        pure (front ++ back)) := by
  intro bound free
  have hbound : ∀ rule ∈ bound.rules, rule.right = [] := by decide
  exact ⟨⟨hbound, (rewrite_append bound ['a', 'b'] ['a']).1 hbound⟩,
    rfl, (rewrite_append free ['a', 'b'] ['a']).2.1 rfl⟩

end RewriteSystem

end Chorale
