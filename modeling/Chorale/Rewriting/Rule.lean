import Chorale.Checked

/-!
# Rewriting rules

A rule replaces one letter of a word, and may ask for letters around it: its *contexts* `left` and
`right` have to stand directly before and after the letter, and are not replaced. A `Site` is a
letter of a word together with what stands around it.
-/

namespace Chorale

/-- A letter of a word, with the letters before it (the nearest first) and after it. -/
structure Site where
  before : Word
  letter : Char
  after : Word

namespace Site

/-- The sites of a word that follows the letters `before`. -/
def ofWordAfter (before : Word) : Word → List Site
  | [] => []
  | c :: after => ⟨before, c, after⟩ :: ofWordAfter (c :: before) after

/-- The sites of a word, from its first letter to its last. -/
def ofWord (w : Word) : List Site := ofWordAfter [] w

/-- The site at an index of a word. -/
def at? (w : Word) (index : Nat) : Option Site :=
  match w.drop index with
  | [] => none
  | c :: after => some ⟨(w.take index).reverse, c, after⟩

@[simp] theorem ofWordAfter_nil (before : Word) : ofWordAfter before [] = [] := rfl

@[simp] theorem ofWordAfter_cons (before : Word) (c : Char) (after : Word) :
    ofWordAfter before (c :: after) = ⟨before, c, after⟩ :: ofWordAfter (c :: before) after := rfl

/-- The letters of a word's sites are the letters of the word. -/
theorem map_letter_ofWordAfter (before w : Word) : (ofWordAfter before w).map (·.letter) = w := by
  induction w generalizing before with
  | nil => rfl
  | cons c after ih => simp [ih]

theorem length_ofWordAfter (before w : Word) : (ofWordAfter before w).length = w.length := by
  rw [← List.length_map (f := (·.letter)), map_letter_ofWordAfter]

theorem at?_eq (w : Word) (index : Nat) :
    at? w index = w[index]?.map fun c => ⟨(w.take index).reverse, c, w.drop (index + 1)⟩ := by
  unfold at?
  by_cases h : index < w.length
  · rw [List.drop_eq_getElem_cons h, List.getElem?_eq_getElem h]
    rfl
  · have hle : w.length ≤ index := Nat.not_lt.1 h
    rw [List.drop_eq_nil_of_le hle, List.getElem?_eq_none hle]
    rfl

/-- At its site a letter stands between what is before and what is after it. -/
theorem eq_of_mem_ofWordAfter {before w : Word} {site : Site} (h : site ∈ ofWordAfter before w) :
    before.reverse ++ w = site.before.reverse ++ site.letter :: site.after := by
  induction w generalizing before with
  | nil => simp at h
  | cons c after ih =>
    rcases List.mem_cons.1 (ofWordAfter_cons .. ▸ h) with rfl | h
    · rfl
    · simpa using ih h

end Site

/-- A rule that replaces `letter`, between `left` and `right`, by `successor`. Among rules for the
same site each is as likely as its weight says. -/
structure Rule where
  left : Word
  letter : Char
  right : Word
  weight : UInt32
  successor : Word
deriving DecidableEq

namespace Rule

/-- A rule, whose weight must be positive. -/
def make (left : Word) (letter : Char) (right : Word) (weight : UInt32) (successor : Word) :
    Except Failure Rule :=
  if weight = 0 then .error .weightlessRule else .ok ⟨left, letter, right, weight, successor⟩

/-- Whether the rule can replace the letter of a site. Contexts count only if `contextual`. -/
def fits (rule : Rule) (contextual : Bool) (site : Site) : Bool :=
  site.letter == rule.letter
    && (!contextual
      || rule.left.reverse.isPrefixOf site.before && rule.right.isPrefixOf site.after)

/-- Whether the rule can replace the letter at an index of a word. -/
def fitsAt (rule : Rule) (contextual : Bool) (w : Word) (index : Nat) : Bool :=
  (Site.at? w index).any (rule.fits contextual)

variable {rule : Rule} {contextual : Bool} {site : Site}

theorem fits_true_iff :
    rule.fits true site = true ↔
      site.letter = rule.letter ∧ rule.left.reverse <+: site.before ∧ rule.right <+: site.after := by
  simp [fits]

theorem fits_false_iff : rule.fits false site = true ↔ site.letter = rule.letter := by
  simp [fits]

theorem letter_of_fits (h : rule.fits contextual site = true) : site.letter = rule.letter := by
  cases contextual with
  | false => exact fits_false_iff.1 h
  | true => exact (fits_true_iff.1 h).1

end Rule

end Chorale
