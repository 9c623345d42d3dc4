import Chorale.Rewriting.Rule

/-!
# Contexts in a word

A rule fits at an index of a word if the word can be split there: its left context, its letter and its
right context stand next to each other, with anything before and behind (`fitsAt_iff_split`). The same
is found by cutting out two windows of the word, as long as the contexts, and comparing them
(`Rule.fitsInWindows?`). A window beyond an end of the word cannot be cut out, and none is ever tried
(`fitsInWindows?_eq`).
-/

namespace Chorale

/-! ## Windows -/

/-- The letters of a word from `start` up to `stop`, if it has all of them. -/
def Word.window? (w : Word) (start stop : Nat) : Option Word :=
  if start ≤ stop ∧ stop ≤ w.length then some ((w.drop start).take (stop - start)) else none

/-- How far `b` is below `a`, if it is not above. -/
def difference? (a b : Nat) : Option Nat := if b ≤ a then some (a - b) else none

theorem Word.window?_of_le {w : Word} {start stop : Nat} (hstart : start ≤ stop)
    (hstop : stop ≤ w.length) : w.window? start stop = some ((w.drop start).take (stop - start)) :=
  if_pos ⟨hstart, hstop⟩

theorem difference?_of_le {a b : Nat} (h : b ≤ a) : difference? a b = some (a - b) := if_pos h

namespace Rule

/-- Whether the letters before an index end in the left context. -/
def leftFits? (rule : Rule) (w : Word) (index : Nat) : Option Bool :=
  if index < rule.left.length then some false
  else do
    let start ← difference? index rule.left.length
    let window ← w.window? start index
    pure (window == rule.left)

/-- Whether the letters after an index begin with the right context. -/
def rightFits? (rule : Rule) (w : Word) (index : Nat) : Option Bool :=
  let start := index + 1
  if w.length < start + rule.right.length then some false
  else do
    let window ← w.window? start (start + rule.right.length)
    pure (window == rule.right)

/-- Whether the rule can replace the letter at an index of a word, found by comparing windows. -/
def fitsInWindows? (rule : Rule) (contextual : Bool) (w : Word) (index : Nat) : Option Bool :=
  if w[index]? ≠ some rule.letter then some false
  else if !contextual then some true
  else do
    if ← rule.leftFits? w index then rule.rightFits? w index else pure false

variable {rule : Rule} {w : Word} {index : Nat}

/-! ## What stands around a letter -/

theorem fitsAt_true_iff :
    rule.fitsAt true w index = true ↔
      w[index]? = some rule.letter ∧ rule.left <:+ w.take index ∧ rule.right <+: w.drop (index + 1) := by
  rw [fitsAt, Site.at?_eq, Option.any_map]
  cases w[index]? with
  | none => simp
  | some c => simp [fits_true_iff]

theorem fitsAt_false_iff : rule.fitsAt false w index = true ↔ w[index]? = some rule.letter := by
  rw [fitsAt, Site.at?_eq, Option.any_map]
  cases w[index]? with
  | none => simp
  | some c => simp [fits_false_iff]

theorem fitsAt_iff_split :
    rule.fitsAt true w index = true ↔ ∃ before behind,
      w = before ++ rule.left ++ [rule.letter] ++ rule.right ++ behind ∧
        before.length + rule.left.length = index := by
  rw [fitsAt_true_iff]
  constructor
  · rintro ⟨hletter, ⟨before, hbefore⟩, ⟨behind, hbehind⟩⟩
    obtain ⟨hlt, hget⟩ := List.getElem?_eq_some_iff.1 hletter
    refine ⟨before, behind, ?_, ?_⟩
    · calc w = w.take index ++ w.drop index := (List.take_append_drop index w).symm
        _ = w.take index ++ rule.letter :: w.drop (index + 1) := by
          rw [List.drop_eq_getElem_cons hlt, hget]
        _ = before ++ rule.left ++ [rule.letter] ++ rule.right ++ behind := by
          rw [← hbefore, ← hbehind]
          simp
    · rw [← List.length_append, hbefore, List.length_take, Nat.min_eq_left (Nat.le_of_lt hlt)]
  · rintro ⟨before, behind, rfl, rfl⟩
    have hsplit : before ++ rule.left ++ [rule.letter] ++ rule.right ++ behind =
        (before ++ rule.left) ++ rule.letter :: (rule.right ++ behind) := by simp
    rw [hsplit, ← List.length_append]
    refine ⟨by simp, ?_, ?_⟩
    · rw [List.take_left]
      exact List.suffix_append ..
    · rw [List.drop_length_add_append]
      exact List.prefix_append ..

/-! ## No window is beyond an end -/

theorem leftFits?_eq (rule : Rule) (h : index ≤ w.length) :
    ∃ fits, rule.leftFits? w index = some fits ∧ (fits = true ↔ rule.left <:+ w.take index) := by
  have hlength : (w.take index).length = index := List.length_take_of_le h
  unfold leftFits?
  by_cases hlt : index < rule.left.length
  · refine ⟨false, if_pos hlt, ?_⟩
    simp only [Bool.false_eq_true, false_iff]
    intro hsuffix
    have := hsuffix.length_le
    omega
  · have hle : rule.left.length ≤ index := Nat.not_lt.1 hlt
    rw [if_neg hlt, difference?_of_le hle]
    show ∃ fits, (Word.window? w (index - rule.left.length) index).bind _ = _ ∧ _
    rw [Word.window?_of_le (Nat.sub_le ..) h]
    refine ⟨_, rfl, ?_⟩
    rw [beq_iff_eq, List.suffix_iff_eq_drop, hlength, List.drop_take, eq_comm]

theorem rightFits?_eq (rule : Rule) (h : index < w.length) :
    ∃ fits, rule.rightFits? w index = some fits ∧
      (fits = true ↔ rule.right <+: w.drop (index + 1)) := by
  unfold rightFits?
  by_cases hlt : w.length < index + 1 + rule.right.length
  · refine ⟨false, if_pos hlt, ?_⟩
    simp only [Bool.false_eq_true, false_iff]
    intro hprefix
    have := hprefix.length_le
    rw [List.length_drop] at this
    omega
  · have hle : index + 1 + rule.right.length ≤ w.length := Nat.not_lt.1 hlt
    simp only [if_neg hlt, Word.window?_of_le (Nat.le_add_right ..) hle]
    refine ⟨_, rfl, ?_⟩
    rw [beq_iff_eq, List.prefix_iff_eq_take, Nat.add_sub_cancel_left, eq_comm]

theorem fitsAt_eq_false (contextual : Bool) (h : w[index]? ≠ some rule.letter) :
    rule.fitsAt contextual w index = false := by
  rw [Bool.eq_false_iff]
  intro hfits
  cases contextual with
  | false => exact h (fitsAt_false_iff.1 hfits)
  | true => exact h (fitsAt_true_iff.1 hfits).1

theorem fitsInWindows?_eq (rule : Rule) (contextual : Bool) (w : Word) (index : Nat) :
    rule.fitsInWindows? contextual w index = some (rule.fitsAt contextual w index) := by
  unfold fitsInWindows?
  by_cases hletter : w[index]? = some rule.letter
  · rw [if_neg (not_not_intro hletter)]
    cases contextual with
    | false => rw [fitsAt_false_iff.2 hletter]; rfl
    | true =>
      obtain ⟨hlt, -⟩ := List.getElem?_eq_some_iff.1 hletter
      obtain ⟨left, hleft, hleft'⟩ := leftFits?_eq rule (Nat.le_of_lt hlt)
      obtain ⟨right, hright, hright'⟩ := rightFits?_eq rule hlt
      have hfits : rule.fitsAt true w index = (left && right) := by
        rw [Bool.eq_iff_iff, fitsAt_true_iff, Bool.and_eq_true, hleft', hright']
        simp [hletter]
      rw [hleft, hright, hfits]
      cases left <;> rfl
  · rw [if_pos hletter, fitsAt_eq_false contextual hletter]

/-- With contexts a rule fits just where the word can be split around it; without, where the letter
is the rule's. Comparing windows finds the same, for every index, and never asks for letters that the
word does not have or for a negative start. -/
theorem fitsAt_splits (rule : Rule) (w : Word) (index : Nat) :
    (rule.fitsAt true w index = true ↔ ∃ before behind,
      w = before ++ rule.left ++ [rule.letter] ++ rule.right ++ behind ∧
        before.length + rule.left.length = index) ∧
    (rule.fitsAt false w index = true ↔ w[index]? = some rule.letter) ∧
    ∀ contextual, rule.fitsInWindows? contextual w index = some (rule.fitsAt contextual w index) :=
  ⟨fitsAt_iff_split, fitsAt_false_iff, fun contextual => fitsInWindows?_eq rule contextual w index⟩

end Rule

end Chorale
