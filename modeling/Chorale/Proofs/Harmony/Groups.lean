import Chorale.Harmony.Token
import Mathlib.Data.List.Forall2

/-!
# Groups of three letters

A progression is read in groups of three letters, of which the last may be shorter (`groups`). Letters
that are put together from groups of three fall into these again (`groups_flatten_append`). Reading
goes from group to group (`decodeFrom_eq`), and past groups that are tokens it comes to what is behind
them (`decodeGroups_append`).
-/

namespace Chorale.Harmony

/-- The tokens of a progression. Letters that are left over make a last, shorter one. -/
def groups : Word → List Word
  | [] => []
  | a :: b :: c :: rest => [a, b, c] :: groups rest
  | short => [short]

theorem flatten_groups (w : Word) : (groups w).flatten = w := by
  fun_induction groups w with
  | case1 => rfl
  | case2 a b c rest ih => simp [ih]
  | case3 short => simp

theorem groups_append {group : Word} (h : group.length = 3) (w : Word) :
    groups (group ++ w) = group :: groups w := by
  obtain ⟨a, b, c, rfl⟩ := List.length_eq_three.1 h
  rfl

theorem groups_flatten_append {texts : List Word} (h : ∀ text ∈ texts, text.length = 3) (w : Word) :
    groups (texts.flatten ++ w) = texts ++ groups w := by
  induction texts with
  | nil => rfl
  | cons text texts ih =>
    rw [List.flatten_cons, List.append_assoc, groups_append (h text List.mem_cons_self),
      ih fun text' hmem => h text' (List.mem_cons_of_mem _ hmem), List.cons_append]

theorem groups_flatten {texts : List Word} (h : ∀ text ∈ texts, text.length = 3) :
    groups texts.flatten = texts := by
  simpa [groups] using groups_flatten_append h []

theorem length_eq_of_groups {w : Word} (h : ∀ group ∈ groups w, group.length = 3) :
    w.length = 3 * (groups w).length := by
  have hsum : ((groups w).map List.length).sum = (groups w).length * 3 := by
    rw [List.map_congr_left h, List.map_const', List.sum_replicate_nat]
  rw [← flatten_groups w, List.length_flatten, flatten_groups, hsum, Nat.mul_comm]

/-! ## Reading groups -/

/-- The chords of some groups, the first of which is at `position` of the progression. -/
def decodeGroups (tonic : PitchClass) (position : Nat) : List Word → Except Failure (List Chord)
  | [] => .ok []
  | group :: rest =>
    match Token.parse? group with
    | some token => do
      let chords ← decodeGroups tonic (position + 3) rest
      pure (token.chord tonic :: chords)
    | none => .error (.malformedToken position group)

theorem decodeFrom_eq (tonic : PitchClass) (position : Nat) (w : Word) :
    decodeFrom tonic position w = decodeGroups tonic position (groups w) := by
  fun_induction groups w generalizing position with
  | case1 => rfl
  | case2 a b c rest ih =>
    cases htoken : Token.parse? [a, b, c] with
    | none => simp only [decodeFrom, decodeGroups, htoken]
    | some token => simp only [decodeFrom, decodeGroups, htoken, ih]
  | case3 short hnil hlong =>
    -- A group that is too short is not read either.
    match short with
    | [] => exact absurd rfl hnil
    | [a] => rfl
    | [a, b] => rfl
    | a :: b :: c :: rest => exact absurd rfl (hlong a b c rest)

/-- The group is read as the token. -/
abbrev Spells (group : Word) (token : Token) : Prop := Token.parse? group = some token

/-- Tokens are read as their chords, and what follows them is read behind. -/
theorem decodeGroups_append {front : List Word} {tokens : List Token}
    (h : List.Forall₂ Spells front tokens) (tonic : PitchClass) (position : Nat) (back : List Word) :
    decodeGroups tonic position (front ++ back) = (do
      let chords ← decodeGroups tonic (position + 3 * front.length) back
      pure (tokens.map (·.chord tonic) ++ chords)) := by
  induction h generalizing position with
  | nil =>
    show _ = decodeGroups tonic position back >>= pure
    rw [bind_pure]
    rfl
  | @cons group token front tokens htoken _ ih =>
    have hposition : position + 3 + 3 * front.length = position + 3 * (group :: front).length := by
      rw [List.length_cons]
      omega
    rw [List.cons_append, decodeGroups, htoken]
    simp only [ih, hposition, bind_assoc, pure_bind]
    rfl

end Chorale.Harmony
