/-!
# Words

A word is a finite list of letters. Grammars rewrite words, melodies and progressions are words,
and every text that the library prints is built as one.
-/

namespace Chorale

/-- A finite list of letters. -/
abbrev Word := List Char

namespace Word

/-- The decimal digits of `n`, most significant first. -/
def ofNat (n : Nat) : Word := Nat.toDigits 10 n

/-- The decimal digits of `n`, after a minus sign if it is negative. -/
def ofInt : Int → Word
  | .ofNat n => ofNat n
  | .negSucc n => '-' :: ofNat (n + 1)

/-- The words one after another, with `separator` between neighbours. -/
def join (separator : Word) (words : List Word) : Word := (words.intersperse separator).flatten

/-- The first line of a word, without the line feed that ends it or the carriage return and line
feed that do. The end of the word ends a line as a line feed does. -/
def firstLine (w : Word) : Word :=
  let line := w.takeWhile (· ≠ '\n')
  if line.getLast? = some '\r' then line.dropLast else line

theorem firstLine_prefix (w : Word) : firstLine w <+: w := by
  have h : w.takeWhile (· ≠ '\n') <+: w := List.takeWhile_prefix _
  simp only [firstLine]
  split
  · exact (List.dropLast_prefix _).trans h
  · exact h

theorem lineFeed_notMem_firstLine (w : Word) : '\n' ∉ firstLine w := by
  have h : '\n' ∉ w.takeWhile (· ≠ '\n') := fun hm => by
    simpa using List.all_eq_true.1 (List.all_takeWhile (p := (· ≠ '\n'))) _ hm
  simp only [firstLine]
  split
  · exact fun hm => h (List.dropLast_subset _ hm)
  · exact h

end Word

end Chorale
