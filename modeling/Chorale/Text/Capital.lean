import Chorale.Word

/-!
# Capital letters

Names of pitches and scales are compared in capital letters. `capitals` gives the Latin capitals of
a character, so far as they are all among `A` to `Z`: these are the small letters `a` to `z`, the
dotless i, the long s, the sharp s and the seven ligatures. Any other character stays as it is,
which is enough to compare with a name in plain capitals: no such name holds it, or any capital
of it.
-/

namespace Chorale.Text

/-- The plain capitals of a character, or the character itself if it has none. -/
def capitals (c : Char) : Word :=
  match c with
  | 'ı' => ['I']
  | 'ſ' => ['S']
  | 'ß' => ['S', 'S']
  | 'ﬀ' => ['F', 'F']
  | 'ﬁ' => ['F', 'I']
  | 'ﬂ' => ['F', 'L']
  | 'ﬃ' => ['F', 'F', 'I']
  | 'ﬄ' => ['F', 'F', 'L']
  | 'ﬅ' => ['S', 'T']
  | 'ﬆ' => ['S', 'T']
  | c => [c.toUpper]

/-- The word in plain capitals. -/
def capitalize (w : Word) : Word := w.flatMap capitals

end Chorale.Text
