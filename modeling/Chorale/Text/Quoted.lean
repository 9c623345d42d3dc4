import Chorale.Word
import Chorale.Text.Combining
import Chorale.Text.Unprintable

/-!
# Quoted text

A word is shown between quotes so that a reader can tell every letter: what is not printable, or
would be drawn onto the letter before it, is written as an escape. `quoted '"'` shows words and
`quoted '\''` shows single letters, and each leaves the other's quote as it is.
-/

namespace Chorale.Text

/-- A letter between the given quotes. -/
def escaped (quote c : Char) : Word :=
  if c = quote ∨ c = '\\' then ['\\', c]
  else if c = '\x00' then ['\\', '0']
  else if c = '\t' then ['\\', 't']
  else if c = '\r' then ['\\', 'r']
  else if c = '\n' then ['\\', 'n']
  else if isCombining c || !isPrintable c then
    ['\\', 'u', '\x7b'] ++ Nat.toDigits 16 c.toNat ++ ['\x7d']
  else [c]

/-- A word between the given quotes. -/
def quoted (quote : Char) (w : Word) : Word := quote :: w.flatMap (escaped quote) ++ [quote]

end Chorale.Text
