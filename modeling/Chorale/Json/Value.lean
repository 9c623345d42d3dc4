import Chorale.Word

/-!
# JSON values

The values that a JSON text stands for. Objects keep the order of their fields, and any that bear
the same name. Of a value that the library has no use for, only its being there is kept.
-/

namespace Chorale

/-- A JSON value. -/
inductive Json where
  | null
  | bool (value : Bool)
  /-- A number that is written as an integer. -/
  | integer (value : Int)
  | string (text : Word)
  | array (items : List Json)
  | object (fields : List (Word × Json))
  /-- Any other value: a number that is not written as an integer, negative zero, or a value that
  contains an escape for no character. -/
  | other

namespace Json

/-- The parts that a JSON text is made of, apart from blanks. -/
inductive Token where
  | openArray
  | closeArray
  | openObject
  | closeObject
  | comma
  | colon
  /-- A string, unless it contains an escape for no character. -/
  | text (text : Option Word)
  /-- A value that is neither a string nor composed of other values. -/
  | atom (value : Json)

/-! ## Letters -/

/-- Whether the character may stand between tokens. -/
def isSpace (c : Char) : Bool := c = ' ' ∨ c = '\n' ∨ c = '\t' ∨ c = '\r'

/-- The token that a character stands for by itself. -/
def punctuation? : Char → Option Token
  | '[' => some .openArray
  | ']' => some .closeArray
  | '\x7b' => some .openObject
  | '\x7d' => some .closeObject
  | ',' => some .comma
  | ':' => some .colon
  | _ => none

/-- The characters that have an escape of one letter, with that letter. -/
def shortEscapes : List (Char × Char) :=
  [('"', '"'), ('\\', '\\'), ('\x08', 'b'), ('\x0c', 'f'), ('\n', 'n'), ('\r', 'r'), ('\t', 't')]

end Json

end Chorale
