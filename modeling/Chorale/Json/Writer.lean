import Chorale.Json.Value

/-!
# Writing JSON

`Json.write` writes a value without blanks. In strings only what has to be escaped is: quotes,
backslashes and control characters.
-/

namespace Chorale.Json

/-- A character in a string. -/
def escape (c : Char) : Word :=
  match shortEscapes.find? (·.1 = c) with
  | some (_, letter) => ['\\', letter]
  | none =>
    if c.toNat < 0x20 then
      "\\u00".toList ++ [Nat.digitChar (c.toNat / 16), Nat.digitChar (c.toNat % 16)]
    else [c]

/-- A string between quotes. -/
def quote (text : Word) : Word := '"' :: text.flatMap escape ++ ['"']

/-- A value that is not composed of other values. Of one that is not known, something that reads
as such a value is written: negative zero. -/
def writeAtom : Json → Word
  | .null => "null".toList
  | .bool true => "true".toList
  | .bool false => "false".toList
  | .integer value => Word.ofInt value
  | _ => "-0".toList

/-- A token. -/
def Token.write : Token → Word
  | .openArray => ['[']
  | .closeArray => [']']
  | .openObject => ['\x7b']
  | .closeObject => ['\x7d']
  | .comma => [',']
  | .colon => [':']
  | .text (some w) => quote w
  | .text none => "\"\\ud800\"".toList
  | .atom value => writeAtom value

mutual

/-- The tokens of a value. -/
def tokens : Json → List Token
  | .string text => [.text (some text)]
  | .array items => .openArray :: itemTokens items ++ [.closeArray]
  | .object fields => .openObject :: fieldTokens fields ++ [.closeObject]
  | value => [.atom value]

/-- The tokens of the items of an array. -/
def itemTokens : List Json → List Token
  | [] => []
  | [item] => tokens item
  | item :: items => tokens item ++ .comma :: itemTokens items

/-- The tokens of the fields of an object. -/
def fieldTokens : List (Word × Json) → List Token
  | [] => []
  | [(name, value)] => .text (some name) :: .colon :: tokens value
  | (name, value) :: fields =>
    .text (some name) :: .colon :: tokens value ++ .comma :: fieldTokens fields

end

/-- The text of a value. -/
def write (value : Json) : Word := value.tokens.flatMap Token.write

end Chorale.Json
