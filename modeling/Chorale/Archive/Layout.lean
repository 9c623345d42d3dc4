import Chorale.Checked
import Chorale.Json.Value

/-!
# Layouts of archived values

How records, choices, numbers and texts are kept as JSON. A record is an object with its fields in
order; it may be read from an object with the fields in any order and others among them, or from the
array of its fields. A choice is kept by its name.
-/

namespace Chorale.Json

/-! ## Records -/

/-- The record with the given fields. -/
def ofRecord (fields : List (String × Json)) : Json :=
  .object (fields.map fun field => (field.1.toList, field.2))

/-- The only field of a name, if there is one. Two fields must not have the same name. -/
def onlyField? (fields : List (Word × Json)) (name : String) : Option (Option Json) :=
  match fields.filter (·.1 = name.toList) with
  | [] => some none
  | [field] => some (some field.2)
  | _ => none

/-- The fields of a record with the given names, so far as they are there. -/
def fields? (names : List String) : Json → Option (List (Option Json))
  | .object fields => names.mapM (onlyField? fields)
  | .array items =>
    if items.length ≤ names.length then
      some (items.map some ++ List.replicate (names.length - items.length) none)
    else none
  | _ => none

/-- The fields of a record with the given names, which must all be there. -/
def record? (names : List String) (json : Json) : Option (List Json) := do
  let fields ← fields? names json
  fields.mapM id

/-! ## Choices -/

/-- The name of a choice: a string, or an object of one field that is null. -/
def choice? : Json → Option Word
  | .string name => some name
  | .object [(name, .null)] => some name
  | _ => none

/-! ## Numbers, texts and lists -/

/-- A number of fixed width. -/
def ofFixed {α : Type} [FixedWidth α] (a : α) : Json := .integer (FixedWidth.toInt a)

/-- The number of fixed width that is kept. -/
def fixed? {α : Type} [FixedWidth α] : Json → Option α
  | .integer value => FixedWidth.ofInt? value
  | _ => none

/-- The text that is kept. -/
def text? : Json → Option Word
  | .string text => some text
  | _ => none

/-- The only character of the text that is kept. -/
def char? : Json → Option Char
  | .string [c] => some c
  | _ => none

/-- The values of a list that is kept. -/
def list? {α : Type} (value? : Json → Option α) : Json → Option (List α)
  | .array items => items.mapM value?
  | _ => none

end Chorale.Json
