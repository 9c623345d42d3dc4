import Chorale.Json.Lexer

/-!
# Reading JSON

The tokens of a text are read from left to right by an automaton that keeps the arrays and objects
it is inside of, the innermost first. `Json.read` is the value that a whole text stands for.
-/

namespace Chorale.Json

/-- An array or object of which only the beginning has been read. -/
inductive Frame where
  /-- An array after its first items, the last of them first. -/
  | array (items : List Json)
  /-- An object after its first fields, the last of them first, and inside the field of the given
  name. -/
  | object (fields : List (Option Word × Json)) (name : Option Word)

/-- What may come next. -/
inductive Expectation where
  /-- A value. -/
  | value
  /-- The first item of an array, or its end. -/
  | firstItem
  /-- The first field of the innermost object, or its end. -/
  | firstField
  /-- A field after the given ones, the last of them first. -/
  | field (fields : List (Option Word × Json))
  /-- The colon behind the name of a field. -/
  | colon
  /-- A comma, or the end of the innermost array or object. -/
  | separator
  /-- Nothing: the text is the given value. -/
  | nothing (value : Json)

/-- A state of the automaton. -/
structure ReadState where
  expectation : Expectation
  frames : List Frame

/-- The object with the given fields, if their names are texts. -/
def ofFields (fields : List (Option Word × Json)) : Json :=
  match fields.mapM fun field => field.1.map fun name => (name, field.2) with
  | some fields => .object fields
  | none => .other

namespace ReadState

/-- The state after a value has been read inside the given frames. -/
def complete (value : Json) : List Frame → ReadState
  | [] => ⟨.nothing value, []⟩
  | .array items :: frames => ⟨.separator, .array (value :: items) :: frames⟩
  | .object fields name :: frames => ⟨.separator, .object ((name, value) :: fields) name :: frames⟩

/-- The state after the token that begins a value. -/
def beginValue (frames : List Frame) : Token → Option ReadState
  | .openArray => some ⟨.firstItem, .array [] :: frames⟩
  | .openObject => some ⟨.firstField, frames⟩
  | .text (some text) => some (complete (.string text) frames)
  | .text none => some (complete .other frames)
  | .atom value => some (complete value frames)
  | _ => none

/-- The state after a token, if the token may come next. -/
def step (state : ReadState) (token : Token) : Option ReadState :=
  match state.expectation, token, state.frames with
  | .value, token, frames => beginValue frames token
  | .firstItem, .closeArray, .array _ :: frames => some (complete (.array []) frames)
  | .firstItem, token, frames => beginValue frames token
  | .firstField, .closeObject, frames => some (complete (.object []) frames)
  | .firstField, .text name, frames => some ⟨.colon, .object [] name :: frames⟩
  | .field fields, .text name, frames => some ⟨.colon, .object fields name :: frames⟩
  | .colon, .colon, frames => some ⟨.value, frames⟩
  | .separator, .comma, .array items :: frames => some ⟨.value, .array items :: frames⟩
  | .separator, .closeArray, .array items :: frames =>
    some (complete (.array items.reverse) frames)
  | .separator, .comma, .object fields _ :: frames => some ⟨.field fields, frames⟩
  | .separator, .closeObject, .object fields _ :: frames =>
    some (complete (ofFields fields.reverse) frames)
  | _, _, _ => none

/-- The value read, if a whole text has been. -/
def result? (state : ReadState) : Option Json :=
  match state.expectation with
  | .nothing value => some value
  | _ => none

end ReadState

/-- The value that tokens stand for. -/
def ofTokens (tokens : List Token) : Option Json := do
  let state ← tokens.foldlM ReadState.step ⟨.value, []⟩
  state.result?

/-- The value that a text stands for. -/
def read (text : Word) : Option Json := do
  let tokens ← Token.lex text
  ofTokens tokens

end Chorale.Json
