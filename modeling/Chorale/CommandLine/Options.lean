import Chorale.Scale

/-!
# Arguments of the command line

`Request.ofArguments` reads the arguments: the tonic, the scale, the form and perhaps a name, and
among them options. An option takes its value from the same argument (`--seed=5`, `-s5`, `-s=5`) or
from the next one, and none may be given twice. After `--` all arguments are taken as they are.
-/

namespace Chorale.CommandLine

/-- What to compose and where to put it. -/
structure Options where
  tonic : PitchClass
  scale : Scale
  form : Word
  name : Word
  seed : Option UInt64
  /-- The file with the settings. -/
  config : Option Word
  /-- The file to write. -/
  output : Option Word
  /-- Whether to print an overview of the piece. -/
  summary : Bool

/-- What the arguments ask for. -/
inductive Request where
  | compose (options : Options)
  | version
  | help
  /-- The arguments are refused. -/
  | refused

/-- What has been read of the arguments. -/
structure Draft where
  tonic : Option PitchClass
  scale : Option Scale
  form : Option Word
  name : Option Word
  seed : Option UInt64
  config : Option Word
  output : Option Word
  summary : Bool

namespace Draft

def empty : Draft := ⟨none, none, none, none, none, none, none, false⟩

/-- The draft with the next argument that is not an option, if it is in order. -/
def place (draft : Draft) (argument : Word) : Option Draft :=
  match draft.tonic, draft.scale, draft.form, draft.name with
  | none, _, _, _ => do
    let tonic ← (PitchClass.ofName argument).toOption
    pure { draft with tonic := some tonic }
  | _, none, _, _ => do
    let scale ← (Scale.ofName argument).toOption
    pure { draft with scale := some scale }
  | _, _, none, _ => some { draft with form := some argument }
  | _, _, _, none => some { draft with name := some argument }
  | _, _, _, _ => none

/-- The draft with all the arguments as they are, if they are in order. -/
def placeAll (draft : Draft) (arguments : List Word) : Option Draft := arguments.foldlM place draft

/-- What a finished draft asks for. -/
def finish (draft : Draft) : Request :=
  match draft.tonic, draft.scale, draft.form with
  | some tonic, some scale, some form =>
    .compose ⟨tonic, scale, form, draft.name.getD "piece".toList, draft.seed, draft.config,
      draft.output, draft.summary⟩
  | _, _, _ => .refused

end Draft

/-- The number that decimal digits stand for, perhaps after a plus sign. -/
def seed? (w : Word) : Option UInt64 :=
  let digits := match w with
    | '+' :: digits => digits
    | digits => digits
  if !digits.isEmpty && digits.all Char.isDigit then
    FixedWidth.ofInt? (Nat.ofDigitChars 10 digits 0)
  else none

/-- An option that takes a value. -/
inductive ValueOption where
  | seed
  | config
  | output

namespace ValueOption

/-- The option with a long name. -/
def ofName? (name : Word) : Option ValueOption :=
  if name = "seed".toList then some .seed
  else if name = "config".toList then some .config
  else if name = "output".toList then some .output
  else none

/-- The option with a short name. -/
def ofLetter? : Char → Option ValueOption
  | 's' => some .seed
  | 'c' => some .config
  | 'o' => some .output
  | _ => none

/-- The draft with the option, unless it has it already or the value is none for the option. -/
def give (option : ValueOption) (value : Word) (draft : Draft) : Option Draft :=
  match option with
  | .seed => do
    let seed ← seed? value
    if draft.seed.isNone then some { draft with seed := some seed } else none
  | .config =>
    if draft.config.isNone ∧ value ≠ [] then some { draft with config := some value } else none
  | .output =>
    if draft.output.isNone ∧ value ≠ [] then some { draft with output := some value } else none

end ValueOption

/-- One argument. -/
inductive Argument where
  /-- `--`: no options follow. -/
  | endOfOptions
  | version
  | help
  | summary
  /-- An option, perhaps with its value. -/
  | valueOption (option : ValueOption) (value : Option Word)
  | plain (argument : Word)
  | unknown

/-- The argument that begins with two hyphens and goes on with a name and perhaps a value. -/
def Argument.ofLong (w : Word) : Argument :=
  let name := w.takeWhile (· ≠ '=')
  let value := match w.dropWhile (· ≠ '=') with
    | [] => none
    | _ :: value => some value
  match ValueOption.ofName? name with
  | some option => .valueOption option value
  | none =>
    if value.isSome then .unknown
    else if name = "summary".toList then .summary
    else if name = "version".toList then .version
    else if name = "help".toList then .help
    else .unknown

/-- The argument that begins with one hyphen and goes on with a letter and perhaps a value. -/
def Argument.ofShort (letter : Char) (rest : Word) : Argument :=
  match ValueOption.ofLetter? letter with
  | some option =>
    .valueOption option <| match rest with
      | [] => none
      | '=' :: value => some value
      | value => some value
  | none =>
    if letter = 'V' then .version
    else if letter = 'h' then .help
    else .unknown

/-- Whether the argument begins like an option. -/
def isOption : Word → Bool
  | '-' :: _ :: _ => true
  | _ => false

/-- The argument that a word is. -/
def Argument.ofWord : Word → Argument
  | ['-', '-'] => .endOfOptions
  | '-' :: '-' :: rest => .ofLong rest
  | '-' :: letter :: rest => .ofShort letter rest
  | argument => .plain argument

/-- What the draft and the remaining arguments ask for. -/
def Draft.read (draft : Draft) : List Word → Request
  | [] => draft.finish
  | first :: rest =>
    match Argument.ofWord first with
    | .endOfOptions => ((draft.placeAll rest).map Draft.finish).getD .refused
    | .version => .version
    | .help => .help
    | .summary => if draft.summary then .refused else { draft with summary := true }.read rest
    | .valueOption option (some value) =>
      match option.give value draft with
      | some draft => draft.read rest
      | none => .refused
    | .valueOption option none =>
      match rest with
      | [] => .refused
      | value :: rest =>
        if isOption value then .refused
        else match option.give value draft with
          | some draft => draft.read rest
          | none => .refused
    | .plain argument =>
      match draft.place argument with
      | some draft => draft.read rest
      | none => .refused
    | .unknown => .refused

/-- What the arguments ask for. -/
def Request.ofArguments (arguments : List Word) : Request := Draft.empty.read arguments

end Chorale.CommandLine
