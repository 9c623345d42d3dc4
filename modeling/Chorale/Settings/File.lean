import Chorale.Archive
import Chorale.Json.Reader

/-!
# Files of settings

Settings can be kept in a file, as a JSON text in UTF-8. `Settings.load` reads such a file and
refuses settings that cannot be composed with.
-/

namespace Chorale.Settings

/-- The settings that a text gives. -/
def parse (text : Word) : Except Failure Settings :=
  match (Json.read text).bind ofJson? with
  | some settings => .ok settings
  | none => .error .unparsable

/-- The settings in the file with the given contents, if there is a file. -/
def load (contents : Option ByteArray) : Except Failure Settings := do
  match contents.bind String.fromUTF8? with
  | none => throw .unreadable
  | some text =>
    let settings ← parse text.toList
    settings.check
    pure settings

end Chorale.Settings
