import Chorale.CommandLine.Options
import Chorale.Midi.File
import Chorale.Piece.Compose
import Chorale.Piece.Summary
import Chorale.Rounding
import Chorale.Settings.File

/-!
# The command

`run` does what the arguments ask for: it composes a piece, tells about it, and writes it to a MIDI
file. It reaches files, the clock and the output only through its `Surroundings`, so that it can be
run and reasoned about anywhere.
-/

namespace Chorale.CommandLine

/-- What the command can do besides computing. -/
structure Surroundings (m : Type → Type) where
  /-- The contents of a file, if it can be read. -/
  fetch : Word → m (Option ByteArray)
  /-- Writes a file, and says whether it could be written. -/
  store : Word → Midi.Bytes → m Bool
  print : Word → m Unit
  /-- A seed that differs from run to run. -/
  clockSeed : m UInt64

/-- How the command ends. -/
inductive Exit where
  | success
  /-- The arguments are refused. -/
  | refused
  /-- Something could not be done, for the given reason. -/
  | failed (action : Word) (reason : Failure)
  /-- The library was used outside its contract. -/
  | crashed (fault : Failure)

/-- The exit code. -/
def Exit.code : Exit → Nat
  | .success => 0
  | .failed _ _ => 1
  | .refused => 2
  | .crashed _ => 101

/-- What could not be done, in one line. -/
def Exit.headline? : Exit → Option Word
  | .failed action _ => some action.firstLine
  | _ => none

section

variable {m : Type → Type} [Monad m]

/-- The result of an action, without which the command ends. -/
def expect {α : Type} (action : Word) : Except Failure α → ExceptT Exit m α
  | .ok a => pure a
  | .error failure =>
    throw (if failure.isFault then .crashed failure else .failed action failure)

/-- Prints a line. -/
def printLine (surroundings : Surroundings m) (line : Word) : ExceptT Exit m Unit :=
  surroundings.print (line ++ ['\n'])

/-- The settings in the named file, or the default ones. -/
def loadSettings (surroundings : Surroundings m) : Option Word → ExceptT Exit m Settings
  | none => pure .default
  | some path => do
    let contents ← surroundings.fetch path
    expect ("loading config ".toList ++ path) (Settings.load contents)

/-- Prints what is going to be composed. -/
def printHeader (surroundings : Surroundings m) (options : Options) (seed : UInt64) :
    ExceptT Exit m Unit := do
  printLine surroundings "=== Arbor Music Composer ===".toList
  printLine surroundings ("Piece: ".toList ++ options.name)
  printLine surroundings ("Key: ".toList ++ options.tonic.name ++ [' '] ++ options.scale.name)
  printLine surroundings ("Structure: ".toList ++ options.form)
  printLine surroundings ("Seed: ".toList ++ Word.ofNat seed.toNat)
  printLine surroundings []
  printLine surroundings "[1/2] Composing...".toList

/-- The line on the phrase at a place. -/
def phraseLine (piece : Piece) (place : Nat) (phrase : Phrase) : Word :=
  "  Phrase ".toList ++ Text.quoted '\x27' [phrase.symbol] ++ ": ".toList
    ++ Word.ofNat phrase.bars.toNat ++ " bar(s), ".toList ++ Word.ofNat phrase.chords.length
    ++ " chord(s), played ".toList ++ Word.ofNat (piece.order.count place) ++ ['x']

/-- Prints what has been composed. -/
def printPiece (surroundings : Surroundings m) (piece : Piece) : ExceptT Exit m Unit := do
  (piece.phrases.mapIdx (phraseLine piece)).forM (printLine surroundings)
  let notes := (piece.sequence.tracks.map (·.noteCount)).foldl (· + ·) 0
  let bars ← expect [] piece.totalBars
  printLine surroundings
    ("  ".toList ++ Word.ofNat bars.toNat ++ " bars + final chord, ".toList ++ Word.ofNat notes
      ++ " notes across ".toList ++ Word.ofNat piece.sequence.tracks.length ++ " voices".toList)

/-- Prints an overview of the piece. -/
def printSummary (surroundings : Surroundings m) (piece : Piece) : ExceptT Exit m Unit := do
  printLine surroundings []
  let summary ← expect [] piece.summary
  surroundings.print summary
  printLine surroundings []

/-- How long a sequence lasts, in seconds. -/
def seconds (sequence : Sequence) (settings : Settings) : Nat :=
  roundHalfEven (60 * sequence.endTick.toNat)
    (settings.ticksPerQuarter.toNat * settings.tempo.toNat)

/-- Writes a sequence to a file. -/
def writePiece (surroundings : Surroundings m) (settings : Settings) (sequence : Sequence)
    (path : Word) : ExceptT Exit m Unit := do
  printLine surroundings ("[2/2] Writing MIDI to ".toList ++ path ++ "...".toList)
  let action := "writing ".toList ++ path
  let bytes ← expect action (Midi.encode sequence settings.tempo)
  let written ← surroundings.store path bytes
  expect action (if written then .ok () else .error .unwritable)
  printLine surroundings
    ("  Done! Duration: ".toList ++ Word.ofNat (seconds sequence settings) ++ "s at ".toList
      ++ Word.ofNat settings.tempo.toNat ++ " BPM".toList)

/-- Composes a piece and writes it. -/
def composeAndWrite (surroundings : Surroundings m) (options : Options) :
    ExceptT Exit m Unit := do
  let settings ← loadSettings surroundings options.config
  let seed ← match options.seed with
    | some seed => pure seed
    | none => surroundings.clockSeed
  printHeader surroundings options seed
  let composed := (compose options.tonic options.scale options.form settings).run (.ofSeed seed)
  let piece ← expect "composition failed".toList composed.1
  printPiece surroundings piece
  if options.summary then printSummary surroundings piece
  writePiece surroundings settings piece.sequence
    (options.output.getD (options.name ++ ".mid".toList))

/-- Does what the arguments ask for. -/
def run (surroundings : Surroundings m) (arguments : List Word) : m Exit :=
  match Request.ofArguments arguments with
  | .refused => pure .refused
  | .version => do
    surroundings.print "compose 0.1.0\n".toList
    pure .success
  | .help => do
    surroundings.print
      "compose [OPTIONS] <TONIC> <SCALE> <STRUCTURE> [NAME]\n".toList
    pure .success
  | .compose options => do
    let result ← (composeAndWrite surroundings options).run
    match result with
    | .ok () => pure .success
    | .error exit => pure exit

end

end Chorale.CommandLine
