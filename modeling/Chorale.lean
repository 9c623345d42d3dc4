import Chorale.Archive
import Chorale.CommandLine.Run
import Chorale.Failure.Message
import Chorale.Json.Reader
import Chorale.Json.Writer
import Chorale.Main
import Chorale.Proofs.Rewriting.Pass
import Chorale.Proofs.Melody.Pulse
import Chorale.Proofs.Melody.Growth
import Chorale.Proofs.Harmony.Doubling
import Chorale.Proofs.Harmony.Filling
import Chorale.Proofs.Melody.Score
import Chorale.Proofs.Track.Line
import Chorale.Proofs.Melody.Performance
import Chorale.Proofs.Harmony.Decoding
import Chorale.Proofs.Settings.Check
import Chorale.Proofs.Form.Order
import Chorale.Proofs.Piece.Phrases
import Chorale.Proofs.Piece.Playing
import Chorale.Proofs.Piece.Composing
import Chorale.Proofs.Melody.Agreement
import Chorale.Proofs.Chord.Tones
import Chorale.Proofs.Melody.Solo
import Chorale.Proofs.Piece.Repetition
import Chorale.Proofs.Piece.Chords
import Chorale.Proofs.Draw.Agree
import Chorale.Proofs.Piece.Likeness
import Chorale.Proofs.Piece.Transposition
import Chorale.Proofs.Piece.Renaming
import Chorale.Proofs.Midi.Layout
import Chorale.Proofs.Midi.Reader
import Chorale.Proofs.Midi.Encoding
import Chorale.Proofs.Midi.RoundTrip
import Chorale.Proofs.Midi.Outcome
import Chorale.Proofs.Piece.Encoding
import Chorale.Proofs.Rewriting.Reuse
import Chorale.Proofs.Rng.Permutation
import Chorale.Proofs.Chord.Range
import Chorale.Proofs.Melody.Reach
import Chorale.Proofs.Piece.Room
import Chorale.Proofs.Piece.Closing
import Chorale.Proofs.Chord.Nearest
import Chorale.Proofs.Track.Order
import Chorale.Proofs.Melody.Places
import Chorale.Proofs.Harmony.Interleaving
import Chorale.Proofs.Rewriting.Concatenation
import Chorale.Proofs.Rewriting.Letters
import Chorale.Proofs.Melody.Attempts
import Chorale.Proofs.Melody.Size
import Chorale.Proofs.Draw.Uniform
import Chorale.Proofs.Draw.Inclusive
import Chorale.Proofs.Draw.Proportion
import Chorale.Proofs.Rewriting.Contexts
import Chorale.Proofs.Harmony.Reading
import Chorale.Proofs.Settings.Overflow
import Chorale.Proofs.Draw.PowerOfTwo
import Chorale.Proofs.Json.RoundTrip
import Chorale.Proofs.Archive.RoundTrip
import Chorale.Proofs.Draw.Ending
