import Chorale.Midi.Quantity
import Mathlib.Algebra.Group.Nat.Defs

/-!
# The layout of MIDI files

What the bytes of a Standard MIDI File say, apart from how any program writes or reads them: a
relation for each part of a file, from quantities (`SaysQuantity`) through events (`SaysEvent`),
tracks (`SaysTrack`) and chunks (`SaysChunks`) to the whole file (`SaysFile`). One file can be
spelled in several ways: quantities may have leading zeros, a status byte may be repeated or left
out, and chunks of an unknown kind may stand anywhere behind the header. A reader conforms to the
layout if it gives what a file says, however it is spelled (`Conforming`).
-/

namespace Chorale.Midi

/-! ## What a file says -/

/-- What happens in a track of a file. -/
inductive FileEvent where
  /-- A message to the instruments of a channel: its status byte and the data behind it. -/
  | message (status : UInt8) (data : Bytes)
  /-- A message to the instruments of one maker. -/
  | exclusive (kind : UInt8) (contents : Bytes)
  /-- A remark about the track. -/
  | remark (kind : UInt8) (contents : Bytes)
deriving DecidableEq

/-- The events of a track, each with the time since the one before. -/
abbrev FileTrack := List (Nat × FileEvent)

/-- How the times of a file are counted. -/
inductive Division where
  /-- So many ticks are a quarter note. -/
  | quarter (ticks : Nat)
  /-- So many frames are a second, and so many ticks a frame. -/
  | second (frames ticks : Nat)
deriving DecidableEq

/-- What a file says. -/
structure File where
  format : Nat
  division : Division
  tracks : List FileTrack
deriving DecidableEq

namespace FileEvent

/-- Whether the event is the remark that a track is over. -/
def isFinish : FileEvent → Bool
  | .remark kind _ => kind = 0x2f
  | _ => false

/-- The remark that a track is over. -/
def finish : FileEvent := .remark 0x2f []

end FileEvent

/-! ## Numbers -/

/-- The number that bytes stand for, the most significant first. -/
def value (bytes : Bytes) : Nat := bytes.foldl (fun n byte => 256 * n + byte.toNat) 0

/-- The bytes say a number of fixed size. -/
structure SaysNumber (size n : Nat) (bytes : Bytes) : Prop where
  length : bytes.length = size
  value : value bytes = n

/-- The bytes are the digits of a number in base 128, and all but the last have the high bit set. -/
inductive Digits : Nat → Bytes → Prop
  | last {byte : UInt8} (h : byte.toNat < 128) : Digits byte.toNat [byte]
  | cons {n : Nat} {byte : UInt8} {bytes : Bytes} (h : 128 ≤ byte.toNat) (rest : Digits n bytes) :
    Digits ((byte.toNat - 128) * 128 ^ bytes.length + n) (byte :: bytes)

/-- The bytes say a quantity, which has at most four. -/
structure SaysQuantity (n : Nat) (bytes : Bytes) : Prop where
  digits : Digits n bytes
  length : bytes.length ≤ 4

/-! ## Events -/

/-- How many bytes of data stand behind a status byte. -/
def dataLength (status : UInt8) : Nat := if 0xc0 ≤ status ∧ status < 0xe0 then 1 else 2

/-- The data belong to the status byte of a message. -/
structure IsMessage (status : UInt8) (data : Bytes) : Prop where
  range : 0x80 ≤ status ∧ status < 0xf0
  length : data.length = dataLength status
  low : ∀ byte ∈ data, byte < 0x80

/-- The bytes say an event, of which the time stands before them. The status byte of a message may be
left out where it is still in force; other events end its force. -/
inductive SaysEvent : (running : Option UInt8) → FileEvent → Bytes → (running' : Option UInt8) → Prop
  | message {running : Option UInt8} {status : UInt8} {data : Bytes} (h : IsMessage status data) :
    SaysEvent running (.message status data) (status :: data) (some status)
  | running {status : UInt8} {data : Bytes} (h : IsMessage status data) :
    SaysEvent (some status) (.message status data) data (some status)
  | exclusive {running : Option UInt8} {kind : UInt8} {contents size : Bytes}
    (hkind : kind = 0xf0 ∨ kind = 0xf7) (hsize : SaysQuantity contents.length size) :
    SaysEvent running (.exclusive kind contents) (kind :: (size ++ contents)) none
  | remark {running : Option UInt8} {kind : UInt8} {contents size : Bytes} (hkind : kind < 0x80)
    (hsize : SaysQuantity contents.length size) :
    SaysEvent running (.remark kind contents) (0xff :: kind :: (size ++ contents)) none

/-- The bytes say the rest of a track, which is over with the remark that it is, and not before. -/
inductive SaysTrack : (running : Option UInt8) → FileTrack → Bytes → Prop
  | finish {running running' : Option UInt8} {delta : Nat} {time bytes : Bytes}
    (hdelta : SaysQuantity delta time) (hfinish : SaysEvent running .finish bytes running') :
    SaysTrack running [(delta, .finish)] (time ++ bytes)
  | cons {running running' : Option UInt8} {delta : Nat} {event : FileEvent} {later : FileTrack}
    {time bytes rest : Bytes} (hdelta : SaysQuantity delta time)
    (hevent : SaysEvent running event bytes running') (hfinish : event.isFinish = false)
    (hlater : SaysTrack running' later rest) :
    SaysTrack running ((delta, event) :: later) (time ++ (bytes ++ rest))

/-! ## Chunks -/

/-- The tag of the chunk that opens a file (`MThd`). -/
def headerTag : Bytes := [0x4d, 0x54, 0x68, 0x64]

/-- The tag of the chunk of a track (`MTrk`). -/
def trackTag : Bytes := [0x4d, 0x54, 0x72, 0x6b]

/-- The bytes are a chunk: four bytes of tag, four of size and the contents. -/
inductive SaysChunk : (tag contents : Bytes) → Bytes → Prop
  | intro {tag contents size : Bytes} (htag : tag.length = 4)
    (hsize : SaysNumber 4 contents.length size) : SaysChunk tag contents (tag ++ (size ++ contents))

/-- The bytes say the tracks of a file, between which there may be chunks of another kind. -/
inductive SaysChunks : List FileTrack → Bytes → Prop
  | nil : SaysChunks [] []
  | track {track : FileTrack} {later : List FileTrack} {contents bytes rest : Bytes}
    (htrack : SaysTrack none track contents) (hchunk : SaysChunk trackTag contents bytes)
    (hlater : SaysChunks later rest) : SaysChunks (track :: later) (bytes ++ rest)
  | other {later : List FileTrack} {tag contents bytes rest : Bytes} (hheader : tag ≠ headerTag)
    (htrack : tag ≠ trackTag) (hchunk : SaysChunk tag contents bytes)
    (hlater : SaysChunks later rest) : SaysChunks later (bytes ++ rest)

/-! ## Files -/

/-- Two bytes say how times are counted. -/
inductive SaysDivision : Division → Bytes → Prop
  | quarter {ticks : Nat} {bytes : Bytes} (hpos : 0 < ticks) (hticks : ticks < 0x8000)
    (h : SaysNumber 2 ticks bytes) : SaysDivision (.quarter ticks) bytes
  | second {frames ticks : UInt8} (hframes : frames ∈ [0xe8, 0xe7, 0xe3, 0xe2]) :
    SaysDivision (.second (256 - frames.toNat) ticks.toNat) [frames, ticks]

/-- The bytes say a file: a header, which may be longer than what is known of it, and the tracks. A
file of format 0 has just one. -/
inductive SaysFile : File → Bytes → Prop
  | intro {file : File} {format count division extra header tracks : Bytes}
    (hformat : SaysNumber 2 file.format format) (hknown : file.format ≤ 2)
    (hcount : SaysNumber 2 file.tracks.length count)
    (hsingle : file.format = 0 → file.tracks.length = 1)
    (hdivision : SaysDivision file.division division)
    (hheader : SaysChunk headerTag (format ++ (count ++ (division ++ extra))) header)
    (htracks : SaysChunks file.tracks tracks) : SaysFile file (header ++ tracks)

/-- The reader gives what a file says, however it is spelled. -/
def Conforming (read : Bytes → Option File) : Prop :=
  ∀ ⦃file : File⦄ ⦃bytes : Bytes⦄, SaysFile file bytes → read bytes = some file

end Chorale.Midi
