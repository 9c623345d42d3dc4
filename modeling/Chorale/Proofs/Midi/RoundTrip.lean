import Chorale.Proofs.Midi.Encoding
import Chorale.Proofs.Midi.Reader

/-!
# Reading back what was written

`encode` writes a sequence, and a reader that conforms to the layout of MIDI files gives it back
(`read_encode`): a track with the tempo, and for each track of the sequence one with the same note
events at the same ticks and, for the first four, the name of the voice (`Tells`).
-/

namespace Chorale.Midi

/-! ## What a track tells -/

/-- A note message on one of the channels. -/
structure NoteMessage where
  channel : Nat
  kind : EventKind
  key : UInt8
  velocity : UInt8
deriving DecidableEq

/-- The word of bytes in ASCII. -/
def ofAscii (bytes : Bytes) : Word := bytes.map fun byte => Char.ofNat byte.toNat

namespace FileEvent

/-- The note message that an event is. -/
def note? : FileEvent → Option NoteMessage
  | .message status [key, velocity] =>
    if 0x80 ≤ status ∧ status < 0x90 then some ⟨(status - 0x80).toNat, .off, key, velocity⟩
    else if 0x90 ≤ status ∧ status < 0xa0 then some ⟨(status - 0x90).toNat, .on, key, velocity⟩
    else none
  | _ => none

/-- The microseconds in a quarter note that an event sets. -/
def tempo? : FileEvent → Option Nat
  | .remark kind contents =>
    if kind = 0x51 ∧ contents.length = 3 then some (value contents) else none
  | _ => none

/-- The name that an event gives the track. -/
def name? : FileEvent → Option Word
  | .remark kind contents => if kind = 0x03 then some (ofAscii contents) else none
  | _ => none

end FileEvent

namespace FileTrack

/-- What the events of a track tell, with the ticks at which they do. Those are the sums of the times
between the events. -/
def told {α : Type} (tell? : FileEvent → Option α) (start : Nat) : FileTrack → List (Nat × α)
  | [] => []
  | (delta, event) :: later =>
    (tell? event).toList.map (start + delta, ·) ++ told tell? (start + delta) later

end FileTrack

/-- The track of a file tells the note events of a track, all on the first channel, and its name. -/
structure TellsTrack (name : Option Word) (track : Track) (fileTrack : FileTrack) : Prop where
  notes : fileTrack.told FileEvent.note? 0 = track.events.toList.map fun event =>
    (event.tick.toNat, ⟨0, event.kind, event.key, event.velocity⟩)
  tempos : fileTrack.told FileEvent.tempo? 0 = []
  names : fileTrack.told FileEvent.name? 0 = name.toList.map (0, ·)

/-- The track of a file tells a tempo and nothing else. -/
structure TellsTempo (microseconds : Nat) (fileTrack : FileTrack) : Prop where
  notes : fileTrack.told FileEvent.note? 0 = []
  tempos : fileTrack.told FileEvent.tempo? 0 = [(0, microseconds)]
  names : fileTrack.told FileEvent.name? 0 = []

/-- The file tells a sequence: its first track the tempo, and the others the tracks one by one. -/
structure Tells (file : File) (sequence : Sequence) (perMinute : UInt32) : Prop where
  format : file.format = 1
  division : file.division = .quarter sequence.ticksPerQuarter.toNat
  length : file.tracks.length = sequence.tracks.length + 1
  first : ∀ fileTrack ∈ file.tracks[0]?, TellsTempo (60000000 / perMinute.toNat) fileTrack
  others : ∀ (i : Nat), ∀ track ∈ sequence.tracks[i]?, ∀ fileTrack ∈ file.tracks[i + 1]?,
    TellsTrack ((Voice.all[i]?).map (·.name)) track fileTrack

/-! ## What the written tracks tell -/

theorem and_low_eq {byte : UInt8} (h : byte ≤ 127) : byte &&& 0x7f = byte := by
  have : byte.toNat ≤ 127 := UInt8.le_iff_toNat_le.1 h
  rw [← UInt8.toNat_inj, toNat_and_low]
  omega

theorem note?_noteMessage {event : NoteEvent} (hkey : event.key ≤ 127)
    (hvelocity : event.velocity ≤ 127) :
    (noteMessage event).note? = some ⟨0, event.kind, event.key, event.velocity⟩ := by
  rw [noteMessage, and_low_eq hkey, and_low_eq hvelocity]
  cases event.kind <;> rfl

theorem told_note_noteTrack {last : UInt32} {events : List NoteEvent} (h : Ascending last events)
    (hdata : ∀ event ∈ events, event.key ≤ 127 ∧ event.velocity ≤ 127) :
    (noteTrack last events).told FileEvent.note? last.toNat = events.map fun event =>
      (event.tick.toNat, ⟨0, event.kind, event.key, event.velocity⟩) := by
  induction events generalizing last with
  | nil => rfl
  | cons event later ih =>
    obtain ⟨hle, hlater⟩ := ascending_cons h
    obtain ⟨⟨hkey, hvelocity⟩, hdata⟩ := List.forall_mem_cons.1 hdata
    have htick : last.toNat + (event.tick - last).toNat = event.tick.toNat := by
      rw [toNat_gap hle]
      exact Nat.add_sub_cancel' (UInt32.le_iff_toNat_le.1 hle)
    rw [noteTrack, FileTrack.told, note?_noteMessage hkey hvelocity, htick, ih hlater hdata]
    rfl

/-- Notes tell nothing but notes. -/
theorem told_noteTrack_eq_nil {α : Type} (tell? : FileEvent → Option α)
    (hmessage : ∀ status data, tell? (.message status data) = none)
    (hfinish : tell? .finish = none) (last : UInt32) (events : List NoteEvent) (start : Nat) :
    (noteTrack last events).told tell? start = [] := by
  induction events generalizing last start with
  | nil =>
    rw [noteTrack, FileTrack.told, hfinish]
    rfl
  | cons event later ih =>
    rw [noteTrack, FileTrack.told, noteMessage, hmessage, ih]
    rfl

theorem ofAscii_ascii_name : ∀ name ∈ Voice.all.map (·.name), ofAscii (ascii name) = name := by decide

theorem namedTrack_tells {name : Option Word} {track : Track}
    (hname : ∀ word ∈ name, ofAscii (ascii word) = word) (hordered : track.isOrdered = true)
    (hdata : ∀ event ∈ track.events.toList, event.key ≤ 127 ∧ event.velocity ≤ 127) :
    TellsTrack name track (namedTrack name track) := by
  have hnotes := told_note_noteTrack (ascending_of_isOrdered hordered) hdata
  have htempos := told_noteTrack_eq_nil FileEvent.tempo? (fun _ _ => rfl) rfl 0
    track.events.toList 0
  have hnames := told_noteTrack_eq_nil FileEvent.name? (fun _ _ => rfl) rfl 0
    track.events.toList 0
  cases name with
  | none => exact ⟨hnotes, htempos, hnames⟩
  | some word =>
    refine ⟨hnotes, htempos, ?_⟩
    have hfirst : (namedTrack (some word) track).told FileEvent.name? 0 =
        (0, ofAscii (ascii word)) :: (noteTrack 0 track.events.toList).told FileEvent.name? 0 := rfl
    rw [hfirst, hname word rfl, hnames]
    rfl

theorem tempoTrack_tells {microseconds : Nat} (h : microseconds < 2 ^ 24) :
    TellsTempo microseconds (tempoTrack microseconds) := by
  refine ⟨rfl, ?_, rfl⟩
  have htempo : (FileEvent.remark 0x51 (bigEndian 3 microseconds)).tempo? = some microseconds := by
    rw [FileEvent.tempo?, if_pos ⟨rfl, length_bigEndian _ _⟩, value_bigEndian h]
  rw [tempoTrack, FileTrack.told, htempo]
  rfl

theorem fileOf_tells {sequence : Sequence} {perMinute : UInt32} (htempo : 4 ≤ perMinute.toNat)
    (hordered : ∀ track ∈ sequence.tracks, track.isOrdered = true)
    (hdata : ∀ track ∈ sequence.tracks, ∀ event ∈ track.events.toList,
      event.key ≤ 127 ∧ event.velocity ≤ 127) :
    Tells (fileOf sequence perMinute) sequence perMinute where
  format := rfl
  division := rfl
  length := by simp [fileOf]
  first fileTrack h := by
    obtain rfl : tempoTrack (60000000 / perMinute.toNat) = fileTrack := Option.some.inj h
    exact tempoTrack_tells (Nat.lt_of_le_of_lt (Nat.div_le_div_left htempo (by decide)) (by decide))
  others i track htrack fileTrack hfile := by
    have htrack : sequence.tracks[i]? = some track := htrack
    obtain rfl : namedTrack (Voice.all.map (·.name))[i]? track = fileTrack := by
      simpa [fileOf, htrack] using hfile
    have hmem := List.mem_of_getElem? htrack
    rw [← List.getElem?_map]
    exact namedTrack_tells (fun word hword => ofAscii_ascii_name word (List.mem_of_getElem? hword))
      (hordered track hmem) (hdata track hmem)

/-! ## The round trip -/

/-- The bytes of a sequence that fits into a file tell every reader that sequence. -/
theorem read_encode {sequence : Sequence} {perMinute : UInt32}
    (hordered : ∀ track ∈ sequence.tracks, track.isOrdered = true)
    (hdata : ∀ track ∈ sequence.tracks, ∀ event ∈ track.events.toList,
      event.key ≤ 127 ∧ event.velocity ≤ 127)
    (hresolution : 1 ≤ sequence.ticksPerQuarter.toNat ∧ sequence.ticksPerQuarter.toNat ≤ 32767)
    (hcount : sequence.tracks.length ≤ 65534)
    (hgaps : ∀ track ∈ sequence.tracks, ∀ gap ∈ gaps 0 track.events.toList,
      gap.toNat ≤ 2 ^ 28 - 1)
    (hsizes : ∀ tracks, allContents (Voice.all.map (·.name)) sequence.tracks = .ok tracks →
      ∀ contents ∈ tracks, contents.length < 2 ^ 32)
    (htempo : 4 ≤ perMinute.toNat) :
    ∃ bytes, encode sequence perMinute = .ok bytes ∧
      ∀ reader, Conforming reader →
        ∃ file, reader bytes = some file ∧ Tells file sequence perMinute := by
  have hsayable : Sayable sequence.ticksPerQuarter perMinute := ⟨by omega, htempo⟩
  have hcount : sequence.tracks.length < maxTracks := by rw [maxTracks]; omega
  obtain ⟨bytes, hbytes, hsays⟩ := encode_says hsayable hcount hordered hgaps
    fun tracks hok contents hmem => Nat.le_of_lt_succ (hsizes tracks hok contents hmem)
  exact ⟨bytes, hbytes, fun _ hreader => ⟨_, hreader hsays, fileOf_tells htempo hordered hdata⟩⟩

/-- Two tracks, of which the first has two notes that begin together and the second is empty. -/
def twoTracks : Sequence where
  ticksPerQuarter := 480
  tracks := [⟨#[⟨0, .on, 60, 64⟩, ⟨0, .on, 64, 64⟩, ⟨200, .off, 60, 64⟩, ⟨20000, .off, 64, 64⟩]⟩,
    .empty]

theorem read_encode_twoTracks :
    ∃ bytes, encode twoTracks 120 = .ok bytes ∧
      ∃ file, read bytes = some file ∧ Tells file twoTracks 120 := by
  have hshort : twoTracks.tracks.all (fun track =>
      (gaps 0 track.events.toList).all (·.toNat ≤ 0x0fffffff)) = true := by decide
  have hgaps : ∀ track ∈ twoTracks.tracks, ∀ gap ∈ gaps 0 track.events.toList,
      gap.toNat ≤ 2 ^ 28 - 1 := fun track htrack gap hgap =>
    of_decide_eq_true (List.all_eq_true.1 (List.all_eq_true.1 hshort track htrack) gap hgap)
  have hsmall : (allContents (Voice.all.map (·.name)) twoTracks.tracks).toOption.all
      (·.all (·.length < 2 ^ 32)) = true := by decide +kernel
  have hsizes : ∀ tracks, allContents (Voice.all.map (·.name)) twoTracks.tracks = .ok tracks →
      ∀ contents ∈ tracks, contents.length < 2 ^ 32 := fun tracks hok contents hmem => by
    rw [hok] at hsmall
    exact of_decide_eq_true (List.all_eq_true.1 hsmall contents hmem)
  have htempo : 4 ≤ (120 : UInt32).toNat := by decide
  obtain ⟨bytes, hbytes, hread⟩ := read_encode (by decide) (by decide) (by decide) (by decide)
    hgaps hsizes htempo
  exact ⟨bytes, hbytes, hread read conforming_read⟩

end Chorale.Midi
