import Chorale.Midi.File
import Chorale.Proofs.Midi.Layout
import Chorale.Proofs.Track.Line

/-!
# What the file of a sequence says

The bytes that `encode` writes say the file of a sequence (`fileOf`): quantities and numbers of a
fixed size are said as they should be (`saysQuantity_quantity`, `saysNumber_bigEndian`), and from
them the events of a track, by induction on the events (`noteEvents_says`), the chunks and the whole
file (`encode_says`). There is no such file if the header or one of the times between two events
(`gaps`) does not fit: `encode_resolution`, `encode_tempo` and `encode_delta` say what is wrong then,
in the order in which it is looked for, and otherwise it can only be the size of a track
(`encode_of_gaps`).
-/

namespace Chorale.Midi

/-! ## Numbers -/

/-- The leading bytes of a quantity are digits in front of those that follow. -/
theorem Digits.leadingBytes {n : Nat} {bytes : Bytes} (h : Digits n bytes) (high : Nat) :
    Digits (high * 128 ^ bytes.length + n) (leadingBytes high ++ bytes) := by
  -- The digits are found from the last one up, so each is put in front of those found before.
  induction high using Nat.strongRecOn generalizing n bytes with
  | _ high ih =>
    rw [Midi.leadingBytes]
    split
    · rename_i hzero
      rw [hzero, Nat.zero_mul, Nat.zero_add]
      exact h
    · have hbyte : (UInt8.ofNat (high % 128 + 128)).toNat = high % 128 + 128 := by
        rw [UInt8.toNat_ofNat']
        omega
      have hcons := Digits.cons (by omega : 128 ≤ (UInt8.ofNat (high % 128 + 128)).toNat) h
      have hdigits := ih (high / 128) (by omega) hcons
      have hsum : high / 128 * 128 ^ (bytes.length + 1) + (high % 128 * 128 ^ bytes.length + n) =
          high * 128 ^ bytes.length + n := by
        rw [Nat.pow_succ', ← Nat.mul_assoc, ← Nat.add_assoc, ← Nat.add_mul, Nat.div_add_mod']
      rw [hbyte, Nat.add_sub_cancel, List.length_cons, hsum] at hdigits
      rw [List.append_assoc]
      exact hdigits

theorem length_leadingBytes_le {high size : Nat} (h : high < 128 ^ size) :
    (leadingBytes high).length ≤ size := by
  induction size generalizing high with
  | zero =>
    obtain rfl : high = 0 := by simpa using h
    simp [leadingBytes]
  | succ size ih =>
    rw [leadingBytes]
    split
    · exact Nat.zero_le _
    · have := ih (Nat.div_lt_of_lt_mul (Nat.pow_succ' ▸ h))
      simpa using this

theorem saysQuantity_quantity {n : Nat} (h : n ≤ maxDelta) : SaysQuantity n (quantity n) := by
  have hbyte : (UInt8.ofNat (n % 128)).toNat = n % 128 := by
    rw [UInt8.toNat_ofNat']
    omega
  have hlast : Digits _ [UInt8.ofNat (n % 128)] := .last (by omega)
  have hdigits := hlast.leadingBytes (n / 128)
  rw [hbyte, List.length_singleton, Nat.pow_one, Nat.div_add_mod'] at hdigits
  have hlength : (leadingBytes (n / 128)).length ≤ 3 :=
    length_leadingBytes_le (by rw [maxDelta] at h; omega)
  refine ⟨hdigits, ?_⟩
  rw [quantity, List.length_append, List.length_singleton]
  exact Nat.succ_le_succ hlength

theorem value_concat (bytes : Bytes) (byte : UInt8) :
    value (bytes ++ [byte]) = 256 * value bytes + byte.toNat := by
  rw [value, List.foldl_append]
  rfl

theorem value_bigEndian {size n : Nat} (h : n < 256 ^ size) : value (bigEndian size n) = n := by
  induction size generalizing n with
  | zero =>
    obtain rfl : n = 0 := by simpa using h
    rfl
  | succ size ih =>
    rw [bigEndian, value_concat, ih (Nat.div_lt_of_lt_mul (Nat.pow_succ' ▸ h)), UInt8.toNat_ofNat']
    omega

theorem saysNumber_bigEndian {size n : Nat} (h : n < 256 ^ size) :
    SaysNumber size n (bigEndian size n) :=
  ⟨length_bigEndian size n, value_bigEndian h⟩

/-! ## The times between events -/

/-- The times between the events of a track, and before the first one from `last` on. -/
def gaps (last : UInt32) : List NoteEvent → List UInt32
  | [] => []
  | event :: later => (event.tick - last) :: gaps event.tick later

/-- The events are in order, and none is earlier than `last`. -/
def Ascending (last : UInt32) (events : List NoteEvent) : Prop :=
  (last :: events.map (·.tick)).Pairwise (· ≤ ·)

theorem ascending_cons {last : UInt32} {event : NoteEvent} {later : List NoteEvent}
    (h : Ascending last (event :: later)) : last ≤ event.tick ∧ Ascending event.tick later := by
  obtain ⟨hlast, hrest⟩ := List.pairwise_cons.1 h
  exact ⟨hlast _ List.mem_cons_self, hrest⟩

theorem ascending_of_isOrdered {track : Track} (h : track.isOrdered = true) :
    Ascending 0 track.events.toList :=
  .cons (fun _ _ => UInt32.zero_le) (List.pairwise_map.2 (Track.pairwise_of_isOrdered h))

theorem toNat_gap {last tick : UInt32} (h : last ≤ tick) :
    (tick - last).toNat = tick.toNat - last.toNat := UInt32.toNat_sub_of_le _ _ h

theorem sub_eq_gap {last tick : UInt32} (h : last ≤ tick) :
    Checked.sub tick last = .ok (tick - last) := by
  have hle := UInt32.le_iff_toNat_le.1 h
  have hgap := toNat_gap h
  rw [Checked.sub_eq_ok_iff]
  simp only [FixedWidth.toInt]
  omega

theorem delta_eq {last tick : UInt32} (h : last ≤ tick) :
    delta last tick =
      if (tick - last).toNat ≤ maxDelta then .ok (tick - last).toNat
      else .error (.delta (tick - last)) := by
  rw [delta, sub_eq_gap h]
  rfl

/-! ## The events of a track -/

/-- The message of a note event. -/
def noteMessage (event : NoteEvent) : FileEvent :=
  .message (status event.kind) [event.key &&& 0x7f, event.velocity &&& 0x7f]

/-- The rest of the track of a file behind the tick `last`. -/
def noteTrack (last : UInt32) : List NoteEvent → FileTrack
  | [] => [(0, .finish)]
  | event :: later => ((event.tick - last).toNat, noteMessage event) :: noteTrack event.tick later

theorem saysQuantity_zero : SaysQuantity 0 [0] :=
  ⟨.last (by decide : (0 : UInt8).toNat < 128), by decide⟩

theorem saysTrack_endOfTrack (running : Option UInt8) :
    SaysTrack running [(0, .finish)] endOfTrack := by
  have hfinish : SaysEvent running .finish _ none :=
    .remark (by decide) (saysQuantity_quantity (Nat.zero_le _))
  simpa [endOfTrack, metaEvent] using SaysTrack.finish saysQuantity_zero hfinish

theorem saysTrack_metaEvent {running : Option UInt8} {kind : UInt8} {contents rest : Bytes}
    {later : FileTrack} (hkind : kind < 0x80) (hfinish : kind ≠ 0x2f)
    (hlength : contents.length ≤ maxDelta) (h : SaysTrack none later rest) :
    SaysTrack running ((0, .remark kind contents) :: later) (metaEvent kind contents ++ rest) := by
  have hsays : SaysTrack running _ _ := .cons saysQuantity_zero
    (.remark hkind (saysQuantity_quantity hlength)) (decide_eq_false hfinish) h
  simpa [metaEvent] using hsays

theorem toNat_and_low (byte : UInt8) : (byte &&& 0x7f).toNat = byte.toNat % 128 := by
  rw [UInt8.toNat_and]
  exact Nat.and_two_pow_sub_one_eq_mod byte.toNat 7

theorem isMessage_note (kind : EventKind) (key velocity : UInt8) :
    IsMessage (status kind) [key &&& 0x7f, velocity &&& 0x7f] where
  range := by cases kind <;> decide
  length := by cases kind <;> rfl
  low := by
    have hlow (byte : UInt8) : byte &&& 0x7f < 0x80 := by
      rw [UInt8.lt_iff_toNat_lt, toNat_and_low]
      exact Nat.mod_lt _ (by decide)
    simp [hlow]

/-- The status byte of a note is left out where it is in force. -/
theorem saysEvent_note (running : Option UInt8) (event : NoteEvent) :
    SaysEvent running (noteMessage event)
      ((if running = some (status event.kind) then [] else [status event.kind]) ++
        [event.key &&& 0x7f, event.velocity &&& 0x7f])
      (some (status event.kind)) := by
  have hmessage := isMessage_note event.kind event.key event.velocity
  split
  · rename_i hrunning
    rw [hrunning]
    exact .running hmessage
  · exact .message hmessage

/-- The events of a track say its messages, whatever status byte is in force before them. -/
theorem noteEvents_says {last : UInt32} {events : List NoteEvent} (h : Ascending last events)
    (hgaps : ∀ gap ∈ gaps last events, gap.toNat ≤ maxDelta) (running : Option UInt8) :
    ∃ bytes, noteEvents last running events = .ok bytes ∧
      SaysTrack running (noteTrack last events) bytes := by
  induction events generalizing last running with
  | nil => exact ⟨_, rfl, saysTrack_endOfTrack running⟩
  | cons event later ih =>
    obtain ⟨hle, hlater⟩ := ascending_cons h
    obtain ⟨hgap, hgaps⟩ := List.forall_mem_cons.1 hgaps
    obtain ⟨bytes, hbytes, hsays⟩ := ih hlater hgaps (some (status event.kind))
    have hdelta := delta_eq hle
    rw [if_pos hgap] at hdelta
    refine ⟨_, by rw [noteEvents, hdelta, hbytes]; rfl, ?_⟩
    have hcons : SaysTrack running _ _ :=
      .cons (saysQuantity_quantity hgap) (saysEvent_note running event) rfl hsays
    simpa [noteTrack] using hcons

/-- The first time that is too long for a file is what is wrong with the events. -/
theorem noteEvents_delta {last gap : UInt32} {events : List NoteEvent} (h : Ascending last events)
    (hgap : (gaps last events).find? (maxDelta < ·.toNat) = some gap) (running : Option UInt8) :
    noteEvents last running events = .error (.delta gap) := by
  induction events generalizing last running with
  | nil => simp [gaps] at hgap
  | cons event later ih =>
    obtain ⟨hle, hlater⟩ := ascending_cons h
    rw [gaps, List.find?_cons] at hgap
    rw [noteEvents, delta_eq hle]
    by_cases hlong : maxDelta < (event.tick - last).toNat
    · rw [decide_eq_true hlong] at hgap
      rw [if_neg (by omega), Option.some.inj hgap]
      rfl
    · rw [decide_eq_false hlong] at hgap
      rw [if_pos (by omega), ih hlater hgap]
      rfl

/-! ## The tracks -/

/-- The track of a file that a track with a name is put in. -/
def namedTrack (name : Option Word) (track : Track) : FileTrack :=
  name.elim [] (fun name => [(0, .remark 0x03 (ascii name))]) ++ noteTrack 0 track.events.toList

theorem trackContents_says {name : Option Word} {track : Track}
    (hname : ∀ word ∈ name, word.length ≤ maxDelta) (hordered : track.isOrdered = true)
    (hgaps : ∀ gap ∈ gaps 0 track.events.toList, gap.toNat ≤ maxDelta) :
    ∃ contents, trackContents name track = .ok contents ∧
      SaysTrack none (namedTrack name track) contents := by
  obtain ⟨bytes, hbytes, hsays⟩ :=
    noteEvents_says (ascending_of_isOrdered hordered) hgaps none
  refine ⟨name.elim [] trackName ++ bytes, by rw [trackContents, hbytes]; rfl, ?_⟩
  cases name with
  | none => exact hsays
  | some word =>
    have hlength : (ascii word).length ≤ maxDelta := by simpa [ascii] using hname word rfl
    exact saysTrack_metaEvent (by decide) (by decide) hlength hsays

theorem trackContents_delta {name : Option Word} {track : Track} {gap : UInt32}
    (hordered : track.isOrdered = true)
    (hgap : (gaps 0 track.events.toList).find? (maxDelta < ·.toNat) = some gap) :
    trackContents name track = .error (.delta gap) := by
  rw [trackContents, noteEvents_delta (ascending_of_isOrdered hordered) hgap]
  rfl

theorem allContents_says {names : List Word} {tracks : List Track}
    (hnames : ∀ name ∈ names, name.length ≤ maxDelta)
    (hordered : ∀ track ∈ tracks, track.isOrdered = true)
    (hgaps : ∀ track ∈ tracks, ∀ gap ∈ gaps 0 track.events.toList, gap.toNat ≤ maxDelta) :
    ∃ contents, allContents names tracks = .ok contents ∧
      List.Forall₂ (SaysTrack none)
        (tracks.mapIdx fun i track => namedTrack names[i]? track) contents := by
  -- The names are used up along with the tracks, and stand at the same places.
  induction tracks generalizing names with
  | nil => exact ⟨[], rfl, .nil⟩
  | cons track tracks ih =>
    obtain ⟨hfirst, hordered⟩ := List.forall_mem_cons.1 hordered
    obtain ⟨hgap, hgaps⟩ := List.forall_mem_cons.1 hgaps
    obtain ⟨first, hok, hsays⟩ := trackContents_says
      (fun word hword => hnames word (List.mem_of_mem_head? hword)) hfirst hgap
    obtain ⟨others, hoks, hsayss⟩ :=
      ih (fun word hword => hnames word (List.mem_of_mem_tail hword)) hordered hgaps
    refine ⟨first :: others, by rw [allContents, hok, hoks]; rfl, ?_⟩
    rw [List.mapIdx_cons]
    simp only [List.getElem?_tail] at hsayss
    exact .cons (by rwa [List.head?_eq_getElem?] at hsays) hsayss

/-- The first time that is too long for a file is what is wrong with the tracks. -/
theorem allContents_delta {names : List Word} {tracks : List Track} {gap : UInt32}
    (hordered : ∀ track ∈ tracks, track.isOrdered = true)
    (hgap : (tracks.flatMap fun track => gaps 0 track.events.toList).find? (maxDelta < ·.toNat) =
      some gap) :
    allContents names tracks = .error (.delta gap) := by
  induction tracks generalizing names with
  | nil => simp at hgap
  | cons track tracks ih =>
    obtain ⟨hfirst, hordered⟩ := List.forall_mem_cons.1 hordered
    rw [List.flatMap_cons, List.find?_append, Option.or_eq_some_iff] at hgap
    rw [allContents]
    rcases hgap with hgap | ⟨hnone, hgap⟩
    · rw [trackContents_delta hfirst hgap]
      rfl
    · have hgaps : ∀ gap ∈ gaps 0 track.events.toList, gap.toNat ≤ maxDelta := by
        simpa using hnone
      obtain ⟨bytes, hbytes, -⟩ := noteEvents_says (ascending_of_isOrdered hfirst) hgaps none
      rw [trackContents, hbytes, ih hordered hgap]
      rfl

/-! ## The file -/

/-- The track of a file that tells the tempo. -/
def tempoTrack (microseconds : Nat) : FileTrack :=
  [(0, .remark 0x51 (bigEndian 3 microseconds)), (0, .finish)]

/-- The file of a sequence. -/
def fileOf (sequence : Sequence) (perMinute : UInt32) : File where
  format := 1
  division := .quarter sequence.ticksPerQuarter.toNat
  tracks := tempoTrack (60000000 / perMinute.toNat) ::
    sequence.tracks.mapIdx fun i track => namedTrack (Voice.all.map (·.name))[i]? track

theorem saysChunk_chunk {name : String} {tag contents : Bytes}
    (htag : ascii name.toList = tag) (hlength : tag.length = 4)
    (h : contents.length ≤ maxContents) : SaysChunk tag contents (chunk name contents) := by
  rw [chunk, htag, List.append_assoc]
  exact .intro hlength (saysNumber_bigEndian (by rw [maxContents] at h; omega))

theorem saysChunks_flatMap {tracks : List FileTrack} {contents : List Bytes}
    (h : List.Forall₂ (SaysTrack none) tracks contents)
    (hsizes : ∀ bytes ∈ contents, bytes.length ≤ maxContents) :
    SaysChunks tracks (contents.flatMap (chunk "MTrk")) := by
  induction h with
  | nil => exact .nil
  | cons htrack _ ih =>
    obtain ⟨hsize, hsizes⟩ := List.forall_mem_cons.1 hsizes
    exact .track htrack (saysChunk_chunk rfl rfl hsize) (ih hsizes)

theorem saysTrack_tempoTrack (microseconds : Nat) :
    SaysTrack none (tempoTrack microseconds) (setTempo microseconds ++ endOfTrack) :=
  saysTrack_metaEvent (by decide) (by decide) (by rw [length_bigEndian]; decide)
    (saysTrack_endOfTrack none)

theorem length_name_le : ∀ name ∈ Voice.all.map (·.name), name.length ≤ maxDelta := by decide

/-- The header of a file and the remark on the tempo can say the numbers. -/
structure Sayable (ticksPerQuarter perMinute : UInt32) : Prop where
  resolution : 0 < ticksPerQuarter.toNat ∧ ticksPerQuarter.toNat < 0x8000
  tempo : 4 ≤ perMinute.toNat

theorem tempo_eq_ok {perMinute : UInt32} (h : 4 ≤ perMinute.toNat) :
    tempo perMinute = .ok (60000000 / perMinute.toNat) := by
  have hzero : perMinute ≠ 0 := by rintro rfl; simp at h
  have hfits : 60000000 / perMinute.toNat < 0x1000000 :=
    Nat.lt_of_le_of_lt (Nat.div_le_div_left h (by decide)) (by decide)
  exact if_pos ⟨hzero, hfits⟩

theorem tempo_eq_error {perMinute : UInt32} (h : perMinute.toNat < 4) :
    tempo perMinute = .error (.tempo perMinute) := by
  refine if_neg fun ⟨hzero, hfits⟩ => ?_
  have hpos : 0 < perMinute.toNat := Nat.pos_of_ne_zero fun h => hzero (UInt32.toNat_inj.1 h)
  have : 60000000 / 3 ≤ 60000000 / perMinute.toNat := Nat.div_le_div_left (by omega) hpos
  omega

section

variable {sequence : Sequence} {perMinute : UInt32}

/-- With numbers that can be said, only the tracks are left to be wrong. -/
theorem encode_eq_of_sayable (h : Sayable sequence.ticksPerQuarter perMinute) :
    encode sequence perMinute =
      (allContents (Voice.all.map (·.name)) sequence.tracks).bind fun tracks =>
        if sequence.tracks.length < maxTracks ∧
            ∀ contents ∈ tracks, contents.length ≤ maxContents then
          .ok (header (sequence.tracks.length + 1) sequence.ticksPerQuarter.toNat ++
            (chunk "MTrk" (setTempo (60000000 / perMinute.toNat) ++ endOfTrack) ++
              tracks.flatMap (chunk "MTrk")))
        else .error .unwritable := by
  have hresolution : resolution sequence.ticksPerQuarter = .ok sequence.ticksPerQuarter.toNat :=
    if_pos h.resolution
  rw [encode, hresolution, tempo_eq_ok h.tempo]
  simp only [List.append_assoc]
  rfl

theorem saysChunk_header (tracks ticksPerQuarter : Nat) :
    SaysChunk headerTag (bigEndian 2 1 ++ (bigEndian 2 tracks ++ (bigEndian 2 ticksPerQuarter ++ [])))
      (header tracks ticksPerQuarter) := by
  rw [header, List.append_assoc, List.append_nil]
  exact saysChunk_chunk rfl rfl (by simp [maxContents])

/-- The bytes of a sequence that fits into a file say that file. -/
theorem encode_says (h : Sayable sequence.ticksPerQuarter perMinute)
    (hcount : sequence.tracks.length < maxTracks)
    (hordered : ∀ track ∈ sequence.tracks, track.isOrdered = true)
    (hgaps : ∀ track ∈ sequence.tracks, ∀ gap ∈ gaps 0 track.events.toList, gap.toNat ≤ maxDelta)
    (hsizes : ∀ tracks, allContents (Voice.all.map (·.name)) sequence.tracks = .ok tracks →
      ∀ contents ∈ tracks, contents.length ≤ maxContents) :
    ∃ bytes, encode sequence perMinute = .ok bytes ∧
      SaysFile (fileOf sequence perMinute) bytes := by
  obtain ⟨tracks, hok, hsays⟩ := allContents_says length_name_le hordered hgaps
  have hsizes := hsizes tracks hok
  have hencode := encode_eq_of_sayable h
  rw [hok] at hencode
  refine ⟨_, hencode.trans (if_pos ⟨hcount, hsizes⟩), ?_⟩
  refine .intro (saysNumber_bigEndian (by decide : 1 < 256 ^ 2)) (by decide : 1 ≤ 2) ?_
    (fun h => absurd h (by decide : 1 ≠ 0)) ?_ (saysChunk_header _ _) ?_
  · rw [fileOf, List.length_cons, List.length_mapIdx]
    exact saysNumber_bigEndian (by rw [maxTracks] at hcount; omega)
  · obtain ⟨hpos, hlt⟩ := h.resolution
    exact .quarter hpos hlt (saysNumber_bigEndian (by omega))
  · have hlength : (setTempo (60000000 / perMinute.toNat) ++ endOfTrack).length ≤ maxContents := by
      simp [setTempo, endOfTrack, metaEvent, quantity, leadingBytes, maxContents]
    exact .track (saysTrack_tempoTrack _) (saysChunk_chunk rfl rfl hlength)
      (saysChunks_flatMap hsays hsizes)

/-! ## What can be wrong -/

/-- With times that can be said, only the size of a track is left to be wrong. -/
theorem encode_of_gaps (h : Sayable sequence.ticksPerQuarter perMinute)
    (hcount : sequence.tracks.length < maxTracks)
    (hordered : ∀ track ∈ sequence.tracks, track.isOrdered = true)
    (hgaps : ∀ track ∈ sequence.tracks, ∀ gap ∈ gaps 0 track.events.toList, gap.toNat ≤ maxDelta) :
    ∃ tracks, allContents (Voice.all.map (·.name)) sequence.tracks = .ok tracks ∧
      if ∀ contents ∈ tracks, contents.length ≤ maxContents then
        ∃ bytes, encode sequence perMinute = .ok bytes
      else encode sequence perMinute = .error .unwritable := by
  obtain ⟨tracks, hok, -⟩ := allContents_says length_name_le hordered hgaps
  have hencode := encode_eq_of_sayable h
  rw [hok] at hencode
  refine ⟨tracks, hok, ?_⟩
  split
  case isTrue hfits => exact ⟨_, hencode.trans (if_pos ⟨hcount, hfits⟩)⟩
  case isFalse hlarge => exact hencode.trans (if_neg fun hfits => hlarge hfits.2)

theorem encode_resolution
    (h : ¬ (0 < sequence.ticksPerQuarter.toNat ∧ sequence.ticksPerQuarter.toNat < 0x8000)) :
    encode sequence perMinute = .error (.resolution sequence.ticksPerQuarter) := by
  rw [encode, resolution, if_neg h]
  rfl

theorem encode_tempo
    (hresolution : 0 < sequence.ticksPerQuarter.toNat ∧ sequence.ticksPerQuarter.toNat < 0x8000)
    (h : perMinute.toNat < 4) : encode sequence perMinute = .error (.tempo perMinute) := by
  rw [encode, resolution, if_pos hresolution, tempo_eq_error h]
  rfl

theorem encode_delta {gap : UInt32} (h : Sayable sequence.ticksPerQuarter perMinute)
    (hordered : ∀ track ∈ sequence.tracks, track.isOrdered = true)
    (hgap : (sequence.tracks.flatMap fun track => gaps 0 track.events.toList).find?
      (maxDelta < ·.toNat) = some gap) :
    encode sequence perMinute = .error (.delta gap) := by
  rw [encode_eq_of_sayable h, allContents_delta hordered hgap]
  rfl

end

end Chorale.Midi
