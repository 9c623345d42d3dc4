import Chorale.Proofs.Midi.Layout
import Mathlib.Data.List.Basic

/-!
# Reading MIDI files

A reader of MIDI files: each of its functions takes what it reads from the front of the bytes and
gives the rest back. It reads what any bytes of the layout say (`read_eq_some`), so it conforms to
the layout (`conforming_read`), and no bytes say two different files (`SaysFile.eq`).
-/

namespace Chorale.Midi

/-! ## The reader -/

/-- So many bytes. -/
def takeBytes (size : Nat) (bytes : Bytes) : Option (Bytes × Bytes) :=
  if size ≤ bytes.length then some (bytes.take size, bytes.drop size) else none

/-- A quantity of at most `limit` bytes, of which `high` is said by the bytes before. -/
def readQuantity : (limit high : Nat) → Bytes → Option (Nat × Bytes)
  | 0, _, _ => none
  | _ + 1, _, [] => none
  | limit + 1, high, byte :: bytes =>
    if byte.toNat < 128 then some (128 * high + byte.toNat, bytes)
    else readQuantity limit (128 * high + (byte.toNat - 128)) bytes

/-- Contents behind their size. -/
def readContents (bytes : Bytes) : Option (Bytes × Bytes) := do
  let (size, rest) ← readQuantity 4 0 bytes
  takeBytes size rest

/-- An event, the status byte in force behind it and the rest. -/
def readEvent (running : Option UInt8) : Bytes → Option (FileEvent × Option UInt8 × Bytes)
  | [] => none
  | byte :: bytes =>
    if byte = 0xff then do
      let kind ← bytes.head?
      let (contents, rest) ← readContents bytes.tail
      pure (.remark kind contents, none, rest)
    else if byte = 0xf0 ∨ byte = 0xf7 then do
      let (contents, rest) ← readContents bytes
      pure (.exclusive byte contents, none, rest)
    else if 0x80 ≤ byte then do
      let (data, rest) ← takeBytes (dataLength byte) bytes
      pure (.message byte data, some byte, rest)
    else do
      let status ← running
      let (data, rest) ← takeBytes (dataLength status) (byte :: bytes)
      pure (.message status data, some status, rest)

/-- The rest of a track. -/
def readTrack (running : Option UInt8) (bytes : Bytes) : Option FileTrack := do
  let (delta, rest) ← readQuantity 4 0 bytes
  let (event, running', rest') ← readEvent running rest
  if event.isFinish then pure [(delta, event)]
  else if _h : rest'.length < bytes.length then
    let later ← readTrack running' rest'
    pure ((delta, event) :: later)
  else none
termination_by bytes.length

/-- A chunk: its tag, its contents and the rest. -/
def readChunk (bytes : Bytes) : Option (Bytes × Bytes × Bytes) := do
  let (tag, rest) ← takeBytes 4 bytes
  let (size, rest) ← takeBytes 4 rest
  let (contents, rest) ← takeBytes (value size) rest
  pure (tag, contents, rest)

/-- The tracks of a file. -/
def readChunks (bytes : Bytes) : Option (List FileTrack) :=
  if bytes = [] then some []
  else do
    let (tag, contents, rest) ← readChunk bytes
    if _h : rest.length < bytes.length then
      let later ← readChunks rest
      if tag = trackTag then
        let track ← readTrack none contents
        pure (track :: later)
      else pure later
    else none
termination_by bytes.length

/-- How times are counted. -/
def readDivision : Bytes → Option Division
  | [high, low] =>
    if high < 0x80 then some (.quarter (value [high, low]))
    else some (.second (256 - high.toNat) low.toNat)
  | _ => none

/-- A file. -/
def read (bytes : Bytes) : Option File := do
  let (tag, contents, rest) ← readChunk bytes
  if tag = headerTag then
    let (format, contents) ← takeBytes 2 contents
    let (_, contents) ← takeBytes 2 contents
    let (division, _) ← takeBytes 2 contents
    let division ← readDivision division
    let tracks ← readChunks rest
    pure ⟨value format, division, tracks⟩
  else none

/-! ## What is said is read -/

theorem takeBytes_append {size : Nat} {bytes : Bytes} (h : bytes.length = size) (rest : Bytes) :
    takeBytes size (bytes ++ rest) = some (bytes, rest) := by
  subst h
  simp [takeBytes]

theorem Digits.readQuantity_eq {n limit : Nat} {bytes : Bytes} (h : Digits n bytes)
    (hlimit : bytes.length ≤ limit) (high : Nat) (rest : Bytes) :
    readQuantity limit high (bytes ++ rest) = some (high * 128 ^ bytes.length + n, rest) := by
  induction h generalizing limit high with
  | @last byte hbyte =>
    obtain ⟨limit, rfl⟩ : ∃ k, limit = k + 1 := ⟨limit - 1, by simp at hlimit; omega⟩
    simp [readQuantity, hbyte, Nat.mul_comm]
  | @cons n byte bytes hbyte _ ih =>
    obtain ⟨limit, rfl⟩ : ∃ k, limit = k + 1 := ⟨limit - 1, by simp at hlimit; omega⟩
    have hnot : ¬ byte.toNat < 128 := by omega
    have hshift : (128 * high + (byte.toNat - 128)) * 128 ^ bytes.length + n =
        high * 128 ^ (byte :: bytes).length + ((byte.toNat - 128) * 128 ^ bytes.length + n) := by
      rw [List.length_cons, Nat.pow_succ', Nat.add_mul, Nat.add_assoc, ← Nat.mul_assoc,
        Nat.mul_comm 128 high]
    rw [List.cons_append, readQuantity, if_neg hnot, ih (by simpa using hlimit), hshift]

theorem SaysQuantity.readQuantity_eq {n : Nat} {bytes : Bytes} (h : SaysQuantity n bytes)
    (rest : Bytes) : readQuantity 4 0 (bytes ++ rest) = some (n, rest) := by
  rw [h.digits.readQuantity_eq h.length, Nat.zero_mul, Nat.zero_add]

theorem SaysQuantity.readContents_eq {contents size : Bytes}
    (h : SaysQuantity contents.length size) (rest : Bytes) :
    readContents (size ++ contents ++ rest) = some (contents, rest) := by
  simp only [readContents, List.append_assoc, h.readQuantity_eq, Option.bind_eq_bind,
    Option.bind_some, takeBytes_append]

theorem SaysEvent.ne_nil {running running' : Option UInt8} {event : FileEvent} {bytes : Bytes}
    (h : SaysEvent running event bytes running') : bytes ≠ [] := by
  cases h with
  | running hmessage =>
    rename_i status
    have hlength := hmessage.length
    rintro rfl
    rw [dataLength] at hlength
    split at hlength <;> simp at hlength
  | _ => exact List.cons_ne_nil _ _

/-- Data whose status byte is left out are not taken for a status byte. -/
theorem IsMessage.readEvent_eq {status : UInt8} {data : Bytes} (h : IsMessage status data)
    (rest : Bytes) :
    readEvent (some status) (data ++ rest) = some (.message status data, some status, rest) := by
  have hne : data ≠ [] := (SaysEvent.running h).ne_nil
  obtain ⟨byte, later, rfl⟩ := List.exists_cons_of_ne_nil hne
  have hlow : byte.toNat < 128 := UInt8.lt_iff_toNat_lt.1 (h.low byte List.mem_cons_self)
  have hff : byte ≠ 0xff := by rintro rfl; simp at hlow
  have hexclusive : ¬ (byte = 0xf0 ∨ byte = 0xf7) := by rintro (rfl | rfl) <;> simp at hlow
  have hstatus : ¬ 0x80 ≤ byte := fun hle => by
    have : 128 ≤ byte.toNat := UInt8.le_iff_toNat_le.1 hle
    omega
  have htake : takeBytes (dataLength status) (byte :: (later ++ rest)) = some (byte :: later, rest) :=
    takeBytes_append h.length rest
  rw [List.cons_append, readEvent, if_neg hff, if_neg hexclusive, if_neg hstatus]
  simp only [Option.bind_eq_bind, Option.bind_some, htake, Option.pure_def]

theorem SaysEvent.readEvent_eq {running running' : Option UInt8} {event : FileEvent} {bytes : Bytes}
    (h : SaysEvent running event bytes running') (rest : Bytes) :
    readEvent running (bytes ++ rest) = some (event, running', rest) := by
  cases h with
  | @message running status data hmessage =>
    obtain ⟨hlow, hhigh⟩ := hmessage.range
    have hhigh : status.toNat < 240 := UInt8.lt_iff_toNat_lt.1 hhigh
    have hff : status ≠ 0xff := by rintro rfl; simp at hhigh
    have hexclusive : ¬ (status = 0xf0 ∨ status = 0xf7) := by rintro (rfl | rfl) <;> simp at hhigh
    rw [List.cons_append, readEvent, if_neg hff, if_neg hexclusive, if_pos hlow]
    simp only [Option.bind_eq_bind, Option.bind_some, takeBytes_append hmessage.length,
      Option.pure_def]
  | running hmessage => exact hmessage.readEvent_eq rest
  | @exclusive running kind contents size hkind hsize =>
    have hff : kind ≠ 0xff := by rcases hkind with rfl | rfl <;> decide
    rw [List.cons_append, readEvent, if_neg hff, if_pos hkind]
    simp only [Option.bind_eq_bind, Option.bind_some, hsize.readContents_eq, Option.pure_def]
  | @remark running kind contents size hkind hsize =>
    rw [List.cons_append, readEvent, if_pos rfl]
    simp only [List.cons_append, List.head?_cons, List.tail_cons, Option.bind_eq_bind,
      Option.bind_some, hsize.readContents_eq, Option.pure_def]

theorem SaysTrack.readTrack_eq {running : Option UInt8} {track : FileTrack} {bytes : Bytes}
    (h : SaysTrack running track bytes) : readTrack running bytes = some track := by
  induction h with
  | @finish running running' delta time bytes hdelta hfinish =>
    have hevent := hfinish.readEvent_eq []
    rw [List.append_nil] at hevent
    rw [readTrack]
    simp only [hdelta.readQuantity_eq, hevent, Option.bind_eq_bind, Option.bind_some]
    rfl
  | @cons running running' delta event later time bytes rest hdelta hevent hfinish _ ih =>
    have hshorter : rest.length < (time ++ (bytes ++ rest)).length := by
      have := List.length_pos_iff.2 hevent.ne_nil
      simp only [List.length_append]
      omega
    rw [readTrack]
    simp only [hdelta.readQuantity_eq, hevent.readEvent_eq, Option.bind_eq_bind, Option.bind_some,
      hfinish, Bool.false_eq_true, if_false, dif_pos hshorter, ih, Option.pure_def]

theorem SaysChunk.length_lt {tag contents bytes : Bytes} (h : SaysChunk tag contents bytes)
    (rest : Bytes) : rest.length < (bytes ++ rest).length := by
  obtain ⟨htag, -⟩ := h
  simp only [List.length_append]
  omega

theorem SaysChunk.readChunk_eq {tag contents bytes : Bytes} (h : SaysChunk tag contents bytes)
    (rest : Bytes) : readChunk (bytes ++ rest) = some (tag, contents, rest) := by
  obtain ⟨htag, hsize⟩ := h
  simp only [readChunk, List.append_assoc, takeBytes_append htag, takeBytes_append hsize.length,
    takeBytes_append hsize.value.symm, Option.bind_eq_bind, Option.bind_some, Option.pure_def]

theorem SaysChunks.readChunks_eq {tracks : List FileTrack} {bytes : Bytes}
    (h : SaysChunks tracks bytes) : readChunks bytes = some tracks := by
  induction h with
  | nil => rw [readChunks, if_pos rfl]
  | @track track later contents bytes rest htrack hchunk _ ih =>
    have hshorter := hchunk.length_lt rest
    rw [readChunks, if_neg (List.ne_nil_of_length_pos (Nat.zero_lt_of_lt hshorter))]
    simp only [hchunk.readChunk_eq, dif_pos hshorter, ih, htrack.readTrack_eq, if_true,
      Option.bind_eq_bind, Option.bind_some, Option.pure_def]
  | @other later tag contents bytes rest _ htag hchunk _ ih =>
    have hshorter := hchunk.length_lt rest
    rw [readChunks, if_neg (List.ne_nil_of_length_pos (Nat.zero_lt_of_lt hshorter))]
    simp only [hchunk.readChunk_eq, dif_pos hshorter, ih, if_neg htag, Option.bind_eq_bind,
      Option.bind_some, Option.pure_def]

theorem SaysDivision.length {division : Division} {bytes : Bytes} (h : SaysDivision division bytes) :
    bytes.length = 2 := by
  cases h with
  | quarter _ _ h => exact h.length
  | second _ => rfl

theorem SaysDivision.readDivision_eq {division : Division} {bytes : Bytes}
    (h : SaysDivision division bytes) : readDivision bytes = some division := by
  cases h with
  | @quarter ticks bytes _ hticks h =>
    obtain ⟨hlength, rfl⟩ := h
    obtain ⟨high, low, rfl⟩ := List.length_eq_two.1 hlength
    have hhigh : high < 0x80 := by
      rw [UInt8.lt_iff_toNat_lt]
      simp [value] at hticks ⊢
      omega
    rw [readDivision, if_pos hhigh]
  | @second frames ticks hframes =>
    have hhigh : ¬ frames < 0x80 := by
      simp only [List.mem_cons, List.not_mem_nil, or_false] at hframes
      rcases hframes with rfl | rfl | rfl | rfl <;> decide
    rw [readDivision, if_neg hhigh]

/-- What bytes say is read. -/
theorem SaysFile.read_eq_some {file : File} {bytes : Bytes} (h : SaysFile file bytes) :
    read bytes = some file := by
  obtain ⟨hformat, _, hcount, _, hdivision, hheader, htracks⟩ := h
  simp only [read, hheader.readChunk_eq, if_true, takeBytes_append hformat.length,
    takeBytes_append hcount.length, takeBytes_append hdivision.length, hdivision.readDivision_eq,
    htracks.readChunks_eq, hformat.value, Option.bind_eq_bind, Option.bind_some, Option.pure_def]

theorem conforming_read : Conforming read := fun _ _ h => h.read_eq_some

/-- Bytes say at most one file. -/
theorem SaysFile.eq {file file' : File} {bytes : Bytes} (h : SaysFile file bytes)
    (h' : SaysFile file' bytes) : file = file' :=
  Option.some.inj (h.read_eq_some.symm.trans h'.read_eq_some)

end Chorale.Midi
