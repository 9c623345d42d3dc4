import Chorale.Proofs.Midi.Encoding

/-!
# What becomes of a sequence

A sequence with tracks in order is written to a file, or it is refused for the first thing that the
file cannot say: the resolution, the tempo, or the first time between two events that is too long.
Nothing else can go wrong with it (`encode_outcome`): as each event is no earlier than the one
before, the times between events can always be taken (`sub_spans`), and it does not matter how late
the events are.
-/

namespace Chorale.Midi

/-- The ticks from and to which the times between the events of a track are counted. -/
def spans (last : UInt32) (events : List NoteEvent) : List (UInt32 × UInt32) :=
  (last :: events.map (·.tick)).zip (events.map (·.tick))

/-- Between events in order no time falls below zero. -/
theorem sub_spans {last : UInt32} {events : List NoteEvent} (h : Ascending last events) :
    List.Forall₂ (fun span gap => Checked.sub span.2 span.1 = .ok gap) (spans last events)
      (gaps last events) := by
  induction events generalizing last with
  | nil => exact .nil
  | cons event later ih =>
    obtain ⟨hle, hlater⟩ := ascending_cons h
    exact .cons (sub_eq_gap hle) (ih hlater)

/-- The sizes of tracks can be seen from what they are. -/
theorem forall_length_lt_of_all (names : List Word) (tracks : List Track)
    (h : (allContents names tracks).toOption.all (·.all (·.length < 2 ^ 32)) = true) :
    ∀ contents, allContents names tracks = .ok contents →
      ∀ bytes ∈ contents, bytes.length < 2 ^ 32 := by
  intro contents hok bytes hmem
  rw [hok] at h
  exact of_decide_eq_true (List.all_eq_true.1 h bytes hmem)

/-- A sequence with tracks in order is refused for its resolution, else for its tempo, else for the
first time between two events that is too long for a file; else it is encoded. -/
theorem encode_outcome (sequence : Sequence) (perMinute : UInt32)
    (hordered : ∀ track ∈ sequence.tracks, track.isOrdered = true)
    (hcount : sequence.tracks.length ≤ 65534)
    (hsizes : ∀ tracks, allContents (Voice.all.map (·.name)) sequence.tracks = .ok tracks →
      ∀ contents ∈ tracks, contents.length < 2 ^ 32) :
    (∀ track ∈ sequence.tracks,
      List.Forall₂ (fun span gap => Checked.sub span.2 span.1 = .ok gap)
        (spans 0 track.events.toList) (gaps 0 track.events.toList)) ∧
    if sequence.ticksPerQuarter.toNat = 0 ∨ 32767 < sequence.ticksPerQuarter.toNat then
      encode sequence perMinute = .error (.resolution sequence.ticksPerQuarter)
    else if perMinute.toNat < 4 then encode sequence perMinute = .error (.tempo perMinute)
    else match (sequence.tracks.flatMap fun track => gaps 0 track.events.toList).find?
        (2 ^ 28 - 1 < ·.toNat) with
      | some gap => encode sequence perMinute = .error (.delta gap)
      | none => ∃ bytes, encode sequence perMinute = .ok bytes := by
  refine ⟨fun track htrack => sub_spans (ascending_of_isOrdered (hordered track htrack)), ?_⟩
  split
  case isTrue hrefused => exact encode_resolution (by omega)
  case isFalse hresolution =>
  split
  case isTrue hslow => exact encode_tempo (by omega) hslow
  case isFalse hfast =>
  have hsayable : Sayable sequence.ticksPerQuarter perMinute := ⟨by omega, Nat.not_lt.1 hfast⟩
  split
  case h_1 gap hgap => exact encode_delta hsayable hordered hgap
  case h_2 hnone =>
    have hgaps : ∀ track ∈ sequence.tracks, ∀ gap ∈ gaps 0 track.events.toList,
        gap.toNat ≤ maxDelta := by
      intro track htrack gap hgap
      have hshort := List.find?_eq_none.1 hnone gap (List.mem_flatMap.2 ⟨track, htrack, hgap⟩)
      exact Nat.not_lt.1 fun hlong => hshort (decide_eq_true hlong)
    have hcount : sequence.tracks.length < maxTracks := by rw [maxTracks]; omega
    obtain ⟨tracks, hok, hencode⟩ := encode_of_gaps hsayable hcount hordered hgaps
    have hfits : ∀ contents ∈ tracks, contents.length ≤ maxContents :=
      fun contents hmem => Nat.le_of_lt_succ (hsizes tracks hok contents hmem)
    rwa [if_pos hfits] at hencode

/-- A track of which the times between events can just be said, though it ends too late for one of
them. -/
def patientTrack : Track := ⟨#[⟨268435455, .on, 60, 64⟩, ⟨536870910, .off, 60, 64⟩]⟩

/-- A track of which the first time is too long by one tick, and the second is longer still. -/
def lateTrack : Track := ⟨#[⟨268435456, .on, 60, 64⟩, ⟨4294967295, .off, 60, 64⟩]⟩

theorem encode_outcome_late :
    (∃ bytes, encode ⟨480, [patientTrack]⟩ 4 = .ok bytes) ∧
      encode ⟨480, [patientTrack, lateTrack]⟩ 4 = .error (.delta 268435456) ∧
      encode ⟨480, [patientTrack, lateTrack]⟩ 3 = .error (.tempo 3) ∧
      encode ⟨32768, [patientTrack, lateTrack]⟩ 3 = .error (.resolution 32768) := by
  have hordered : ∀ track ∈ [patientTrack, lateTrack], track.isOrdered = true := by decide
  have hpatient : ∀ track ∈ [patientTrack], track.isOrdered = true := by decide
  have hsizes := forall_length_lt_of_all (Voice.all.map (·.name)) [patientTrack, lateTrack]
    (by decide +kernel)
  have hsize := forall_length_lt_of_all (Voice.all.map (·.name)) [patientTrack] (by decide +kernel)
  exact ⟨(encode_outcome ⟨480, [patientTrack]⟩ 4 hpatient (by decide) hsize).2,
    (encode_outcome ⟨480, [patientTrack, lateTrack]⟩ 4 hordered (by decide) hsizes).2,
    (encode_outcome ⟨480, [patientTrack, lateTrack]⟩ 3 hordered (by decide) hsizes).2,
    (encode_outcome ⟨32768, [patientTrack, lateTrack]⟩ 3 hordered (by decide) hsizes).2⟩

end Chorale.Midi
