import Chorale.Proofs.Track.Line

/-!
# The order of a track

Notes can be added to a track in any order. Each of them begins behind all events that are not later
and ends in the same way, and the end is never put before the beginning (`events_addTone_eq`). So
however the notes overlap, the track holds their events sorted by tick, and those at the same tick
in the order in which they came (`Sorts`); since no other list does (`Sorts.unique`), it is the
stable sort of them. A key is never let go more often than it was struck (`Balanced`).
-/

namespace Chorale

/-! ## Sorted events -/

/-- The first list is the second one sorted by tick. Events at the same tick keep their order. -/
structure Sorts (sorted events : List NoteEvent) : Prop where
  ordered : sorted.Pairwise (·.tick ≤ ·.tick)
  stable : ∀ tick : UInt32, sorted.filter (·.tick = tick) = events.filter (·.tick = tick)

namespace Sorts

variable {sorted sorted' events : List NoteEvent}

theorem mem_iff (h : Sorts sorted events) {event : NoteEvent} :
    event ∈ sorted ↔ event ∈ events := by
  have hmem := congrArg (event ∈ ·) (h.stable event.tick)
  simpa using hmem

/-- The first event is no later than any other. -/
theorem head_le {event event' : NoteEvent} (h : Sorts (event :: sorted) events)
    (hevent : event' ∈ events) : event.tick ≤ event'.tick := by
  rcases List.mem_cons.1 (h.mem_iff.2 hevent) with rfl | hmem
  · exact UInt32.le_refl _
  · exact List.rel_of_pairwise_cons h.ordered hmem

/-- Of two lists sorted from the same events the first events are the same. -/
theorem head_eq {event event' : NoteEvent} (h : Sorts (event :: sorted) events)
    (h' : Sorts (event' :: sorted') events) : event = event' := by
  have hle : event.tick ≤ event'.tick := h.head_le (h'.mem_iff.1 List.mem_cons_self)
  have hge : event'.tick ≤ event.tick := h'.head_le (h.mem_iff.1 List.mem_cons_self)
  have htick : event'.tick = event.tick := UInt32.le_antisymm hge hle
  have hfilter := (h.stable event.tick).trans (h'.stable event.tick).symm
  simp only [List.filter_cons, htick, decide_true, if_true, List.cons.injEq] at hfilter
  exact hfilter.1

/-- There is one way to sort events. -/
theorem unique (h : Sorts sorted events) (h' : Sorts sorted' events) : sorted = sorted' := by
  induction sorted generalizing sorted' events with
  | nil =>
    refine (List.eq_nil_iff_forall_not_mem.2 fun event hevent => ?_).symm
    exact List.not_mem_nil (h.mem_iff.2 (h'.mem_iff.1 hevent))
  | cons event sorted ih =>
    obtain _ | ⟨event', sorted'⟩ := sorted'
    · exact absurd (h'.mem_iff.2 (h.mem_iff.1 List.mem_cons_self)) List.not_mem_nil
    · obtain rfl := head_eq h h'
      -- Both rests are sorted from the first of them.
      have hrest : Sorts sorted' sorted :=
        { ordered := (List.pairwise_cons.1 h'.ordered).2
          stable := fun tick => by
            have hfilter := (h'.stable tick).trans (h.stable tick).symm
            by_cases htick : event.tick = tick <;>
              simpa [List.filter_cons, htick] using hfilter }
      have hself : Sorts sorted sorted :=
        { ordered := (List.pairwise_cons.1 h.ordered).2, stable := fun _ => rfl }
      rw [ih hself hrest]

/-- The stable sort by tick. -/
theorem mergeSort (events : List NoteEvent) :
    Sorts (events.mergeSort (·.tick ≤ ·.tick)) events := by
  have htrans : ∀ a b c : NoteEvent, decide (a.tick ≤ b.tick) = true →
      decide (b.tick ≤ c.tick) = true → decide (a.tick ≤ c.tick) = true := by
    simpa using fun a b c => UInt32.le_trans
  have htotal : ∀ a b : NoteEvent,
      (decide (a.tick ≤ b.tick) || decide (b.tick ≤ a.tick)) = true := by
    simpa using fun a b : NoteEvent => UInt32.le_total a.tick b.tick
  constructor
  · simpa using List.pairwise_mergeSort htrans htotal events
  · intro tick
    have hsame : (events.filter (·.tick = tick)).Pairwise
        fun a b => decide (a.tick ≤ b.tick) = true := by
      refine List.pairwise_of_forall_mem_list fun a ha b hb => ?_
      simp only [List.mem_filter, decide_eq_true_eq] at ha hb ⊢
      exact ha.2.trans hb.2.symm ▸ UInt32.le_refl _
    have hsub := (List.sublist_mergeSort htrans htotal hsame List.filter_sublist).filter
      (·.tick = tick)
    rw [List.filter_filter] at hsub
    simp only [Bool.and_self] at hsub
    refine (hsub.eq_of_length ?_).symm
    exact ((List.mergeSort_perm events _).filter _).symm.length_eq

end Sorts

/-! ## What a note does to a track -/

/-- A list in order can be cut at a tick. -/
theorem exists_append_of_ordered {events : List NoteEvent} (h : events.Pairwise (·.tick ≤ ·.tick))
    (tick : UInt32) :
    ∃ earlier later, events = earlier ++ later ∧ (∀ e ∈ earlier, e.tick ≤ tick) ∧
      ∀ e ∈ later, tick < e.tick := by
  induction h with
  | nil => exact ⟨[], [], rfl, by simp, by simp⟩
  | @cons event events hle _ ih =>
    by_cases hevent : event.tick ≤ tick
    · obtain ⟨earlier, later, heq, hearlier, hlater⟩ := ih
      refine ⟨event :: earlier, later, congrArg (event :: ·) heq, ?_, hlater⟩
      exact List.forall_mem_cons.2 ⟨hevent, hearlier⟩
    · have hlt : tick < event.tick := UInt32.not_le.1 hevent
      refine ⟨[], event :: events, rfl, by simp, List.forall_mem_cons.2 ⟨hlt, fun e he => ?_⟩⟩
      exact UInt32.lt_of_lt_of_le hlt (hle e he)

namespace Track

/-- The two events of a tone are put among those of a track in order: the one that begins it behind
all that are not later, the one that ends it too, and after the one that begins it. -/
theorem events_addTone_eq {track : Track} {tone : Tone}
    (h : track.events.toList.Pairwise (·.tick ≤ ·.tick)) (htone : tone.start ≤ tone.finish) :
    ∃ before during after, track.events.toList = before ++ (during ++ after) ∧
      (track.addTone tone).events.toList =
        before ++ tone.on :: (during ++ tone.off :: after) ∧
      (∀ e ∈ before, e.tick ≤ tone.start) ∧
      (∀ e ∈ during, tone.start < e.tick ∧ e.tick ≤ tone.finish) ∧
      ∀ e ∈ after, tone.finish < e.tick := by
  obtain ⟨before, rest, htrack, hbefore, hrest⟩ := exists_append_of_ordered h tone.start
  have hordered : rest.Pairwise (·.tick ≤ ·.tick) := (List.pairwise_append.1 (htrack ▸ h)).2.1
  obtain ⟨during, after, rfl, hduring, hafter⟩ := exists_append_of_ordered hordered tone.finish
  have hon : (track.insert tone.on).events.toList =
      (before ++ tone.on :: during) ++ after := by
    rw [insert_eq htrack hbefore hrest, List.append_assoc, List.cons_append]
  have hearlier : ∀ e ∈ before ++ tone.on :: during, e.tick ≤ tone.finish := by
    intro e he
    rcases List.mem_append.1 he with he | he
    · exact UInt32.le_trans (hbefore e he) htone
    · rcases List.mem_cons.1 he with rfl | he
      · exact htone
      · exact hduring e he
  refine ⟨before, during, after, htrack, ?_, hbefore, fun e he => ⟨?_, hduring e he⟩, hafter⟩
  · rw [addTone, insert_eq hon hearlier hafter, List.append_assoc, List.cons_append]
  · exact hrest e (List.mem_append_left _ he)

end Track

theorem Sorts.addTone {track : Track} {events : List NoteEvent} {tone : Tone}
    (h : Sorts track.events.toList events) (htone : tone.start ≤ tone.finish) :
    Sorts (track.addTone tone).events.toList (events ++ tone.events) := by
  obtain ⟨before, during, after, htrack, hadd, hbefore, hduring, hafter⟩ :=
    Track.events_addTone_eq h.ordered htone
  constructor
  · have hold := htrack ▸ h.ordered
    rw [hadd]
    simp only [List.pairwise_append, List.pairwise_cons, List.mem_append, List.mem_cons] at hold ⊢
    grind [Tone.on, Tone.off]
  · intro tick
    -- Behind the beginning no event is at its tick, and behind the end none is at the end's.
    have hstart : tone.start = tick → during.filter (·.tick = tick) = [] := by
      rintro rfl
      simpa using fun e he => (UInt32.ne_of_lt (hduring e he).1).symm
    have hfinish : tone.start = tick ∨ tone.finish = tick → after.filter (·.tick = tick) = [] := by
      intro htick
      simp only [List.filter_eq_nil_iff, decide_eq_true_eq]
      intro e he
      have hlt := hafter e he
      grind
    rw [hadd, List.filter_append, List.filter_append, ← h.stable tick, htrack]
    by_cases hon : tone.start = tick <;> by_cases hoff : tone.finish = tick <;>
      simp [Tone.events, Tone.on, Tone.off, hstart, hfinish, hon, hoff]

/-! ## Keys struck and let go -/

/-- How often a key is struck, or let go. -/
def keyCount (kind : EventKind) (key : UInt8) (events : List NoteEvent) : Nat :=
  events.countP fun event => event.kind = kind ∧ event.key = key

@[simp]
theorem keyCount_append (kind : EventKind) (key : UInt8) (earlier later : List NoteEvent) :
    keyCount kind key (earlier ++ later) = keyCount kind key earlier + keyCount kind key later :=
  List.countP_append

@[simp]
theorem keyCount_cons (kind : EventKind) (key : UInt8) (event : NoteEvent)
    (events : List NoteEvent) :
    keyCount kind key (event :: events) =
      keyCount kind key events + if event.kind = kind ∧ event.key = key then 1 else 0 := by
  simp [keyCount, List.countP_cons]

/-- However far the events are heard, no key was let go more often than it was struck, and in the
end each was let go as often. -/
structure Balanced (events : List NoteEvent) : Prop where
  le : ∀ heard, heard <+: events → ∀ key, keyCount .off key heard ≤ keyCount .on key heard
  settled : ∀ key, keyCount .off key events = keyCount .on key events

theorem Balanced.nil : Balanced [] where
  le heard hheard key := by rw [List.prefix_nil.1 hheard]; exact Nat.le_refl _
  settled _ := rfl

/-- A beginning and an end behind it keep the balance. -/
theorem Balanced.insert {before during after : List NoteEvent} {tone : Tone}
    (h : Balanced (before ++ (during ++ after))) :
    Balanced (before ++ tone.on :: (during ++ tone.off :: after)) where
  le := by
    rintro heard ⟨unheard, hheard⟩ key
    -- What is heard stops in the first part, in the second or in the third.
    rcases List.append_eq_append_iff.1 hheard with ⟨rest, rfl, -⟩ | ⟨part, rfl, hpart⟩
    · exact h.le heard ⟨rest ++ (during ++ after), by simp⟩ key
    rcases List.append_eq_cons_iff.1 hpart.symm with ⟨rfl, -⟩ | ⟨second, rfl, hsecond⟩
    · simpa using h.le before (List.prefix_append _ _) key
    rcases List.append_eq_append_iff.1 hsecond.symm with ⟨rest, rfl, -⟩ | ⟨tail, rfl, htail⟩
    · have := h.le (before ++ second) ⟨rest ++ after, by simp⟩ key
      simp [Tone.on] at this ⊢
      omega
    rcases List.append_eq_cons_iff.1 htail.symm with ⟨rfl, -⟩ | ⟨third, rfl, hthird⟩
    · have := h.le (before ++ during) ⟨after, by simp⟩ key
      simp [Tone.on] at this ⊢
      omega
    · have := h.le (before ++ (during ++ third)) ⟨unheard, by simp [hthird]⟩ key
      simp [Tone.on, Tone.off] at this ⊢
      omega
  settled key := by
    have := h.settled key
    simp [Tone.on, Tone.off] at this ⊢
    omega

/-! ## Notes in any order -/

/-- A note as it is added to a track. -/
structure Entry where
  start : UInt32
  duration : UInt32
  key : UInt8
  velocity : UInt8
deriving DecidableEq

namespace Entry

/-- The tick at which the note ends. -/
def finish (entry : Entry) : Nat := entry.start.toNat + entry.duration.toNat

/-- What sounds. -/
def tone (entry : Entry) : Tone :=
  ⟨entry.start, entry.start + entry.duration, entry.key, entry.velocity⟩

theorem finish_tone {entry : Entry} (h : entry.finish < 2 ^ 32) :
    entry.tone.finish.toNat = entry.finish := by
  rw [tone, UInt32.toNat_add]
  exact Nat.mod_eq_of_lt h

theorem start_le_finish {entry : Entry} (h : entry.finish < 2 ^ 32) :
    entry.tone.start ≤ entry.tone.finish := by
  rw [UInt32.le_iff_toNat_le, finish_tone h]
  exact Nat.le_add_right _ _

/-- Each note begins once. -/
theorem countP_on (entries : List Entry) :
    (entries.flatMap (·.tone.events)).countP (·.kind = .on) = entries.length := by
  induction entries with
  | nil => rfl
  | cons entry entries ih =>
    have hone : entry.tone.events.countP (·.kind = .on) = 1 := rfl
    rw [List.flatMap_cons, List.countP_append, ih, hone, List.length_cons, Nat.add_comm]

end Entry

namespace Track

/-- The track with one more note. -/
def addEntry (track : Track) (entry : Entry) : Except Failure Track :=
  track.addNote entry.start entry.duration entry.key entry.velocity

theorem addEntry_eq_ok (track : Track) {entry : Entry} (h : entry.finish < 2 ^ 32) :
    track.addEntry entry = .ok (track.addTone entry.tone) :=
  track.addNote_eq_ok (Entry.finish_tone h) entry.key entry.velocity

/-- The track with notes, added in the order of the list. -/
def addAll (track : Track) (entries : List Entry) : Except Failure Track :=
  entries.foldlM addEntry track

/-- The track holds these events, sorted, and no end of a note before its beginning. -/
structure Holds (track : Track) (events : List NoteEvent) : Prop where
  sorts : Sorts track.events.toList events
  balanced : Balanced track.events.toList

namespace Holds

variable {track : Track} {events : List NoteEvent}

theorem addTone {tone : Tone} (h : track.Holds events) (htone : tone.start ≤ tone.finish) :
    (track.addTone tone).Holds (events ++ tone.events) := by
  obtain ⟨before, during, after, htrack, hadd, -⟩ := events_addTone_eq h.sorts.ordered htone
  have hbalanced : Balanced (before ++ (during ++ after)) := htrack ▸ h.balanced
  exact ⟨h.sorts.addTone htone, hadd ▸ hbalanced.insert⟩

theorem addAll (h : track.Holds events) {entries : List Entry}
    (hfits : ∀ entry ∈ entries, entry.finish < 2 ^ 32) :
    ∃ track', track.addAll entries = .ok track' ∧
      track'.Holds (events ++ entries.flatMap (·.tone.events)) := by
  induction entries generalizing track events with
  | nil => exact ⟨track, rfl, by simpa using h⟩
  | cons entry entries ih =>
    obtain ⟨hentry, hentries⟩ := List.forall_mem_cons.1 hfits
    obtain ⟨track', hadd, hholds⟩ := ih (h.addTone (Entry.start_le_finish hentry)) hentries
    refine ⟨track', ?_, ?_⟩
    · rw [Track.addAll, List.foldlM_cons, track.addEntry_eq_ok hentry]
      exact hadd
    · rwa [List.flatMap_cons, ← List.append_assoc]

end Holds

/-- What a track tells of the notes that were added to it. -/
structure Records (track : Track) (entries : List Entry) : Prop where
  /-- The events are the stable sort, by tick, of the events of the notes. -/
  sorted : track.events.toList = (entries.flatMap (·.tone.events)).mergeSort (·.tick ≤ ·.tick)
  /-- None is lost and none is doubled. -/
  perm : track.events.toList.Perm (entries.flatMap (·.tone.events))
  /-- Events at the same tick keep the order in which they came. -/
  stable : ∀ tick : UInt32, track.events.toList.filter (·.tick = tick) =
    (entries.flatMap (·.tone.events)).filter (·.tick = tick)
  ordered : track.isOrdered = true
  noteCount : track.noteCount = entries.length
  /-- The track ends where the last note does. -/
  endTick : track.endTick.toNat = (entries.map Entry.finish).max?.getD 0
  balanced : Balanced track.events.toList

/-- A track in order ends with the latest of its events. -/
theorem le_endTick {track : Track} (h : track.events.toList.Pairwise (·.tick ≤ ·.tick)) :
    ∀ event ∈ track.events.toList, event.tick ≤ track.endTick := by
  intro event hevent
  rw [endTick, ← Array.getLast?_toList]
  obtain hlast | ⟨last, hlast⟩ := Option.eq_none_or_eq_some track.events.toList.getLast?
  · rw [List.getLast?_eq_none_iff.1 hlast] at hevent
    exact absurd hevent List.not_mem_nil
  · obtain ⟨earlier, heq⟩ := List.getLast?_eq_some_iff.1 hlast
    rw [hlast]
    rw [heq] at h hevent
    rcases List.mem_append.1 hevent with hevent | hevent
    · exact (List.pairwise_append.1 h).2.2 event hevent last List.mem_cons_self
    · rw [List.mem_singleton.1 hevent]
      exact UInt32.le_refl _

theorem exists_tick_eq_endTick {track : Track} (h : track.events.toList ≠ []) :
    ∃ event ∈ track.events.toList, event.tick = track.endTick := by
  refine ⟨_, List.getLast_mem h, ?_⟩
  rw [endTick, ← Array.getLast?_toList, List.getLast?_eq_some_getLast h]
  rfl

namespace Holds

variable {track : Track} {entries : List Entry}

/-- The events are the beginnings and the ends of the notes. -/
theorem mem_iff (h : track.Holds (entries.flatMap (·.tone.events))) {event : NoteEvent} :
    event ∈ track.events.toList ↔
      ∃ entry ∈ entries, event = entry.tone.on ∨ event = entry.tone.off := by
  rw [h.sorts.mem_iff, List.mem_flatMap]
  simp [Tone.events]

theorem endTick_eq (h : track.Holds (entries.flatMap (·.tone.events)))
    (hfits : ∀ entry ∈ entries, entry.finish < 2 ^ 32) :
    track.endTick.toNat = (entries.map Entry.finish).max?.getD 0 := by
  by_cases hnone : entries = []
  · have hevents : track.events.toList = [] :=
      List.eq_nil_iff_forall_not_mem.2 fun event hevent => by simpa [hnone] using h.mem_iff.1 hevent
    rw [hnone, endTick, ← Array.getLast?_toList, hevents]
    rfl
  have hle : ∀ entry ∈ entries, entry.finish ≤ track.endTick.toNat := by
    intro entry hentry
    have hoff := le_endTick h.sorts.ordered _ (h.mem_iff.2 ⟨entry, hentry, .inr rfl⟩)
    rw [← Entry.finish_tone (hfits entry hentry)]
    exact UInt32.le_iff_toNat_le.1 hoff
  -- The last event is the end of a note, or its beginning and no earlier than its end.
  have hmem : ∃ entry ∈ entries, entry.finish = track.endTick.toNat := by
    obtain ⟨first, hfirst⟩ := List.exists_mem_of_ne_nil _ hnone
    have hne : track.events.toList ≠ [] :=
      List.ne_nil_of_mem (h.mem_iff.2 ⟨first, hfirst, .inl rfl⟩)
    obtain ⟨event, hevent, htick⟩ := exists_tick_eq_endTick hne
    obtain ⟨entry, hentry, hevent⟩ := h.mem_iff.1 hevent
    have hlast := hle entry hentry
    refine ⟨entry, hentry, Nat.le_antisymm hlast ?_⟩
    rcases hevent with rfl | rfl
    · rw [← htick]
      exact Nat.le_add_right entry.start.toNat entry.duration.toNat
    · rw [← htick, ← Entry.finish_tone (hfits entry hentry)]
      exact Nat.le_refl _
  have hmax : (entries.map Entry.finish).max? = some track.endTick.toNat := by
    rw [List.max?_eq_some_iff]
    simpa using ⟨hmem, hle⟩
  rw [hmax]
  rfl

theorem records (h : track.Holds (entries.flatMap (·.tone.events)))
    (hfits : ∀ entry ∈ entries, entry.finish < 2 ^ 32) : track.Records entries := by
  have hsorted := h.sorts.unique (Sorts.mergeSort _)
  have hperm := hsorted ▸ List.mergeSort_perm _ _
  exact {
    sorted := hsorted
    perm := hperm
    stable := h.sorts.stable
    ordered := isOrdered_of_pairwise h.sorts.ordered
    noteCount := by rw [noteCount, ← Array.countP_toList, hperm.countP_eq, Entry.countP_on]
    endTick := h.endTick_eq hfits
    balanced := h.balanced }

end Holds

/-- Notes whose ends are ticks can be added to an empty track in any order, and whether or not they
overlap or last at all. -/
theorem addAll_records (entries : List Entry) (h : ∀ entry ∈ entries, entry.finish < 2 ^ 32) :
    ∃ track, empty.addAll entries = .ok track ∧ track.Records entries := by
  have hempty : empty.Holds [] := ⟨⟨.nil, fun _ => rfl⟩, .nil⟩
  obtain ⟨track, hadd, hholds⟩ := hempty.addAll h
  exact ⟨track, hadd, hholds.records h⟩

/-- Notes that overlap, come out of order, share their ticks and keys, or last no time. -/
def jumbled : List Entry :=
  [⟨480, 240, 60, 100⟩, ⟨0, 960, 60, 90⟩, ⟨480, 0, 60, 80⟩, ⟨240, 240, 67, 70⟩, ⟨720, 0, 64, 60⟩]

theorem addAll_jumbled :
    (∀ entry ∈ jumbled, entry.finish < 2 ^ 32) ∧
      ∃ track, empty.addAll jumbled = .ok track ∧ track.Records jumbled ∧ track.noteCount = 5 ∧
        track.endTick = 960 := by
  have hfits : ∀ entry ∈ jumbled, entry.finish < 2 ^ 32 := by decide
  obtain ⟨track, hadd, hrecords⟩ := addAll_records jumbled hfits
  have hend : track.endTick.toNat = 960 := hrecords.endTick.trans (by decide)
  exact ⟨hfits, track, hadd, hrecords, hrecords.noteCount, UInt32.toNat_inj.1 hend⟩

end Track

end Chorale
