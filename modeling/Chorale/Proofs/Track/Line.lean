import Chorale.Proofs.Draw.WP
import Chorale.Track

/-!
# Lines

A new event is put between those that are not later and those that are (`insert_eq`), and so at the
end of a track that has come up to its tick (`insert_of_le`). A `Line` is a list of tones that
follow each other without a rest; a line that begins where a track ends is put behind it as it is
(`events_foldl_addTone`). The events of a line are in order, and at each of its ticks exactly one
tone sounds (`Line.existsUnique_sounding`).
-/

namespace Chorale

variable {allowed : Failure → Prop}

namespace Track

/-! ## Where an event is put -/

/-- The search finds the place at which the property stops to hold. -/
theorem bisect_eq {holds : Nat → Bool} {base size cut : Nat} (hbase : base ≤ cut)
    (hsize : cut ≤ base + size)
    (hcut : ∀ place, base ≤ place → place < base + size → (holds place = true ↔ place < cut)) :
    bisect holds base size = cut := by
  fun_induction bisect holds base size with
  | case1 base size hle hone =>
    have := (hcut base (Nat.le_refl _) (by omega)).1 hone.2
    omega
  | case2 base size hle hnone =>
    by_cases hcut' : base < cut
    · exact absurd ⟨by omega, (hcut base (Nat.le_refl _) (by omega)).2 hcut'⟩ hnone
    · omega
  | case3 base size hle half hhalf ih =>
    have := (hcut (base + half) (by omega) (by omega)).1 hhalf
    exact ih (by omega) (by omega) fun place hlow hhigh => hcut place (by omega) (by omega)
  | case4 base size hle half hhalf ih =>
    have := mt (hcut (base + half) (by omega) (by omega)).2 hhalf
    exact ih hbase (by omega) fun place hlow hhigh => hcut place hlow (by omega)

theorem insertIdx_length_append {α : Type} (earlier later : List α) (a : α) :
    (earlier ++ later).insertIdx earlier.length a = earlier ++ a :: later := by
  induction earlier with
  | nil => rfl
  | cons b earlier ih =>
    show (b :: (earlier ++ later)).insertIdx (earlier.length + 1) a = b :: (earlier ++ a :: later)
    rw [List.insertIdx_succ_cons, ih]

/-- An event is put between those that are not later and those that are. -/
theorem insert_eq {track : Track} {event : NoteEvent} {earlier later : List NoteEvent}
    (h : track.events.toList = earlier ++ later) (hearlier : ∀ e ∈ earlier, e.tick ≤ event.tick)
    (hlater : ∀ e ∈ later, event.tick < e.tick) :
    (track.insert event).events.toList = earlier ++ event :: later := by
  have hsize : track.events.size = earlier.length + later.length := by
    rw [← Array.length_toList, h, List.length_append]
  have hcut : ∀ place, place < track.events.size →
      ((track.events[place]?).any (·.tick ≤ event.tick) = true ↔ place < earlier.length) := by
    intro place hplace
    rw [← Array.getElem?_toList, h]
    by_cases hleft : place < earlier.length
    · have hle := hearlier _ (List.getElem_mem hleft)
      simp [List.getElem?_append_left hleft, hle, hleft]
    · have hright : place - earlier.length < later.length := by omega
      have hlt := UInt32.not_le.2 (hlater _ (List.getElem_mem hright))
      simp [List.getElem?_append_right (Nat.le_of_not_lt hleft), hright, hlt, hleft]
  have hplace : bisect (fun place => (track.events[place]?).any (·.tick ≤ event.tick)) 0
      track.events.size = earlier.length :=
    bisect_eq (Nat.zero_le _) (by omega) fun place _ hlt => hcut place (by omega)
  simp only [insert, hplace, Array.insertIdxIfInBounds]
  rw [dif_pos (by omega), Array.toList_insertIdx, h, insertIdx_length_append]

/-- An event that is earlier than none of a track is put at its end. -/
theorem insert_of_le {track : Track} {event : NoteEvent}
    (h : ∀ e ∈ track.events.toList, e.tick ≤ event.tick) :
    (track.insert event).events.toList = track.events.toList ++ [event] :=
  insert_eq (List.append_nil _).symm h fun _ he => absurd he List.not_mem_nil

end Track

/-! ## Tones -/

/-- A note that sounds from one tick up to another. -/
structure Tone where
  start : UInt32
  finish : UInt32
  key : UInt8
  velocity : UInt8
deriving DecidableEq

namespace Tone

/-- The event that begins a tone. -/
def on (tone : Tone) : NoteEvent := ⟨tone.start, .on, tone.key, tone.velocity⟩

/-- The event that ends a tone. -/
def off (tone : Tone) : NoteEvent := ⟨tone.finish, .off, tone.key, tone.velocity⟩

/-- Both events. -/
def events (tone : Tone) : List NoteEvent := [tone.on, tone.off]

end Tone

namespace Track

/-- The track with a tone. -/
def addTone (track : Track) (tone : Tone) : Track := (track.insert tone.on).insert tone.off

/-- A note is a tone up to its end, which must be a tick. -/
theorem WP.addNote (h : allowed .overflow) (track : Track) (start duration : UInt32)
    (key velocity : UInt8) :
    Checked.WP allowed (track.addNote start duration key velocity) fun track' =>
      ∃ finish, finish.toNat = start.toNat + duration.toNat ∧
        track' = track.addTone ⟨start, finish, key, velocity⟩ :=
  .bind (.mono (.add h start duration) fun finish hfinish =>
    .ok ⟨finish, Int.ofNat.inj hfinish, rfl⟩)

theorem addNote_eq_ok (track : Track) {start duration finish : UInt32}
    (h : finish.toNat = start.toNat + duration.toNat) (key velocity : UInt8) :
    track.addNote start duration key velocity =
      .ok (track.addTone ⟨start, finish, key, velocity⟩) := by
  have hadd : Checked.add start duration = .ok finish :=
    Checked.add_eq_ok_iff.2 (congrArg Int.ofNat h)
  rw [addNote, hadd]
  rfl

theorem exists_addNote_eq_ok (track : Track) {start duration : UInt32}
    (h : start.toNat + duration.toNat < 2 ^ 32) (key velocity : UInt8) :
    ∃ track', track.addNote start duration key velocity = .ok track' := by
  obtain ⟨finish, -, hfinish⟩ := Checked.unsigned32.add_eq_ok h
  exact ⟨_, track.addNote_eq_ok hfinish key velocity⟩

/-- A tone that begins where a track ends is put behind it. -/
theorem events_addTone {track : Track} {tone : Tone}
    (h : ∀ e ∈ track.events.toList, e.tick ≤ tone.start) (htone : tone.start ≤ tone.finish) :
    (track.addTone tone).events.toList = track.events.toList ++ tone.events := by
  have hon : (track.insert tone.on).events.toList = track.events.toList ++ [tone.on] :=
    insert_of_le h
  have hoff : ∀ e ∈ (track.insert tone.on).events.toList, e.tick ≤ tone.off.tick := by
    intro e he
    rw [hon, List.mem_append, List.mem_singleton] at he
    rcases he with he | rfl
    · exact UInt32.le_trans (h e he) htone
    · exact htone
  rw [addTone, insert_of_le hoff, hon, List.append_assoc]
  rfl

end Track

/-! ## Lines -/

/-- Tones that fill the ticks from `start` to `finish`, one after another. -/
inductive Line : (start : Nat) → List Tone → (finish : Nat) → Prop
  | nil (start : Nat) : Line start [] start
  | cons {start finish : Nat} {tone : Tone} {tones : List Tone} (hstart : tone.start.toNat = start)
    (hlast : start < tone.finish.toNat) (rest : Line tone.finish.toNat tones finish) :
    Line start (tone :: tones) finish

namespace Line

variable {start middle finish : Nat} {tones later : List Tone}

theorem append (h : Line start tones middle) (k : Line middle later finish) :
    Line start (tones ++ later) finish := by
  induction h with
  | nil => exact k
  | cons hstart hlast _ ih => exact .cons hstart hlast (ih k)

theorem le (h : Line start tones finish) : start ≤ finish := by
  induction h with
  | nil => exact Nat.le_refl _
  | cons hstart hlast _ ih => omega

/-- No event of a line lies outside it. -/
theorem tick_bounds (h : Line start tones finish) {e : NoteEvent} (he : e ∈ tones.flatMap Tone.events) :
    start ≤ e.tick.toNat ∧ e.tick.toNat ≤ finish := by
  induction h with
  | nil => simp at he
  | @cons start finish tone tones hstart hlast rest ih =>
    have hle := rest.le
    rw [List.flatMap_cons, List.mem_append] at he
    rcases he with he | he
    · simp only [Tone.events, List.mem_cons, List.not_mem_nil, or_false] at he
      rcases he with rfl | rfl <;> simp only [Tone.on, Tone.off] <;> omega
    · have := ih he
      omega

/-- No tone of a line lies outside it, and all of them last. -/
theorem bounds_of_mem (h : Line start tones finish) {tone : Tone} (htone : tone ∈ tones) :
    start ≤ tone.start.toNat ∧ tone.start.toNat < tone.finish.toNat ∧
      tone.finish.toNat ≤ finish := by
  induction h with
  | nil => simp at htone
  | cons hstart hlast rest ih =>
    have hle := rest.le
    rcases List.mem_cons.1 htone with rfl | htone
    · omega
    · have := ih htone
      omega

/-- The events of a line are in order. -/
theorem pairwise_tick (h : Line start tones finish) :
    (tones.flatMap Tone.events).Pairwise (·.tick ≤ ·.tick) := by
  induction h with
  | nil => exact .nil
  | @cons start finish tone tones hstart hlast rest ih =>
    have htone : tone.start ≤ tone.finish := UInt32.le_iff_toNat_le.2 (by omega)
    have hrest : ∀ e ∈ tones.flatMap Tone.events, tone.finish ≤ e.tick := fun e he =>
      UInt32.le_iff_toNat_le.2 (rest.tick_bounds he).1
    rw [List.flatMap_cons]
    refine .cons (fun e he => ?_) (.cons hrest ih)
    rcases List.mem_cons.1 he with rfl | he
    · exact htone
    · exact UInt32.le_trans htone (hrest e he)

/-- At each tick of a line exactly one of its tones sounds. -/
theorem existsUnique_sounding (h : Line start tones finish) {tick : Nat} (hstart : start ≤ tick)
    (hfinish : tick < finish) :
    ∃! i, ∃ hi : i < tones.length, tones[i].start.toNat ≤ tick ∧ tick < tones[i].finish.toNat := by
  induction h with
  | nil => omega
  | @cons start finish tone tones hfirst hlast rest ih =>
    by_cases htick : tick < tone.finish.toNat
    · refine ⟨0, ⟨Nat.succ_pos _, by simp; omega⟩, ?_⟩
      rintro (_ | i) ⟨hi, hlow, hhigh⟩
      · rfl
      · have hi : i < tones.length := Nat.lt_of_succ_lt_succ hi
        have hlow : tones[i].start.toNat ≤ tick := hlow
        have hmem : tones[i].on ∈ tones.flatMap Tone.events :=
          List.mem_flatMap.2 ⟨tones[i], List.getElem_mem hi, List.mem_cons_self⟩
        have hafter : tone.finish.toNat ≤ tones[i].start.toNat := (rest.tick_bounds hmem).1
        omega
    · obtain ⟨i, ⟨hi, hlow, hhigh⟩, hunique⟩ := ih (by omega) hfinish
      refine ⟨i + 1, ⟨Nat.succ_lt_succ hi, hlow, hhigh⟩, ?_⟩
      rintro (_ | j) ⟨hj, hlow', hhigh'⟩
      · simp at hhigh'; omega
      · exact congrArg Nat.succ (hunique j ⟨Nat.lt_of_succ_lt_succ hj, hlow', hhigh'⟩)

end Line

namespace Track

/-- A line that begins where a track ends is put behind it. -/
theorem events_foldl_addTone {track : Track} {start finish : Nat} {tones : List Tone}
    (h : Line start tones finish) (htrack : ∀ e ∈ track.events.toList, e.tick.toNat ≤ start) :
    (tones.foldl addTone track).events.toList =
      track.events.toList ++ tones.flatMap Tone.events := by
  induction h generalizing track with
  | nil => simp
  | @cons start finish tone tones hstart hlast rest ih =>
    have hadd : (track.addTone tone).events.toList = track.events.toList ++ tone.events :=
      events_addTone (fun e he => UInt32.le_iff_toNat_le.2 (hstart ▸ htrack e he))
        (UInt32.le_iff_toNat_le.2 (by omega))
    have hended : ∀ e ∈ (track.addTone tone).events.toList, e.tick.toNat ≤ tone.finish.toNat := by
      intro e he
      rw [hadd, List.mem_append] at he
      rcases he with he | he
      · have := htrack e he
        omega
      · simp only [Tone.events, List.mem_cons, List.not_mem_nil, or_false] at he
        rcases he with rfl | rfl <;> simp only [Tone.on, Tone.off] <;> omega
    rw [List.foldl_cons, ih hended, hadd, List.flatMap_cons, List.append_assoc]

theorem endTick_of_events {track : Track} {earlier : List NoteEvent} {tone : Tone}
    (h : track.events.toList = earlier ++ tone.events) : track.endTick = tone.finish := by
  have hlast : track.events.toList.getLast? = some tone.off := by
    rw [h, List.getLast?_append]
    rfl
  rw [endTick, ← Array.getLast?_toList, hlast]
  rfl

theorem isOrdered_of_pairwise {track : Track}
    (h : track.events.toList.Pairwise (·.tick ≤ ·.tick)) : track.isOrdered = true := by
  rw [isOrdered]
  generalize track.events.toList = events at h
  induction h with
  | nil => rfl
  | @cons e events hle hevents ih =>
    cases events with
    | nil => rfl
    | cons e' events =>
      rw [List.tail_cons, List.zip_cons_cons, List.all_cons, Bool.and_eq_true, decide_eq_true_eq]
      exact ⟨hle e' List.mem_cons_self, ih⟩

theorem pairwise_of_isOrdered {track : Track} (h : track.isOrdered = true) :
    track.events.toList.Pairwise (·.tick ≤ ·.tick) := by
  rw [isOrdered] at h
  generalize track.events.toList = events at h
  induction events with
  | nil => exact .nil
  | cons e events ih =>
    cases events with
    | nil => exact List.pairwise_singleton _ _
    | cons e' events =>
      rw [List.tail_cons, List.zip_cons_cons, List.all_cons, Bool.and_eq_true,
        decide_eq_true_eq] at h
      obtain ⟨hle, hrest⟩ := h
      have hpairwise := ih hrest
      refine .cons (fun later hlater => ?_) hpairwise
      rcases List.mem_cons.1 hlater with rfl | hlater
      · exact hle
      · exact UInt32.le_trans hle (List.rel_of_pairwise_cons hpairwise hlater)

/-- From its first tick up to `finish` the track never rests and never sounds two tones at once; the
last tone begins at `last`. -/
structure Gapless (track : Track) (tones : List Tone) (last finish : Nat) : Prop where
  events : track.events.toList = tones.flatMap Tone.events
  line : Line 0 tones finish
  closing : ∃ closing, tones.getLast? = some closing ∧ closing.start.toNat = last ∧
    closing.finish.toNat = finish
  sounding : ∀ tick < finish, ∃! i, ∃ hi : i < tones.length,
    tones[i].start.toNat ≤ tick ∧ tick < tones[i].finish.toNat
  ordered : track.isOrdered = true
  endTick : track.endTick.toNat = finish

/-- A track on which a line and then one more tone was put. -/
theorem Gapless.of_line {track : Track} {tones : List Tone} {closing : Tone} {last : Nat}
    (h : Line 0 tones last) (hstart : closing.start.toNat = last) (hlast : last < closing.finish.toNat)
    (htrack : track = (tones ++ [closing]).foldl addTone empty) :
    track.Gapless (tones ++ [closing]) last closing.finish.toNat := by
  have hline : Line 0 (tones ++ [closing]) closing.finish.toNat :=
    h.append (.cons hstart hlast (.nil _))
  have hevents : track.events.toList = (tones ++ [closing]).flatMap Tone.events := by
    rw [htrack, events_foldl_addTone hline (by simp [empty])]
    simp [empty]
  have hend : track.events.toList = tones.flatMap Tone.events ++ closing.events := by
    rw [hevents, List.flatMap_append, List.flatMap_singleton]
  exact {
    events := hevents
    line := hline
    closing := ⟨closing, List.getLast?_concat, hstart, rfl⟩
    sounding := fun tick htick => hline.existsUnique_sounding (Nat.zero_le _) htick
    ordered := isOrdered_of_pairwise (hevents ▸ hline.pairwise_tick)
    endTick := congrArg UInt32.toNat (endTick_of_events hend) }

end Track

/-! ## Sequences -/

/-- Tracks that all end at one tick end there together. -/
theorem Sequence.endTick_of_forall {ticksPerQuarter finish : UInt32} {tracks : List Track}
    (hne : tracks ≠ []) (h : ∀ track ∈ tracks, track.endTick = finish) :
    (⟨ticksPerQuarter, tracks⟩ : Sequence).endTick = finish := by
  have hself : max finish finish = finish := ite_self finish
  have hfold : ∀ ticks : List UInt32, (∀ tick ∈ ticks, tick = finish) →
      ticks.foldl max finish = finish := by
    intro ticks hticks
    induction ticks with
    | nil => rfl
    | cons tick ticks ih =>
      obtain ⟨rfl, hrest⟩ := List.forall_mem_cons.1 hticks
      rw [List.foldl_cons, hself]
      exact ih hrest
  obtain ⟨track, rest, rfl⟩ := List.exists_cons_of_ne_nil hne
  obtain ⟨hfirst, hrest⟩ := List.forall_mem_cons.1 h
  have hzero : max 0 finish = finish := if_pos UInt32.zero_le
  rw [Sequence.endTick, List.map_cons, List.foldl_cons, hfirst, hzero]
  refine hfold _ fun tick htick => ?_
  obtain ⟨track', hmem, rfl⟩ := List.mem_map.1 htick
  exact hrest track' hmem

end Chorale
