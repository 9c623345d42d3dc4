import Chorale.Archive
import Chorale.Proofs.Json.RoundTrip
import Mathlib.Logic.Function.Iterate

/-!
# What is kept is read again

A record gives its fields back by their names, as no two of them are the same (`fields?_ofRecord`,
`record?_ofRecord`), a number of fixed width fits where it came from (`fixed?_ofFixed`), and a list
gives its items back (`list?_map`). So each kept form is read as the value that it was made of
(`ofJson?_toJson` for each type), and with `Json.read_write` so is its text (`archive_restores`).
-/

namespace Chorale

namespace Json

/-! ## Lists and numbers -/

section

variable {α β γ : Type}

/-- What is read item by item, if every item can be read. -/
theorem mapM_map_eq_some {read? : β → Option γ} {item : α → β} {result : α → γ} {as : List α}
    (h : ∀ a ∈ as, read? (item a) = some (result a)) :
    (as.map item).mapM read? = some (as.map result) := by
  induction as with
  | nil => rfl
  | cons a as ih =>
    have ih := ih fun a' ha' => h a' (List.mem_cons_of_mem a ha')
    rw [List.map_cons, List.mapM_cons, h a List.mem_cons_self, ih]
    rfl

theorem list?_map {value? : Json → Option α} {toJson : α → Json}
    (h : ∀ a, value? (toJson a) = some a) (as : List α) :
    list? value? (.array (as.map toJson)) = some as := by
  show (as.map toJson).mapM value? = some as
  rw [mapM_map_eq_some fun a _ => h a, List.map_id']

end

theorem fixed?_ofFixed {α : Type} [FixedWidth α] (a : α) : (ofFixed a).fixed? = some a :=
  FixedWidth.ofInt?_eq_some_iff.2 rfl

/-! ## Records -/

variable {names : List String} {fields : List (String × Json)}

/-- Only one of several fields with different names has a given name. -/
theorem filter_name_eq (h : (fields.map (·.1)).Nodup) {field : String × Json}
    (hfield : field ∈ fields) : fields.filter (·.1 = field.1) = [field] := by
  induction fields with
  | nil => simp at hfield
  | cons first fields ih =>
    obtain ⟨hfirst, hrest⟩ := List.nodup_cons.1 h
    rcases List.mem_cons.1 hfield with rfl | hmem
    · have hnone : fields.filter (·.1 = field.1) = [] := by
        apply List.filter_eq_nil_iff.2
        intro other hother
        simp only [decide_eq_true_eq]
        intro heq
        exact hfirst (List.mem_map.2 ⟨other, hother, heq⟩)
      rw [List.filter_cons_of_pos (by simp), hnone]
    · have hne : first.1 ≠ field.1 := fun heq => hfirst (List.mem_map.2 ⟨field, hmem, heq.symm⟩)
      rw [List.filter_cons_of_neg (by simpa using hne), ih hrest hmem]

theorem onlyField?_ofRecord (h : (fields.map (·.1)).Nodup) {field : String × Json}
    (hfield : field ∈ fields) :
    onlyField? (fields.map fun field => (field.1.toList, field.2)) field.1 =
      some (some field.2) := by
  have hword : (fields.map fun field => (field.1.toList, field.2)).filter
      (·.1 = field.1.toList) = [(field.1.toList, field.2)] := by
    rw [List.filter_map]
    -- Strings are the same if their words are.
    simp only [Function.comp_def, String.toList_inj, filter_name_eq h hfield, List.map_cons,
      List.map_nil]
  unfold onlyField?
  rw [hword]

/-- The names of a record ask for its fields in their order. -/
theorem fields?_ofRecord (hnames : fields.map (·.1) = names) (h : names.Nodup) :
    fields? names (ofRecord fields) = some (fields.map fun field => some field.2) := by
  show names.mapM (onlyField? _) = _
  subst hnames
  exact mapM_map_eq_some fun field hfield => onlyField?_ofRecord h hfield

theorem record?_ofRecord (hnames : fields.map (·.1) = names) (h : names.Nodup) :
    record? names (ofRecord fields) = some (fields.map (·.2)) := by
  unfold record?
  rw [fields?_ofRecord hnames h]
  exact mapM_map_eq_some fun _ _ => rfl

end Json

/-! ## The kept forms

No proof here may leave a step to computation (`-implicitDefEqProofs`): to compute whether a number
that is not known fits its type would count up to the bounds of the type.
-/

theorem Rule.ofJson?_toJson (rule : Rule) : Rule.ofJson? rule.toJson = some rule := by
  simp -implicitDefEqProofs [Rule.ofJson?, Rule.toJson, Json.record?_ofRecord, Json.fixed?_ofFixed,
    Json.text?, Json.char?]

theorem EventKind.ofJson?_toJson (kind : EventKind) : EventKind.ofJson? kind.toJson = some kind := by
  cases kind with
  | on => decide
  | off => decide

theorem NoteEvent.ofJson?_toJson (event : NoteEvent) :
    NoteEvent.ofJson? event.toJson = some event := by
  simp -implicitDefEqProofs [NoteEvent.ofJson?, NoteEvent.toJson, Json.record?_ofRecord,
    Json.fixed?_ofFixed, EventKind.ofJson?_toJson]

theorem Track.ofJson?_toJson (track : Track) : Track.ofJson? track.toJson = some track := by
  simp -implicitDefEqProofs [Track.ofJson?, Track.toJson, Json.record?_ofRecord,
    Json.list?_map NoteEvent.ofJson?_toJson]

theorem Sequence.ofJson?_toJson (sequence : Sequence) :
    Sequence.ofJson? sequence.toJson = some sequence := by
  simp -implicitDefEqProofs [Sequence.ofJson?, Sequence.toJson, Json.record?_ofRecord,
    Json.fixed?_ofFixed, Json.list?_map Track.ofJson?_toJson]

/-- Settings that are kept have all fields, so that no default is taken. -/
theorem Settings.ofJson?_toJson (settings : Settings) :
    Settings.ofJson? settings.toJson = some settings := by
  simp -implicitDefEqProofs [Settings.ofJson?, Settings.toJson, Settings.names, Settings.numberOr?,
    Json.fields?_ofRecord, Json.fixed?_ofFixed]

theorem Rng.ofWords?_words (r : Rng) : Rng.ofWords? r.words = some r := rfl

theorem Rng.ofJson?_toJson (r : Rng) : Rng.ofJson? r.toJson = some r := by
  simp -implicitDefEqProofs [Rng.ofJson?, Rng.toJson, Json.record?_ofRecord,
    Json.list?_map Json.fixed?_ofFixed, Rng.ofWords?_words]

/-! ## Their texts -/

/-- A value is restored from the text of its kept form. -/
theorem Json.restore {α : Type} {toJson : α → Json} {ofJson? : Json → Option α}
    (h : ∀ a, ofJson? (toJson a) = some a) (a : α) :
    (Json.read (toJson a).write).bind ofJson? = some a := by
  rw [Json.read_write]
  exact h a

/-- Every rule, track, sequence, settings and generator is restored from the text of its kept form,
whatever its words, numbers and events are. A generator that was kept after any number of words goes
on with the same words for ever. -/
theorem archive_restores :
    (∀ rule : Rule, (Json.read rule.toJson.write).bind Rule.ofJson? = some rule) ∧
      (∀ track : Track, (Json.read track.toJson.write).bind Track.ofJson? = some track) ∧
      (∀ sequence : Sequence,
        (Json.read sequence.toJson.write).bind Sequence.ofJson? = some sequence) ∧
      (∀ settings : Settings,
        (Json.read settings.toJson.write).bind Settings.ofJson? = some settings) ∧
      (∀ r : Rng, (Json.read r.toJson.write).bind Rng.ofJson? = some r) ∧
      ∀ (r : Rng) (n : Nat), ∃ r',
        (Json.read (Rng.advance^[n] r).toJson.write).bind Rng.ofJson? = some r' ∧
          ∀ k, (Rng.advance^[k] r').output = (Rng.advance^[n + k] r).output := by
  refine ⟨Json.restore Rule.ofJson?_toJson, Json.restore Track.ofJson?_toJson,
    Json.restore Sequence.ofJson?_toJson, Json.restore Settings.ofJson?_toJson,
    Json.restore Rng.ofJson?_toJson, fun r n => ⟨Rng.advance^[n] r, ?_, fun k => ?_⟩⟩
  · exact Json.restore Rng.ofJson?_toJson _
  · rw [Nat.add_comm, Function.iterate_add_apply]

end Chorale
