import Chorale.Proofs.Piece.Likeness
import Mathlib.Data.Set.Function
import Mathlib.Data.Finset.Card

/-!
# The letters of a form

A form stands for its phrases by letters, and which letters it takes makes no difference. Two forms
have the same order of playing just if one is the other with its letters renamed
(`Form.order_eq_iff`). From one state of the generator, forms of as many letters give the same
phrases, and forms of the same order give the same piece but for the letters (`compose_renamed`).
-/

namespace Chorale

/-! ## Forms -/

namespace Form

variable {form form' : Word}

/-- The letters of the second form stand where those of the first do, under other names. -/
def IsRenaming (form form' : Word) : Prop :=
  ∃ rename : Char → Char, Set.InjOn rename {c | c ∈ form} ∧ form' = form.map rename

/-- A form has as many letters as are in it. -/
theorem length_eraseDups (w : Word) : w.eraseDups.length = w.toFinset.card := by
  rw [← List.toFinset_card_of_nodup (nodup_eraseDups w)]
  congr 1
  ext c
  rw [List.mem_toFinset, List.mem_toFinset, List.mem_eraseDups]

theorem eraseDups_map {rename : Char → Char} {w : Word} (h : Set.InjOn rename {c | c ∈ w}) :
    (w.map rename).eraseDups = w.eraseDups.map rename := by
  induction hn : w.length using Nat.strong_induction_on generalizing w with
  | _ n ih =>
    cases w with
    | nil => rfl
    | cons c w =>
      have hlt : (w.filter fun b => !b == c).length < n :=
        hn ▸ Nat.lt_succ_of_le (List.length_filter_le _ _)
      have hfilter : (w.map rename).filter (fun b => !b == rename c) =
          (w.filter fun b => !b == c).map rename := by
        rw [List.filter_map]
        refine congrArg _ (List.filter_congr fun b hb => ?_)
        have hinj := h.eq_iff (List.mem_cons_of_mem c hb) (List.mem_cons_self (a := c))
        rw [Function.comp_apply, Bool.beq_eq_decide_eq, Bool.beq_eq_decide_eq, decide_eq_decide.2 hinj]
      rw [List.map_cons, List.eraseDups_cons, List.eraseDups_cons, List.map_cons, hfilter,
        ih _ hlt (h.mono fun b hb => List.mem_cons_of_mem c (List.mem_filter.1 hb).1) rfl]

theorem idxOf_map {rename : Char → Char} {w : Word} {c : Char}
    (h : Set.InjOn rename {b | b ∈ c :: w}) : (w.map rename).idxOf (rename c) = w.idxOf c := by
  induction w with
  | nil => rfl
  | cons b w ih =>
    have hinj := h.eq_iff (x := b) (y := c) (by simp) (by simp)
    have hrest : Set.InjOn rename {b | b ∈ c :: w} := h.mono fun a ha => by
      rcases List.mem_cons.1 ha with rfl | ha
      · exact List.mem_cons_self
      · exact List.mem_cons_of_mem _ (List.mem_cons_of_mem _ ha)
    rw [List.map_cons, List.idxOf_cons, List.idxOf_cons, ih hrest, Bool.beq_eq_decide_eq,
      Bool.beq_eq_decide_eq, decide_eq_decide.2 hinj]

/-- A renamed form has the order of the form. -/
theorem order_eq_of_isRenaming (h : IsRenaming form form') :
    form.map form.eraseDups.idxOf = form'.map form'.eraseDups.idxOf := by
  obtain ⟨rename, hinj, rfl⟩ := h
  rw [eraseDups_map hinj, List.map_map]
  refine List.map_congr_left fun c hc => (idxOf_map (hinj.mono fun b hb => ?_)).symm
  rcases List.mem_cons.1 hb with rfl | hb
  · exact hc
  · exact List.mem_eraseDups.1 hb

/-- Forms of one order are renamings: a letter is renamed to the one of its place. -/
theorem isRenaming_of_order_eq
    (h : form.map form.eraseDups.idxOf = form'.map form'.eraseDups.idxOf) :
    IsRenaming form form' := by
  let rename (c : Char) : Char := (form'.eraseDups[form.eraseDups.idxOf c]?).getD c
  have hrename : ∀ c ∈ form, form'.eraseDups[form.eraseDups.idxOf c]? = some (rename c) := by
    intro c hc
    have hplace : form.eraseDups.idxOf c ∈ form'.map form'.eraseDups.idxOf :=
      h ▸ List.mem_map_of_mem hc
    have hlt := lt_of_mem_order hplace
    simp only [rename, List.getElem?_eq_getElem hlt, Option.getD_some]
  refine ⟨rename, fun c hc d hd hcd => ?_, ?_⟩
  · have hplaces := (hrename c hc).trans ((congrArg some hcd).trans (hrename d hd).symm)
    have hlt : form.eraseDups.idxOf c < form'.eraseDups.length :=
      (List.getElem?_eq_some_iff.1 (hrename c hc)).1
    have hidx := (List.getElem?_inj hlt (nodup_eraseDups form')).1 hplaces
    exact (List.idxOf_inj (List.mem_eraseDups.2 hc)).1 hidx
  · refine List.map_injective_iff.2 (Option.some_injective _) ?_
    calc form'.map some
        = (form'.map form'.eraseDups.idxOf).map (form'.eraseDups[·]?) := by
          rw [List.map_map]
          exact List.map_congr_left fun c hc => (getElem?_idxOf hc).symm
      _ = (form.map form.eraseDups.idxOf).map (form'.eraseDups[·]?) := by rw [h]
      _ = (form.map rename).map some := by
          rw [List.map_map, List.map_map]
          exact List.map_congr_left hrename

/-- Two forms have one order just if the second is the first with its letters renamed. -/
theorem order_eq_iff :
    form.map form.eraseDups.idxOf = form'.map form'.eraseDups.idxOf ↔ IsRenaming form form' :=
  ⟨isRenaming_of_order_eq, order_eq_of_isRenaming⟩

end Form

/-! ## Pieces -/

/-- Two phrases that differ in their letter at most. -/
def Phrase.EqButSymbol (phrase phrase' : Phrase) : Prop :=
  phrase' = { phrase with symbol := phrase'.symbol }

/-- Two pieces with the same phrases but for the letters, in whatever order these are played. -/
structure Piece.SamePhrases (piece piece' : Piece) : Prop where
  tonic : piece.tonic = piece'.tonic
  scale : piece.scale = piece'.scale
  harmony : piece.harmony = piece'.harmony
  phrases : List.Forall₂ Phrase.EqButSymbol piece.phrases piece'.phrases
  cadence : piece.cadence = piece'.cadence
  cadenceDegrees : piece.cadenceDegrees = piece'.cadenceDegrees

variable {tonic : PitchClass} {settings : Settings}

/-- Over one tonic, phrases that are alike differ in their letter at most. -/
theorem Phrase.Alike.eqButSymbol {phrase phrase' : Phrase} (h : phrase.Alike tonic tonic phrase') :
    phrase.EqButSymbol phrase' := by
  have hchords : phrase.chords = phrase'.chords := by
    rw [← List.forall₂_eq_eq_eq]
    exact h.chords.imp fun _ _ hchord => hchord.eq
  obtain ⟨symbol, bars, chords, melodies⟩ := phrase
  obtain ⟨symbol', bars', chords', melodies'⟩ := phrase'
  cases h.bars
  cases h.melodies
  cases hchords
  rfl

theorem keysAlike_eq (tonic : PitchClass) (octave : Int32) :
    KeysAlike tonic tonic octave octave (· = ·) := by
  intro chord chord' degree key key' hchord hkey hkey'
  cases hchord.eq
  exact Except.ok.inj (hkey.symm.trans hkey')

theorem NoteEvent.Alike.eq {event event' : NoteEvent}
    (h : event.Alike (· = ·) settings settings event') : event = event' := by
  obtain ⟨tick, kind, key, velocity⟩ := event
  obtain ⟨tick', kind', key', velocity'⟩ := event'
  cases h.tick
  cases h.kind
  cases h.key
  cases h.velocity.trans h.velocity'.symm
  rfl

theorem Track.Alike.eq {track track' : Track} (h : track.Alike (· = ·) settings settings track') :
    track = track' := by
  have hevents : track.events.toList = track'.events.toList := by
    rw [← List.forall₂_eq_eq_eq]
    exact List.Forall₂.imp (fun _ _ hevent => hevent.eq) h
  obtain ⟨events⟩ := track
  obtain ⟨events'⟩ := track'
  exact congrArg Track.mk (Array.toList_inj.1 hevents)

/-- Pieces that are heard alike on the same keys are the same as played. -/
theorem Piece.HeardAlike.sequence_eq {piece piece' : Piece}
    (h : piece.HeardAlike (· = ·) settings settings piece') : piece.sequence = piece'.sequence := by
  have htracks : piece.sequence.tracks = piece'.sequence.tracks := by
    rw [← List.forall₂_eq_eq_eq]
    exact h.tracks.imp fun _ _ htrack => htrack.eq
  show Sequence.mk piece.sequence.ticksPerQuarter piece.sequence.tracks = _
  rw [h.ticksPerQuarter, htracks]

/-- From one state, forms of as many letters give the same phrases and leave one state; if one is the
other with its letters renamed, the whole piece is the same but for the letters. -/
theorem compose_renamed {scale : Scale} {form form' : Word} {piece piece' : Piece} {r r₁ r₂ : Rng}
    (hletters : form.toFinset.card = form'.toFinset.card)
    (h : (Chorale.compose tonic scale form settings).run r = (.ok piece, r₁))
    (h' : (Chorale.compose tonic scale form' settings).run r = (.ok piece', r₂)) :
    r₁ = r₂ ∧ piece.SamePhrases piece' ∧
      ∃ shape shape', Form.ofWord form = .ok shape ∧ Form.ofWord form' = .ok shape' ∧
        (shape.order = shape'.order ↔ Form.IsRenaming form form') ∧
        (shape.order = shape'.order → piece' = { piece with phrases := piece'.phrases }) := by
  obtain ⟨octaves, barTicks, hvalid, hpiece⟩ := composed_of_run h
  obtain ⟨octaves', barTicks', hvalid', hpiece'⟩ := composed_of_run h'
  cases hvalid.barTicks_eq.symm.trans hvalid'.barTicks_eq
  cases hpiece.octaves_eq.symm.trans hpiece'.octaves_eq
  rw [← Form.length_eraseDups, ← Form.length_eraseDups] at hletters
  have hdraws := Settings.DrawsAlike.refl settings
  obtain ⟨hstate, halike⟩ := (Agree.compose hdraws tonic tonic scale hletters).of_ok h h'
  have hsame : piece.SamePhrases piece' := {
    tonic := by rw [hpiece.tonic_eq, hpiece'.tonic_eq]
    scale := by rw [hpiece.scale_eq, hpiece'.scale_eq]
    harmony := halike.harmony
    phrases := halike.phrases.imp fun _ _ hphrase => hphrase.eqButSymbol
    cadence := by rw [hpiece.cadence_eq, hpiece'.cadence_eq]
    cadenceDegrees := halike.cadenceDegrees }
  refine ⟨hstate, hsame, _, _, Form.exists_ofWord (form_ne_nil_of_run h),
    Form.exists_ofWord (form_ne_nil_of_run h'), Form.order_eq_iff, fun horder => ?_⟩
  have horder : piece.order = piece'.order := by
    rw [hpiece.order_eq, hpiece'.order_eq]
    exact horder
  have hheard := halike.heard hdraws hvalid hpiece hpiece' horder fun voice =>
    keysAlike_eq tonic (octaves.get voice)
  obtain ⟨_, _, phrases, order, offsets, harmony, cadence, degrees, tick, sequence⟩ := piece
  obtain ⟨_, _, phrases', order', offsets', harmony', cadence', degrees', tick', sequence'⟩ := piece'
  cases hsame.tonic
  cases hsame.scale
  cases horder
  cases hheard.offsets
  cases hsame.harmony
  cases hsame.cadence
  cases hsame.cadenceDegrees
  cases hheard.cadenceTick
  cases hheard.sequence_eq
  rfl

/-- Two phrases with the first one played again, under two pairs of letters. -/
theorem compose_renamed_yxy : ∃ piece piece' r₁ r₂,
    (List.toFinset ['a', 'b', 'a']).card = (List.toFinset ['y', 'x', 'y']).card ∧
    (Chorale.compose ⟨0⟩ .major ['a', 'b', 'a'] ⟨2, 2, 2, 2, 1, 1, 3, 64, 120⟩).run ⟨1, 2, 3, 4⟩ =
      (.ok piece, r₁) ∧
    (Chorale.compose ⟨0⟩ .major ['y', 'x', 'y'] ⟨2, 2, 2, 2, 1, 1, 3, 64, 120⟩).run ⟨1, 2, 3, 4⟩ =
      (.ok piece', r₂) ∧
    r₁ = r₂ ∧ piece.SamePhrases piece' ∧ piece' = { piece with phrases := piece'.phrases } := by
  obtain ⟨piece, r₁, hrun⟩ := exists_compose_aba
  obtain ⟨piece', r₂, hrun'⟩ := Draw.exists_run_eq_ok (x := Chorale.compose ⟨0⟩ .major ['y', 'x', 'y']
    ⟨2, 2, 2, 2, 1, 1, 3, 64, 120⟩) (r := ⟨1, 2, 3, 4⟩) (by decide +kernel)
  have hletters : (List.toFinset ['a', 'b', 'a']).card = (List.toFinset ['y', 'x', 'y']).card := by
    decide
  obtain ⟨hstate, hsame, shape, shape', hshape, hshape', -, heq⟩ := compose_renamed hletters hrun hrun'
  cases hshape
  cases hshape'
  exact ⟨piece, piece', r₁, r₂, hletters, hrun, hrun', hstate, hsame, heq (by decide)⟩

end Chorale
