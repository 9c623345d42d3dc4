import Chorale.Proofs.Form.Order
import Chorale.Proofs.Harmony.Decoding
import Chorale.Proofs.Piece.Room

/-!
# What is composed

`Piece.Composed` says of a piece what its form, its settings and its key leave to say, whatever was
drawn: its phrases and their order are those of the form, the progression is read as the chords of
the phrases, and each track is what its voice plays in the phrases and the closing chord. So the
phrases played are those of the form's letters (`Piece.Composed.played_symbols`). `compose` gives such
a piece for all settings that pass and forms that are not empty (`WP.compose`), and without an
overflow if there is room for it (`WP.compose_of_room`, `compose_fits`).
-/

namespace Chorale

variable {allowed : Failure → Prop} {settings : Settings} {octaves : Quartet Int32}
  {barTicks : UInt32}

/-! ## Pieces -/

namespace Piece

/-- What a voice plays in a piece: the tones of the phrases and a tone of the closing chord. -/
structure Voices (settings : Settings) (octaves : Quartet Int32) (barTicks : UInt32) (piece : Piece)
    (voice : Voice) (tones : List Tone) (closing : Tone) : Prop where
  plays : Plays settings octaves barTicks voice piece.played piece.offsets 0 piece.cadenceTick tones
  start : closing.start = piece.cadenceTick
  finish : closing.finish.toNat = piece.cadenceTick.toNat + 2 * barTicks.toNat
  velocity : closing.velocity = settings.velocity
  degree : 0 ≤ (piece.cadenceDegrees.get voice).toInt ∧ (piece.cadenceDegrees.get voice).toInt < 3
  key : piece.cadence.keyAt (piece.cadenceDegrees.get voice) (octaves.get voice) = .ok closing.key

/-- A piece in the key of `tonic` and `scale` after the form that `form` stands for. -/
structure Composed (tonic : PitchClass) (scale : Scale) (form : Word) (settings : Settings)
    (octaves : Quartet Int32) (barTicks : UInt32) (piece : Piece) : Prop where
  tonic_eq : piece.tonic = tonic
  scale_eq : piece.scale = scale
  cadence_eq : piece.cadence = ⟨tonic, scale.tonicQuality⟩
  octaves_eq : Voice.octaves settings.minOctave = .ok octaves
  symbols : piece.phrases.map (·.symbol) = form.eraseDups
  order_eq : piece.order = form.map form.eraseDups.idxOf
  bars : ∀ phrase ∈ piece.phrases,
    settings.minPhraseBars ≤ phrase.bars ∧ phrase.bars ≤ settings.maxPhraseBars
  filled : ∀ phrase ∈ piece.phrases, phrase.Filled settings barTicks
  harmony_length : piece.harmony.length = 3 * quarterCount settings (piece.phrases.map (·.bars))
  harmony : Harmony.decode tonic piece.harmony = .ok (piece.phrases.flatMap (·.chords))
  /-- The progression of the phrases ends with two dominant chords. -/
  closes : ∃ chords, piece.phrases.flatMap (·.chords) =
    chords ++ [Harmony.dominantToken.chord tonic, Harmony.dominantToken.chord tonic]
  tracks : ∃ tracks : Quartet Track, piece.sequence = ⟨settings.ticksPerQuarter, tracks.toList⟩ ∧
    ∀ voice, ∃ tones closing, Voices settings octaves barTicks piece voice tones closing ∧
      tracks.get voice = (tones ++ [closing]).foldl Track.addTone .empty

end Piece

/-! ## The order of playing -/

theorem map_some_filterMap {α β : Type} {f : α → Option β} {l : List α}
    (h : ∀ a ∈ l, (f a).isSome = true) : (l.filterMap f).map some = l.map f := by
  induction l with
  | nil => rfl
  | cons a l ih =>
    obtain ⟨ha, hl⟩ := List.forall_mem_cons.1 h
    obtain ⟨b, hb⟩ := Option.isSome_iff_exists.1 ha
    rw [List.filterMap_cons_some hb, List.map_cons, List.map_cons, hb, ih hl]

namespace Piece.Composed

variable {tonic : PitchClass} {scale : Scale} {form : Word} {piece : Piece}

/-- No place in the order of playing is without a phrase. -/
theorem map_some_played (h : piece.Composed tonic scale form settings octaves barTicks) :
    piece.played.map some = piece.order.map (piece.phrases[·]?) := by
  refine map_some_filterMap fun place hplace => ?_
  rw [h.order_eq] at hplace
  have hlt := Form.lt_of_mem_order hplace
  rw [← h.symbols, List.length_map] at hlt
  rw [List.getElem?_eq_getElem hlt, Option.isSome_some]

/-- The phrases played are those that the letters of the form stand for. -/
theorem played_symbols (h : piece.Composed tonic scale form settings octaves barTicks) :
    piece.played.map (·.symbol) = form := by
  have hsome : (piece.played.map (·.symbol)).map some = form.map some := by
    calc (piece.played.map (·.symbol)).map some
        = (piece.played.map some).map (Option.map (·.symbol)) := by simp
      _ = piece.order.map fun place => (piece.phrases.map (·.symbol))[place]? := by
          rw [h.map_some_played]; simp
      _ = form.map some := by
          rw [h.symbols, h.order_eq, List.map_map]
          exact List.map_congr_left fun c hc => Form.getElem?_idxOf hc
  exact List.map_injective_iff.2 (Option.some_injective _) hsome

theorem filled_of_mem_played (h : piece.Composed tonic scale form settings octaves barTicks) :
    ∀ phrase ∈ piece.played, phrase.Filled settings barTicks := by
  intro phrase hmem
  obtain ⟨place, -, hplace⟩ := List.mem_filterMap.1 hmem
  exact h.filled phrase (List.mem_of_getElem? hplace)

/-- One letter of the form stands for one phrase wherever it is. -/
theorem played_getElem?_congr (h : piece.Composed tonic scale form settings octaves barTicks)
    {i j : Nat} (hij : form[i]? = form[j]?) : piece.played[i]? = piece.played[j]? := by
  have hplace (i : Nat) : (piece.played[i]?).map some = (form[i]?).map fun c =>
      piece.phrases[form.eraseDups.idxOf c]? := by
    rw [← List.getElem?_map, h.map_some_played, h.order_eq, List.map_map, List.getElem?_map]
    rfl
  have hsome : (piece.played[i]?).map some = (piece.played[j]?).map some := by
    rw [hplace, hplace, hij]
  exact Option.map_injective (Option.some_injective _) hsome

end Piece.Composed

/-! ## Lengths -/

/-- The lengths of the phrases of a form, as they may be drawn: one for each different letter. -/
structure Form.Lengths (settings : Settings) (form : Word) (lengths : List UInt32) : Prop where
  length_eq : lengths.length = form.eraseDups.length
  ne_nil : lengths ≠ []
  bars : ∀ bars ∈ lengths, settings.minPhraseBars ≤ bars ∧ bars ≤ settings.maxPhraseBars

theorem Form.Lengths.length_le {form : Word} {lengths : List UInt32}
    (h : Form.Lengths settings form lengths) : lengths.length ≤ form.length :=
  h.length_eq ▸ Form.length_eraseDups_le form

theorem WP.composeLengths (h : settings.Valid barTicks) {form : Word} (hform : form ≠ []) (r : Rng) :
    Draw.WP allowed r (form.eraseDups.mapM fun _ => Chorale.composeLength settings)
      fun lengths _ => Form.Lengths settings form lengths := by
  refine .mono (.mapM _ (fun _ _ r => composeLength h r) r) fun lengths _ _ hlengths => ?_
  have hlength := hlengths.length_eq
  refine ⟨hlength.symm, ?_, fun bars hmem => ?_⟩
  · obtain ⟨c, rest, rfl⟩ := List.exists_cons_of_ne_nil hform
    have hmem : c ∈ (c :: rest).eraseDups := List.mem_eraseDups.2 List.mem_cons_self
    exact List.ne_nil_of_length_pos (hlength ▸ List.length_pos_of_mem hmem)
  · obtain ⟨i, hi, rfl⟩ := List.getElem_of_mem hmem
    exact hlengths.get (hlength ▸ hi) hi

theorem WP.totalBars (h : settings.Valid barTicks) {form : Word} {lengths : List UInt32}
    (hlengths : Form.Lengths settings form lengths)
    (hover : ¬ settings.HasRoom barTicks form.length → allowed .overflow) :
    Checked.WP allowed (Checked.sum 0 lengths) fun totalBars => FixedWidth.toInt totalBars =
      FixedWidth.toInt (0 : UInt32) + (lengths.map FixedWidth.toInt).sum := by
  refine .of_fits hover (.sum rfl 0 lengths) fun hroom => ?_
  have hle := hroom.sum_le h hlengths.length_le fun bars hmem => (hlengths.bars bars hmem).2
  obtain ⟨totalBars, htotal, -⟩ := Checked.unsigned32.sum_eq_ok 0 lengths
    (show 0 + (lengths.map (·.toNat)).sum < 2 ^ 32 by omega)
  exact ⟨totalBars, htotal⟩

/-- The product of two numbers of 32 bits has 64 bits. -/
theorem WP.quarters (totalBars : UInt32) :
    Checked.WP allowed (Checked.mul totalBars.toUInt64 settings.quartersPerBar.toUInt64)
      fun quarters => FixedWidth.toInt quarters =
        FixedWidth.toInt totalBars.toUInt64 * FixedWidth.toInt settings.quartersPerBar.toUInt64 := by
  have hlt := Nat.mul_lt_mul'' totalBars.toNat_lt settings.quartersPerBar.toNat_lt
  rw [← UInt32.toNat_toUInt64, ← settings.quartersPerBar.toNat_toUInt64] at hlt
  obtain ⟨quarters, hquarters, -⟩ := Checked.unsigned64.mul_eq_ok hlt
  exact .of_eq_ok hquarters (Checked.mul_eq_ok_iff.1 hquarters)

/-! ## Composing -/

/-- As many phrases are played as the form has letters, each of which is one of those composed. -/
theorem ticks_played_le {form : Word} (hroom : settings.HasRoom barTicks form.length)
    {phrases : List Phrase} (hbars : ∀ phrase ∈ phrases, phrase.bars ≤ settings.maxPhraseBars)
    {order : List Nat} (horder : order.length = form.length) :
    ((order.filterMap (phrases[·]?)).map (·.bars.toNat)).sum * barTicks.toNat + 2 * barTicks.toNat ≤
      2 ^ 26 := by
  have hcount : ((order.filterMap (phrases[·]?)).map (·.bars)).length ≤ form.length := by
    rw [List.length_map, ← horder]
    exact List.length_filterMap_le _ _
  have hticks := hroom.ticks_le hcount fun bars hmem => by
    obtain ⟨phrase, hphrase, rfl⟩ := List.mem_map.1 hmem
    obtain ⟨place, -, hplace⟩ := List.mem_filterMap.1 hphrase
    exact hbars phrase (List.mem_of_getElem? hplace)
  rw [List.map_map] at hticks
  exact hticks

/-- For settings that pass and a form that is not empty a piece is composed, unless there is not room
for it and a number does not fit or a word is too long. -/
theorem WP.compose_of_room (h : settings.Valid barTicks) {form : Word} (hform : form ≠ [])
    (hover : ¬ settings.HasRoom barTicks form.length → allowed .overflow)
    (hlong : ¬ settings.HasRoom barTicks form.length → allowed .tooLong) (tonic : PitchClass)
    (scale : Scale) (r : Rng) :
    Draw.WP allowed r (Chorale.compose tonic scale form settings) fun piece _ =>
      ∃ octaves, piece.Composed tonic scale form settings octaves barTicks := by
  obtain ⟨octaves, hoctaves, hkeyboard⟩ := exists_octaves h
  refine .bind (.lift (.of_eq_ok (Settings.check_eq_ok_iff.2 ⟨barTicks, h⟩) ?_))
  refine .bind (.lift (.of_eq_ok (Form.exists_ofWord hform) ?_))
  refine .bind (.lift (.of_eq_ok hoctaves ?_))
  refine .bind (.lift (.of_eq_ok h.barTicks_eq ?_))
  refine .bind (.mono (composeLengths h hform r) fun lengths r₁ _ hlengths => ?_)
  refine .bind (.lift (.mono (totalBars h hlengths hover) fun totalBars htotal => ?_))
  refine .bind (.lift (.mono (quarters totalBars) fun quarters hquarters => ?_))
  -- The phrases have as many quarter notes together as the progression is composed for.
  have hquarters := quarterCount_eq_of_sum htotal hquarters
  have hsmall (hroom : settings.HasRoom barTicks form.length) : quarters.toNat ≤ 2 ^ 26 :=
    hquarters ▸ hroom.quarterCount_le h hlengths.length_le fun bars hmem => (hlengths.bars bars hmem).2
  have hfew : 2 ^ 64 ≤ (quarters.toNat - 2) * 3 → allowed .overflow := fun hle =>
    hover fun hroom => by
      have := hsmall hroom
      omega
  refine .bind (.lift (.mono (Harmony.WP.requiredLength hfew) fun required hrequired => ?_))
  obtain ⟨htwo, heven⟩ :=
    quarterCount_bounds h hlengths.ne_nil fun bars hmem => (hlengths.bars bars hmem).1
  have hfits (hroom : settings.HasRoom barTicks form.length) : required.toNat + 6 < 2 ^ 63 := by
    have hle := hsmall hroom
    omega
  rw [hquarters] at hrequired
  refine .bind (.mono (Harmony.WP.progression_quarters scale tonic htwo heven hrequired
    (fun hle => hover fun hroom => by have := hfits hroom; omega)
    (fun hle _ => hlong fun hroom => by have := hfits hroom; omega) r₁) ?_)
  rintro ⟨outcome, _⟩ r₂ - ⟨harmony, chords, rfl, hharmony, hdecode, hchords⟩
  refine .bind (.lift (.ok (.bind (.lift (.of_eq_ok hdecode ?_)))))
  -- The chords are dealt out to the phrases.
  have hitems : ((form.eraseDups.zip lengths).map (·.2)) = lengths :=
    List.map_snd_zip (Nat.le_of_eq hlengths.length_eq)
  have hdealt : (chords ++ [Harmony.dominantToken.chord tonic,
      Harmony.dominantToken.chord tonic]).length =
        quarterCount settings ((form.eraseDups.zip lengths).map (·.2)) := by
    rw [hitems, List.length_append]
    exact hchords
  refine .bind (.mono (composePhrases h _ hdealt r₂) ?_)
  rintro phrases r₃ - ⟨hphrases, hfilled, hflat⟩
  have hsymbols : phrases.map (·.symbol) = form.eraseDups := by
    have := congrArg (List.map Prod.fst) hphrases
    rwa [List.map_map, List.map_fst_zip (Nat.le_of_eq hlengths.length_eq.symm)] at this
  have hphraseBars : phrases.map (·.bars) = lengths := by
    have := congrArg (List.map Prod.snd) hphrases
    rwa [List.map_map, hitems] at this
  have hbars : ∀ phrase ∈ phrases,
      settings.minPhraseBars ≤ phrase.bars ∧ phrase.bars ≤ settings.maxPhraseBars := fun phrase hmem =>
    hlengths.bars _ (hphraseBars ▸ List.mem_map_of_mem hmem)
  have hplayed : ∀ phrase ∈ (form.map form.eraseDups.idxOf).filterMap (phrases[·]?),
      phrase.Filled settings barTicks := fun phrase hmem => by
    obtain ⟨i, -, hi⟩ := List.mem_filterMap.1 hmem
    exact hfilled phrase (List.mem_of_getElem? hi)
  have hticks (hroom : settings.HasRoom barTicks form.length) :
      (((form.map form.eraseDups.idxOf).filterMap (phrases[·]?)).map (·.bars.toNat)).sum *
        barTicks.toNat + 2 * barTicks.toNat ≤ 2 ^ 26 :=
    ticks_played_le hroom (fun phrase hmem => (hbars phrase hmem).2) (List.length_map _)
  have hplay := Checked.WP.of_fits hover (play h rfl _ hplayed 0 (.all .empty)) fun hroom =>
    exists_play h hkeyboard hplayed 0 (show 0 + _ ≤ 2 ^ 26 by have := hticks hroom; omega)
      (.all .empty)
  refine .bind (.lift (.mono hplay fun played hplayed => ?_))
  -- The closing chord ends after two bars more, which the room allows for.
  obtain ⟨_, hbass, _⟩ := hplayed .bass
  have hlast (hroom : settings.HasRoom barTicks form.length) :
      played.finish.toNat + 2 * barTicks.toNat < 2 ^ 32 := by
    have hle := hticks hroom
    have hfinish : played.finish.toNat = 0 + _ := hbass.finish_eq
    omega
  have hclose (voice : Voice) (r : Rng) : Draw.WP allowed r
      (Chorale.closeVoice settings barTicks ⟨tonic, scale.tonicQuality⟩ (octaves.get voice)
        played.finish (played.tracks.get voice)) _ :=
    closeVoice _ (fun hno => hover fun hroom => hno ⟨hkeyboard voice, hlast hroom⟩) _ r
  refine .bind (.mono (.collect _ hclose r₃) fun closing _ _ hclosing => .pure ⟨octaves, ?_⟩)
  refine ⟨rfl, rfl, rfl, hoctaves, hsymbols, rfl, hbars, hfilled, ?_, ?_, ⟨chords, hflat⟩,
    closing.map (·.2), rfl, ?_⟩
  · rw [hphraseBars]; exact hharmony
  · rw [hflat]; exact hdecode
  · intro voice
    obtain ⟨tones, hplays, htrack⟩ := hplayed voice
    obtain ⟨tone, hstart, hfinish, hvelocity, hdegree, hkey, hclosed⟩ := hclosing voice
    rw [Quartet.get_all] at htrack
    refine ⟨tones, tone, ⟨hplays, hstart, hfinish, hvelocity, ?_, ?_⟩, ?_⟩
    · rw [Quartet.get_map]; exact hdegree
    · rw [Quartet.get_map]; exact hkey
    · rw [Quartet.get_map, List.foldl_append, ← htrack]
      exact hclosed

/-- For settings that pass and a form that is not empty a piece is composed, unless a number does
not fit. -/
theorem WP.compose (h : settings.Valid barTicks) (hover : allowed .overflow)
    (hlong : allowed .tooLong) (tonic : PitchClass) (scale : Scale) {form : Word} (hform : form ≠ [])
    (r : Rng) :
    Draw.WP allowed r (Chorale.compose tonic scale form settings) fun piece _ =>
      ∃ octaves, piece.Composed tonic scale form settings octaves barTicks :=
  compose_of_room h hform (fun _ => hover) (fun _ => hlong) tonic scale r

/-- Settings that do not pass are refused before anything is drawn. -/
theorem run_compose_of_check_error {tonic : PitchClass} {scale : Scale} {form : Word} {e : Failure}
    (h : settings.check = .error e) (r : Rng) :
    (Chorale.compose tonic scale form settings).run r = (.error e, r) := by
  rw [Chorale.compose, Draw.run_bind, h]
  rfl

/-- So are forms without a phrase. -/
theorem run_compose_of_form_nil {tonic : PitchClass} {scale : Scale} {u : Unit}
    (h : settings.check = .ok u) (r : Rng) :
    (Chorale.compose tonic scale [] settings).run r = (.error .emptyForm, r) := by
  rw [Chorale.compose, Draw.run_bind, h]
  rfl

theorem form_ne_nil_of_run {tonic : PitchClass} {scale : Scale} {form : Word} {piece : Piece}
    {r r' : Rng} (h : (Chorale.compose tonic scale form settings).run r = (.ok piece, r')) :
    form ≠ [] := by
  rintro rfl
  cases hcheck : settings.check with
  | error e => cases (run_compose_of_check_error hcheck r).symm.trans h
  | ok u => cases (run_compose_of_form_nil hcheck r).symm.trans h

/-- What was composed is a piece of its form, settings and key. -/
theorem composed_of_run {tonic : PitchClass} {scale : Scale} {form : Word} {piece : Piece}
    {r r' : Rng} (h : (Chorale.compose tonic scale form settings).run r = (.ok piece, r')) :
    ∃ octaves barTicks, settings.Valid barTicks ∧
      piece.Composed tonic scale form settings octaves barTicks := by
  have hform := form_ne_nil_of_run h
  cases hcheck : settings.check with
  | error e => cases (run_compose_of_check_error hcheck r).symm.trans h
  | ok u =>
    obtain ⟨barTicks, hvalid⟩ := Settings.check_eq_ok_iff.1 hcheck
    have hwp : Draw.WP (fun _ => True) r _ _ := WP.compose hvalid trivial trivial tonic scale hform r
    obtain ⟨-, octaves, hpiece⟩ := hwp.of_ok h
    exact ⟨octaves, barTicks, hvalid, hpiece⟩

/-! ## Outcomes -/

/-- Both grammars have only rules that can be made. -/
theorem weight_ne_zero_of_mem {scale : Scale} {rule : Rule}
    (h : rule ∈ Harmony.rules scale ++ Melody.rules) : rule.weight ≠ 0 := by
  rcases List.mem_append.1 h with h | h
  · obtain ⟨source, target, hmove⟩ := Harmony.mem_rules.1 h
    obtain ⟨hscore, rfl⟩ := Harmony.moveRule?_eq_some_iff.1 hmove
    exact Harmony.moveWeight_ne_zero hscore
  · exact (show ∀ rule ∈ Melody.rules, rule.weight ≠ 0 by decide) rule h

/-- Settings that do not pass and forms without a phrase are refused, with nothing drawn. Everything
else is composed, unless an integer overflows or a word is too long for a memory: no progression
stalls or is malformed, no bracket is closed that was not opened, no chord is missing, no range is
empty, nothing is divided by zero, and no rule is without weight. Only in the state of zeros may a
draw never end. -/
theorem compose_outcome (tonic : PitchClass) (scale : Scale) (form : Word) (settings : Settings)
    (r : Rng) :
    (match settings.check with
      | .error e => (Chorale.compose tonic scale form settings).run r = (.error e, r)
      | .ok _ =>
        if form = [] then (Chorale.compose tonic scale form settings).run r = (.error .emptyForm, r)
        else Draw.WP (fun e => e = .overflow ∨ e = .tooLong) r
            (Chorale.compose tonic scale form settings)
            (fun piece _ => ∀ i ∈ piece.order, i < piece.phrases.length) ∧
          (r ≠ ⟨0, 0, 0, 0⟩ → ∀ e r',
            (Chorale.compose tonic scale form settings).run r = (.error e, r') →
              e = .overflow ∨ e = .tooLong)) ∧
      ∀ rule ∈ Harmony.rules scale ++ Melody.rules,
        Rule.make rule.left rule.letter rule.right rule.weight rule.successor = .ok rule := by
  refine ⟨?_, fun rule hrule => if_neg (weight_ne_zero_of_mem hrule)⟩
  cases hcheck : settings.check with
  | error e => exact run_compose_of_check_error hcheck r
  | ok u =>
    by_cases hform : form = []
    · subst hform
      exact run_compose_of_form_nil hcheck r
    · obtain ⟨barTicks, hvalid⟩ := Settings.check_eq_ok_iff.1 hcheck
      simp only [if_neg hform]
      have hwp : Draw.WP (fun e => e = .overflow ∨ e = .tooLong) r
          (Chorale.compose tonic scale form settings) _ :=
        WP.compose hvalid (.inl rfl) (.inr rfl) tonic scale hform r
      refine ⟨hwp.mono ?_, fun hr e r' => hwp.allowed_of_error hr⟩
      rintro piece _ - ⟨octaves, hpiece⟩ i hi
      rw [← List.length_map (f := (·.symbol)), hpiece.symbols]
      exact Form.lt_of_mem_order (hpiece.order_eq ▸ hi)

/-- The closing chord of a piece that there is room for is over before any number is too great. -/
theorem Piece.Composed.ticks_le {tonic : PitchClass} {scale : Scale} {form : Word} {piece : Piece}
    (h : piece.Composed tonic scale form settings octaves barTicks)
    (hroom : settings.HasRoom barTicks form.length) :
    piece.cadenceTick.toNat + 2 * barTicks.toNat ≤ 2 ^ 26 := by
  obtain ⟨_, -, htracks⟩ := h.tracks
  obtain ⟨tones, closing, hvoice, -⟩ := htracks .bass
  have horder : piece.order.length = form.length := by rw [h.order_eq, List.length_map]
  have hticks := ticks_played_le hroom (fun phrase hmem => (h.bars phrase hmem).2) horder
  have hfinish : piece.cadenceTick.toNat = 0 + _ := hvoice.plays.finish_eq
  rw [hfinish, Nat.zero_add]
  exact hticks

/-- How far the steps of grammars are counted. They are counted from rest, one by one, so that a count
is greatest when a run of the progression or a melody is done; whatever was grown before, it fits into
a number of 64 bits. -/
structure StepsFit (scale : Scale) (settings : Settings) : Prop where
  /-- A run that grows into the room that is left, wherever the scale's grammar was left. -/
  run {system grown : RewriteSystem} {room : Nat} {run : Word} {r r' : Rng}
    (hscale : Harmony.IsOf scale system) (hroom : room < 2 ^ 64)
    (hrun : (Harmony.growRun room [] system.reset).run r = (.ok (run, grown), r')) :
    grown.steps < 64
  /-- A melody, wherever its grammar was left. -/
  melody {grammar grown : Melody.Grammar} {melody : Word} {r r' : Rng}
    (hrun : (composeMelody settings grammar).run r = (.ok (melody, grown), r')) :
    grown.system.steps ≤ settings.maxGrowth.toNat

/-- If the form with the longest phrases and the closing chord does not last for more than `2 ^ 26`
ticks, however often the melodies are rewritten, then no integer overflows, no count of steps among
them, and no word is too long: a piece is composed and ends within that time. Only in the state of
zeros may a draw never end. -/
theorem compose_fits (tonic : PitchClass) (scale : Scale) {form : Word} {settings : Settings}
    {barTicks : UInt32} (hcheck : settings.check = .ok ()) (hbar : settings.barTicks = .ok barTicks)
    (hform : form ≠ [])
    (hroom : (form.length * settings.maxPhraseBars.toNat + 2) * barTicks.toNat ≤ 2 ^ 26) (r : Rng) :
    Draw.WP (fun _ => False) r (Chorale.compose tonic scale form settings) (fun piece _ =>
        piece.cadenceTick.toNat + 2 * barTicks.toNat ≤ 2 ^ 26) ∧
      (r ≠ ⟨0, 0, 0, 0⟩ → ∃ piece r',
        (Chorale.compose tonic scale form settings).run r = (.ok piece, r')) ∧
      StepsFit scale settings := by
  obtain ⟨barTicks', hvalid⟩ := Settings.check_eq_ok_iff.1 hcheck
  cases hvalid.barTicks_eq.symm.trans hbar
  have hwp : Draw.WP (fun _ => False) r (Chorale.compose tonic scale form settings) _ :=
    WP.compose_of_room hvalid hform (fun hno => hno hroom) (fun hno => hno hroom) tonic scale r
  refine ⟨hwp.mono fun piece _ _ ⟨octaves, hpiece⟩ => hpiece.ticks_le hroom,
    hwp.exists_run_eq_ok fun _ => id, ?_⟩
  exact ⟨Harmony.steps_of_growRun, steps_of_composeMelody hvalid⟩

/-- Three phrases of two bars and the closing chord last for 32 ticks. -/
theorem compose_fits_aba :
    Settings.check ⟨2, 2, 2, 2, 1, 9, 3, 64, 120⟩ = .ok () ∧
    Settings.barTicks ⟨2, 2, 2, 2, 1, 9, 3, 64, 120⟩ = .ok 4 ∧
    ['a', 'b', 'a'] ≠ [] ∧ (3 * 2 + 2) * (4 : UInt32).toNat ≤ 2 ^ 26 ∧
    (∃ piece r',
      (Chorale.compose ⟨0⟩ .major ['a', 'b', 'a'] ⟨2, 2, 2, 2, 1, 9, 3, 64, 120⟩).run ⟨1, 2, 3, 4⟩ =
        (.ok piece, r') ∧ piece.cadenceTick.toNat + 2 * (4 : UInt32).toNat ≤ 2 ^ 26) ∧
    StepsFit .major ⟨2, 2, 2, 2, 1, 9, 3, 64, 120⟩ := by
  have hbar : Settings.barTicks ⟨2, 2, 2, 2, 1, 9, 3, 64, 120⟩ = .ok 4 :=
    Checked.mul_eq_ok_iff.2 (by decide)
  have hcheck : Settings.check ⟨2, 2, 2, 2, 1, 9, 3, 64, 120⟩ = .ok () :=
    Settings.check_eq_ok_iff.2 ⟨4, by decide, by decide, hbar, by decide, by decide, by decide,
      by decide, by decide, by decide⟩
  have hform : ['a', 'b', 'a'] ≠ [] := by decide
  have hroom : (3 * 2 + 2) * (4 : UInt32).toNat ≤ 2 ^ 26 := by decide
  obtain ⟨hends, hgives, hsteps⟩ :=
    compose_fits ⟨0⟩ .major hcheck hbar hform hroom ⟨1, 2, 3, 4⟩
  obtain ⟨piece, r', hrun⟩ := hgives (by decide)
  exact ⟨hcheck, hbar, hform, hroom, ⟨piece, r', hrun, (hends.of_ok hrun).2⟩, hsteps⟩

/-! ## Tracks -/

theorem Piece.Voices.gapless {piece : Piece} {voice : Voice} {tones : List Tone} {closing : Tone}
    {track : Track} (h : piece.Voices settings octaves barTicks voice tones closing)
    (hpower : isPowerOfTwo barTicks.toNat = true)
    (htrack : track = (tones ++ [closing]).foldl Track.addTone .empty) :
    track.Gapless (tones ++ [closing]) piece.cadenceTick.toNat
      (piece.cadenceTick.toNat + 2 * barTicks.toNat) := by
  have hpos : 1 ≤ barTicks.toNat := ((Melody.within_self hpower).bounds barTicks.toNat_lt).1
  have hlast : piece.cadenceTick.toNat < closing.finish.toNat := by
    have := h.finish
    omega
  rw [← h.finish]
  exact .of_line h.plays.line (congrArg UInt32.toNat h.start) hlast htrack

/-- Every track of a composed piece is one line without a rest, closed by a tone of two bars, and all
tracks end together. -/
theorem compose_gapless {tonic : PitchClass} {scale : Scale} {form : Word} {settings : Settings}
    {piece : Piece} {r r' : Rng}
    (h : (Chorale.compose tonic scale form settings).run r = (.ok piece, r')) :
    ∃ barTicks, settings.barTicks = .ok barTicks ∧ piece.sequence.tracks.length = 4 ∧
      piece.sequence.endTick.toNat = piece.cadenceTick.toNat + 2 * barTicks.toNat ∧
      ∀ track ∈ piece.sequence.tracks, ∃ tones, track.Gapless tones piece.cadenceTick.toNat
        (piece.cadenceTick.toNat + 2 * barTicks.toNat) := by
  obtain ⟨octaves, barTicks, hvalid, hpiece⟩ := composed_of_run h
  obtain ⟨tracks, hsequence, htracks⟩ := hpiece.tracks
  have hgapless : ∀ track ∈ tracks.toList, ∃ tones, track.Gapless tones piece.cadenceTick.toNat
      (piece.cadenceTick.toNat + 2 * barTicks.toNat) := fun track hmem => by
    obtain ⟨voice, rfl⟩ := Quartet.exists_get_of_mem hmem
    obtain ⟨tones, closing, hvoice, htrack⟩ := htracks voice
    exact ⟨_, hvoice.gapless hvalid.power htrack⟩
  obtain ⟨_, hbass⟩ := hgapless tracks.bass List.mem_cons_self
  have hend : piece.sequence.endTick = tracks.bass.endTick := by
    rw [hsequence]
    refine Sequence.endTick_of_forall (List.cons_ne_nil _ _) fun track hmem => ?_
    obtain ⟨_, htrack⟩ := hgapless track hmem
    exact UInt32.toNat_inj.1 (htrack.endTick.trans hbass.endTick.symm)
  refine ⟨barTicks, hvalid.barTicks_eq, ?_, ?_, ?_⟩
  · rw [hsequence]; exact tracks.length_toList
  · rw [hend]; exact hbass.endTick
  · rw [hsequence]; exact hgapless

/-- Two phrases of two bars with the first one played again are composed. -/
theorem exists_compose_aba : ∃ piece r',
    (Chorale.compose ⟨0⟩ .major ['a', 'b', 'a'] ⟨2, 2, 2, 2, 1, 1, 3, 64, 120⟩).run ⟨1, 2, 3, 4⟩ =
      (.ok piece, r') := Draw.exists_run_eq_ok (by decide +kernel)

/-- Two phrases of two bars with the first one played again. -/
theorem compose_gapless_aba : ∃ piece r',
    (Chorale.compose ⟨0⟩ .major ['a', 'b', 'a'] ⟨2, 2, 2, 2, 1, 1, 3, 64, 120⟩).run ⟨1, 2, 3, 4⟩ =
      (.ok piece, r') ∧
    ∃ barTicks, Settings.barTicks ⟨2, 2, 2, 2, 1, 1, 3, 64, 120⟩ = .ok barTicks ∧
      piece.sequence.tracks.length = 4 ∧
      piece.sequence.endTick.toNat = piece.cadenceTick.toNat + 2 * barTicks.toNat ∧
      ∀ track ∈ piece.sequence.tracks, ∃ tones, track.Gapless tones piece.cadenceTick.toNat
        (piece.cadenceTick.toNat + 2 * barTicks.toNat) := by
  obtain ⟨piece, r', hrun⟩ := exists_compose_aba
  exact ⟨piece, r', hrun, compose_gapless hrun⟩

end Chorale
