import Chorale.Piece.Compose
import Chorale.Proofs.Draw.Range
import Chorale.Proofs.Rewriting.Reuse
import Chorale.Proofs.Settings.Check

/-!
# The phrases of a piece

A phrase is as long as the settings allow (`WP.composeLength`), its melodies fill its bars and came
about by divisions (`WP.composeMelodies`), and it has a chord for each of its quarter notes: if there
are as many chords as the phrases have quarter notes together, they are dealt out without one left
over (`WP.composePhrases`).
-/

namespace Chorale

variable {allowed : Failure → Prop} {settings : Settings} {barTicks : UInt32}

/-- A phrase has a chord for each quarter note, and melodies that fill its bars and came about from
one note for each bar. -/
structure Phrase.Filled (settings : Settings) (barTicks : UInt32) (phrase : Phrase) : Prop where
  chords : phrase.chords.length = phrase.bars.toNat * settings.quartersPerBar.toNat
  melodies : ∀ voice, Melody.Reads (Melody.Within barTicks.toNat) ⟨barTicks.toNat, []⟩
    (phrase.melodies.get voice) ⟨barTicks.toNat, []⟩ (phrase.bars.toNat * barTicks.toNat)
  divided : ∀ voice, Melody.Divided phrase.bars.toNat (phrase.melodies.get voice)

/-! ## Quarter notes -/

/-- How many quarter notes phrases of some lengths have together. -/
def quarterCount (settings : Settings) (lengths : List UInt32) : Nat :=
  (lengths.map (·.toNat * settings.quartersPerBar.toNat)).sum

@[simp] theorem quarterCount_nil (settings : Settings) : quarterCount settings [] = 0 := rfl

@[simp] theorem quarterCount_cons (settings : Settings) (bars : UInt32) (lengths : List UInt32) :
    quarterCount settings (bars :: lengths) =
      bars.toNat * settings.quartersPerBar.toNat + quarterCount settings lengths := by
  simp [quarterCount]

theorem quarterCount_eq (settings : Settings) (lengths : List UInt32) :
    quarterCount settings lengths =
      (lengths.map (·.toNat)).sum * settings.quartersPerBar.toNat := by
  rw [quarterCount, List.sum_map_mul_right]

/-- Bars have an even number of quarter notes, and there is at least one bar. -/
theorem quarterCount_bounds (h : settings.Valid barTicks) {lengths : List UInt32}
    (hne : lengths ≠ []) (hpos : ∀ bars ∈ lengths, settings.minPhraseBars ≤ bars) :
    2 ≤ quarterCount settings lengths ∧ 2 ∣ quarterCount settings lengths := by
  obtain ⟨bars, rest, rfl⟩ := List.exists_cons_of_ne_nil hne
  have hbars : 1 ≤ bars.toNat := by
    have hmin : 0 < settings.minPhraseBars.toNat :=
      Nat.pos_of_ne_zero fun e => h.phraseBars.1 (UInt32.toNat_inj.1 e)
    have := UInt32.le_iff_toNat_le.1 (hpos bars List.mem_cons_self)
    omega
  have htwo : 2 ≤ settings.quartersPerBar.toNat := UInt32.le_iff_toNat_le.1 h.quarters.1
  have heven : settings.quartersPerBar.toNat % 2 = 0 := by
    have := congrArg UInt32.toNat h.quarters.2
    rwa [UInt32.toNat_mod] at this
  refine ⟨?_, ?_⟩
  · rw [quarterCount_cons]
    have := Nat.mul_le_mul hbars htwo
    omega
  · rw [quarterCount_eq]
    exact Dvd.dvd.mul_left (Nat.dvd_of_mod_eq_zero heven) _

/-- The number of quarter notes is the sum of the phrases' bars, times those of a bar. -/
theorem quarterCount_eq_of_sum {lengths : List UInt32} {totalBars : UInt32} {quarters : UInt64}
    (htotal : FixedWidth.toInt totalBars =
      FixedWidth.toInt (0 : UInt32) + (lengths.map FixedWidth.toInt).sum)
    (hquarters : FixedWidth.toInt quarters =
      FixedWidth.toInt totalBars.toUInt64 * FixedWidth.toInt settings.quartersPerBar.toUInt64) :
    quarters.toNat = quarterCount settings lengths := by
  have hsum : (lengths.map FixedWidth.toInt).sum = ((lengths.map (·.toNat)).sum : Nat) := by
    clear htotal
    induction lengths with
    | nil => rfl
    | cons bars lengths ih =>
      rw [List.map_cons, List.sum_cons, ih, List.map_cons, List.sum_cons, Int.natCast_add]
      rfl
  have htotal : (totalBars.toNat : Int) = 0 + (lengths.map FixedWidth.toInt).sum := htotal
  have hquarters : quarters.toNat = totalBars.toUInt64.toNat * settings.quartersPerBar.toUInt64.toNat :=
    Int.ofNat.inj hquarters
  rw [hsum] at htotal
  rw [hquarters, quarterCount_eq, UInt32.toNat_toUInt64, UInt32.toNat_toUInt64]
  congr 1
  omega

/-! ## Phrases -/

theorem WP.composeLength (h : settings.Valid barTicks) (r : Rng) :
    Draw.WP allowed r (composeLength settings) fun bars _ =>
      settings.minPhraseBars ≤ bars ∧ bars ≤ settings.maxPhraseBars := by
  have hle : settings.minPhraseBars.toUInt64 ≤ settings.maxPhraseBars.toUInt64 :=
    UInt32.toUInt64_le.2 h.phraseBars.2
  have hlt := settings.maxPhraseBars.toNat_lt
  refine .bind (.mono (Draw.WP.inclusiveRange hle ?_ r) fun bars _ _ ⟨hlow, hhigh⟩ => .pure ?_)
  · rw [UInt32.toNat_toUInt64]; omega
  · have hlow := UInt64.le_iff_toNat_le.1 hlow
    have hhigh := UInt64.le_iff_toNat_le.1 hhigh
    rw [UInt32.toNat_toUInt64] at hlow hhigh
    have hbars : bars.toUInt32.toNat = bars.toNat := by
      rw [UInt64.toNat_toUInt32, Nat.mod_eq_of_lt (by omega)]
    rw [UInt32.le_iff_toNat_le, UInt32.le_iff_toNat_le, hbars]
    exact ⟨hlow, hhigh⟩

theorem WP.composeMelody (h : settings.Valid barTicks) {bars : UInt32} {grammar : Melody.Grammar}
    (hgrammar : grammar.Keeps bars barTicks) (r : Rng) :
    Draw.WP allowed r (composeMelody settings grammar) fun (melody, left) _ =>
      left.Keeps bars barTicks ∧ melody = left.system.current := by
  have hle : settings.minGrowth.toUInt64 ≤ settings.maxGrowth.toUInt64 := UInt32.toUInt64_le.2 h.growth
  have hlt := settings.maxGrowth.toNat_lt
  refine .bind (.mono (Draw.WP.inclusiveRange hle ?_ r) fun steps r' _ _ => ?_)
  · rw [UInt32.toNat_toUInt64]; omega
  · exact Melody.Grammar.WP.generate h.power hgrammar steps.toNat r'

/-- The steps of a melody are counted from rest, up to the number that was drawn for it. -/
theorem steps_of_composeMelody (h : settings.Valid barTicks) {grammar left : Melody.Grammar}
    {melody : Word} {r r' : Rng}
    (hrun : (composeMelody settings grammar).run r = (.ok (melody, left), r')) :
    left.system.steps ≤ settings.maxGrowth.toNat := by
  have hle : settings.minGrowth.toUInt64 ≤ settings.maxGrowth.toUInt64 := UInt32.toUInt64_le.2 h.growth
  have hlt := settings.maxGrowth.toNat_lt
  obtain ⟨steps, r₁, hsteps, hmelody⟩ := Draw.run_bind_eq_ok_iff.1 hrun
  have hdrawn : Draw.WP (fun _ => True) r (Draw.inclusiveRange settings.minGrowth.toUInt64
      settings.maxGrowth.toUInt64) _ :=
    Draw.WP.inclusiveRange hle (by rw [UInt32.toNat_toUInt64]; omega) r
  have hhigh := UInt64.le_iff_toNat_le.1 (hdrawn.of_ok hsteps).2.2
  rwa [UInt32.toNat_toUInt64, ← Melody.Grammar.steps_of_generate hmelody] at hhigh

/-- The melodies of a phrase all fill its bars, though one grammar makes them. -/
theorem WP.composeMelodies (h : settings.Valid barTicks) (bars : UInt32) (r : Rng) :
    Draw.WP allowed r (composeMelodies settings bars barTicks) fun melodies _ => ∀ voice,
      Melody.Reads (Melody.Within barTicks.toNat) ⟨barTicks.toNat, []⟩ (melodies.get voice)
        ⟨barTicks.toNat, []⟩ (bars.toNat * barTicks.toNat) ∧
      Melody.Divided bars.toNat (melodies.get voice) := by
  refine .bind (.mono (composeMelody h (.start h.power) r) ?_)
  rintro ⟨bass, grammar⟩ r₁ - ⟨hbass, rfl⟩
  refine .bind (.mono (composeMelody h hbass r₁) ?_)
  rintro ⟨tenor, grammar⟩ r₂ - ⟨htenor, rfl⟩
  refine .bind (.mono (composeMelody h htenor r₂) ?_)
  rintro ⟨alto, grammar⟩ r₃ - ⟨halto, rfl⟩
  refine .bind (.mono (composeMelody h halto r₃) ?_)
  rintro ⟨soprano, grammar⟩ r₄ - ⟨hsoprano, rfl⟩
  refine .pure fun voice => ?_
  cases voice with
  | bass => exact ⟨hbass.reads, hbass.divided⟩
  | tenor => exact ⟨htenor.reads, htenor.divided⟩
  | alto => exact ⟨halto.reads, halto.divided⟩
  | soprano => exact ⟨hsoprano.reads, hsoprano.divided⟩

theorem WP.composePhrases (h : settings.Valid barTicks) (items : List (Char × UInt32))
    {chords : List Chord} (hchords : chords.length = quarterCount settings (items.map (·.2))) (r : Rng) :
    Draw.WP allowed r (composePhrases settings barTicks items chords) fun phrases _ =>
      phrases.map (fun phrase => (phrase.symbol, phrase.bars)) = items ∧
        (∀ phrase ∈ phrases, phrase.Filled settings barTicks) ∧
        phrases.flatMap (·.chords) = chords := by
  induction items generalizing chords r with
  | nil => exact .pure ⟨rfl, nofun, (List.eq_nil_of_length_eq_zero hchords).symm⟩
  | cons item later ih =>
    obtain ⟨symbol, bars⟩ := item
    simp only [List.map_cons, quarterCount_cons] at hchords
    have hrest : (chords.drop (bars.toNat * settings.quartersPerBar.toNat)).length =
        quarterCount settings (later.map (·.2)) := by
      rw [List.length_drop]; omega
    refine .bind (.mono (composeMelodies h bars r) fun melodies r' _ hmelodies => ?_)
    refine .bind (.mono (ih hrest r') fun phrases _ _ ⟨hitems, hphrases, hflat⟩ => .pure ⟨?_, ?_, ?_⟩)
    · rw [List.map_cons, hitems]
    · have hchords : (chords.take (bars.toNat * settings.quartersPerBar.toNat)).length =
          bars.toNat * settings.quartersPerBar.toNat := List.length_take_of_le (by omega)
      refine List.forall_mem_cons.2 ⟨⟨hchords, ?_, ?_⟩, hphrases⟩
      · exact fun voice => (hmelodies voice).1
      · exact fun voice => (hmelodies voice).2
    · rw [List.flatMap_cons, hflat, List.take_append_drop]

end Chorale
