import Chorale.Proofs.Piece.Likeness

/-!
# Keys, octaves and velocities leave chance alone

A piece that is composed in another key, in other octaves, at another velocity or tempo, but from the
same state of the generator, has the same phrases in the same order, and on each track the same notes
at the same ticks: their keys are as far apart as the two tonics, but for octaves
(`compose_transposed`).
-/

namespace Chorale

/-- Two keys are as far apart as two tonics, but for octaves. -/
def Transposed (tonic tonic' : PitchClass) (key key' : UInt8) : Prop :=
  (key.toNat : Int) - key'.toNat ≡ tonic.height - tonic'.height [ZMOD 12]

/-- Two pieces that are one piece in two keys, as two settings have it played. -/
structure Piece.Transposed (tonic tonic' : PitchClass) (settings settings' : Settings)
    (piece piece' : Piece) : Prop where
  harmony : piece.harmony = piece'.harmony
  symbols : piece.phrases.map (·.symbol) = piece'.phrases.map (·.symbol)
  /-- They have the same bars and melodies, and their chords are as far apart as the tonics. -/
  phrases : List.Forall₂ (Phrase.Alike tonic tonic') piece.phrases piece'.phrases
  order : piece.order = piece'.order
  offsets : piece.offsets = piece'.offsets
  cadenceTick : piece.cadenceTick = piece'.cadenceTick
  cadenceDegrees : piece.cadenceDegrees = piece'.cadenceDegrees
  tracks : List.Forall₂ (Track.Alike (Chorale.Transposed tonic tonic') settings settings')
    piece.sequence.tracks piece'.sequence.tracks

theorem keysAlike_transposed (tonic tonic' : PitchClass) (octave octave' : Int32) :
    KeysAlike tonic tonic' octave octave' (Transposed tonic tonic') :=
  fun _ _ _ _ _ hchord hkey hkey' => hchord.key hkey hkey'

/-- Under settings that differ in the octave, the velocity and the tempo alone, and in any two keys,
chance composes one piece and leaves one state. -/
theorem compose_transposed {tonic tonic' : PitchClass} {scale : Scale} {form : Word}
    {settings settings' : Settings} {piece piece' : Piece} {r r₁ r₂ : Rng}
    (hdraws : settings.DrawsAlike settings')
    (h : (Chorale.compose tonic scale form settings).run r = (.ok piece, r₁))
    (h' : (Chorale.compose tonic' scale form settings').run r = (.ok piece', r₂)) :
    r₁ = r₂ ∧ piece.Transposed tonic tonic' settings settings' piece' := by
  obtain ⟨octaves, barTicks, hvalid, hpiece⟩ := composed_of_run h
  obtain ⟨octaves', barTicks', hvalid', hpiece'⟩ := composed_of_run h'
  have hbarTicks := hvalid'.barTicks_eq
  rw [← hdraws.barTicks, hvalid.barTicks_eq] at hbarTicks
  cases hbarTicks
  obtain ⟨hstate, halike⟩ := (Agree.compose hdraws tonic tonic' scale rfl).of_ok h h'
  have horder : piece.order = piece'.order := by rw [hpiece.order_eq, hpiece'.order_eq]
  have hheard := halike.heard hdraws hvalid hpiece hpiece' horder fun voice =>
    keysAlike_transposed tonic tonic' (octaves.get voice) (octaves'.get voice)
  exact ⟨hstate, {
    harmony := halike.harmony
    symbols := by rw [hpiece.symbols, hpiece'.symbols]
    phrases := halike.phrases
    order := horder
    offsets := hheard.offsets
    cadenceTick := hheard.cadenceTick
    cadenceDegrees := halike.cadenceDegrees
    tracks := hheard.tracks }⟩

/-- Two phrases with the first one played again, in C and, two octaves higher, in G. -/
theorem compose_transposed_aba : ∃ piece piece' r₁ r₂,
    Settings.DrawsAlike ⟨2, 2, 2, 2, 1, 1, 3, 64, 120⟩ ⟨2, 2, 2, 2, 1, 1, 5, 100, 90⟩ ∧
    (Chorale.compose ⟨0⟩ .major ['a', 'b', 'a'] ⟨2, 2, 2, 2, 1, 1, 3, 64, 120⟩).run ⟨1, 2, 3, 4⟩ =
      (.ok piece, r₁) ∧
    (Chorale.compose ⟨7⟩ .major ['a', 'b', 'a'] ⟨2, 2, 2, 2, 1, 1, 5, 100, 90⟩).run ⟨1, 2, 3, 4⟩ =
      (.ok piece', r₂) ∧
    r₁ = r₂ ∧ piece.Transposed ⟨0⟩ ⟨7⟩ ⟨2, 2, 2, 2, 1, 1, 3, 64, 120⟩
      ⟨2, 2, 2, 2, 1, 1, 5, 100, 90⟩ piece' := by
  obtain ⟨piece, r₁, hrun⟩ := exists_compose_aba
  obtain ⟨piece', r₂, hrun'⟩ := Draw.exists_run_eq_ok (x := Chorale.compose ⟨7⟩ .major ['a', 'b', 'a']
    ⟨2, 2, 2, 2, 1, 1, 5, 100, 90⟩) (r := ⟨1, 2, 3, 4⟩) (by decide +kernel)
  have hdraws : Settings.DrawsAlike ⟨2, 2, 2, 2, 1, 1, 3, 64, 120⟩ ⟨2, 2, 2, 2, 1, 1, 5, 100, 90⟩ :=
    ⟨rfl, rfl, rfl, rfl, rfl, rfl⟩
  exact ⟨piece, piece', r₁, r₂, hdraws, hrun, hrun', compose_transposed hdraws hrun hrun'⟩

end Chorale
