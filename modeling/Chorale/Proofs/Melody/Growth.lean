import Chorale.Melody.Grammar
import Chorale.Proofs.Draw.Stuck
import Chorale.Proofs.Melody.Pulse
import Chorale.Proofs.Rewriting.Pass

/-!
# How melodies grow

What a rule puts in the place of a note halves the note length, sounds two notes and brings the
length back (`IsDivision`), so that it lasts as long as the note and leaves the pulse as it was,
unless the note has only one tick; then the rewriting is not playable. So an accepted rewriting
reads as the melody did (`Reads.rewrite`), through powers of two up to the length of a bar, and
this is kept by any number of steps (`WP.stepTimes`): a grown melody fills its bars
(`Grammar.generate_fillsBars`). Each division adds one note and a few other letters, so that the
notes of a melody tell how many letters it may have of each kind (`Divided`).
-/

namespace Chorale.Melody

/-! ## Divisions -/

theorem count_cons_eq_add (a c : Char) (w : Word) : (c :: w).count a = [c].count a + w.count a := by
  rw [← List.singleton_append, List.count_append]

/-- How many steps up and down a word has. -/
def signs (w : Word) : Nat := w.count '+' + w.count '-'

@[simp] theorem signs_nil : signs [] = 0 := rfl

theorem signs_append (u v : Word) : signs (u ++ v) = signs u + signs v := by
  simp only [signs, List.count_append]
  omega

theorem signs_cons (c : Char) (w : Word) : signs (c :: w) = signs [c] + signs w :=
  signs_append [c] w

/-- Two notes of half the length. Lengths are counted in halves of the divided note. -/
structure IsDivision (w : Word) : Prop where
  /-- The length is halved before anything else. -/
  halves : ['d'] <+: w ∨ ['[', 'd'] <+: w
  reads : Reads (fun l => l = 1 ∨ l = 2) ⟨2, []⟩ w ⟨2, []⟩ 2
  notes : w.count 'F' = 2
  signs_le : signs w ≤ 7
  length_le : w.length ≤ 12

/-- A rule replaces a note by itself or by a division. -/
theorem successor_of_mem {rule : Rule} (h : rule ∈ rules) :
    rule.letter = 'F' ∧ (rule.successor = ['F'] ∨ IsDivision rule.successor) := by
  have table : ∀ rule ∈ rules, rule.letter = 'F' ∧ (rule.successor = ['F'] ∨
      (['d'] <+: rule.successor ∨ ['[', 'd'] <+: rule.successor) ∧
      (rule.successor.count 'F' = 2 ∧ signs rule.successor ≤ 7 ∧ rule.successor.length ≤ 12) ∧
      Pulse.after ⟨2, []⟩ rule.successor = some ⟨2, []⟩ ∧ Pulse.span ⟨2, []⟩ rule.successor = 2 ∧
      ∀ u ∈ rule.successor.inits, ∀ p ∈ Pulse.after ⟨2, []⟩ u, p.length = 1 ∨ p.length = 2) := by
    decide
  refine (table rule h).imp_right (Or.imp_right ?_)
  rintro ⟨hhalves, ⟨hnotes, hsigns, hlength⟩, hafter, hspan, hlengths⟩
  have hreads : Reads (fun l => l = 1 ∨ l = 2) _ _ _ _ := .of_after hafter fun u hu =>
    hlengths u ((List.mem_inits ..).2 hu)
  rw [hspan] at hreads
  exact ⟨hhalves, hreads, hnotes, hsigns, hlength⟩

/-- The pulse with `m` ticks for one, on top of what was laid aside before. -/
def Pulse.scale (m : Nat) (below : List Nat) (p : Pulse) : Pulse :=
  ⟨p.length * m, p.saved.map (· * m) ++ below⟩

theorem Pulse.pass_scale {m : Nat} {below : List Nat} {p p' : Pulse} {c : Char}
    (hpass : p.pass c = some p') (hp : p.length = 1 ∨ p.length = 2)
    (hp' : p'.length = 1 ∨ p'.length = 2) :
    (p.scale m below).pass c = some (p'.scale m below) := by
  cases hc : Command.ofLetter? c with
  | none =>
    simp only [Pulse.pass, hc, Option.some.injEq] at hpass ⊢
    rw [hpass]
  | some command =>
    simp only [Pulse.pass, hc] at hpass ⊢
    cases command with
    | halve =>
      cases hpass
      have hp' : p.length / 2 = 1 ∨ p.length / 2 = 2 := hp'
      have h2 : p.length = 2 := by omega
      simp [Pulse.obey, Pulse.scale, h2]
    | double => cases hpass; simp [Pulse.obey, Pulse.scale, Nat.mul_right_comm]
    | restore =>
      obtain ⟨length, _ | ⟨_, saved⟩⟩ := p
      · cases hpass
      · cases hpass; rfl
    | _ => cases hpass; rfl

theorem Reads.scale {p q : Pulse} {w : Word} {n : Nat} (m : Nat) (below : List Nat)
    (h : Reads (fun l => l = 1 ∨ l = 2) p w q n) (hp : p.length = 1 ∨ p.length = 2) :
    Reads (fun l => l = m ∨ l = 2 * m) (p.scale m below) w (q.scale m below) (n * m) := by
  induction h with
  | nil => rw [Nat.zero_mul]; exact .nil _
  | @cons p p' q c w n hpass hgood _ ih =>
    have hticks : p.ticks c * m = (p.scale m below).ticks c := by
      simp only [Pulse.ticks, Pulse.scale]
      split <;> simp
    rw [Nat.add_mul, hticks]
    refine .cons (Pulse.pass_scale hpass hp hgood) ?_ (ih hgood)
    rcases hgood with h | h <;> simp [Pulse.scale, h]

/-- At a length that can be halved, a division lasts as long as the note. -/
theorem IsDivision.reads_scaled {w : Word} (h : IsDivision w) (m : Nat) (saved : List Nat) :
    Reads (fun l => l = m ∨ l = 2 * m) ⟨2 * m, saved⟩ w ⟨2 * m, saved⟩ (2 * m) :=
  h.reads.scale m saved (.inr rfl)

/-- A note of one tick cannot be divided. -/
theorem IsDivision.not_playable {w : Word} (h : IsDivision w) (saved : List Nat) (v : Word) :
    (⟨1, saved⟩ : Pulse).playable (w ++ v) = .ok false := by
  rcases h.halves with ⟨rest, rfl⟩ | ⟨rest, rfl⟩ <;> rfl

/-! ## Accepted rewritings -/

/-- The powers of two up to `top`. -/
def Within (top l : Nat) : Prop := (∃ k, l = 2 ^ k) ∧ l ≤ top

/-- A power of two is within itself. -/
theorem within_self {n : Nat} (h : isPowerOfTwo n = true) : Within n n :=
  ⟨isPowerOfTwo_iff.1 h, Nat.le_refl n⟩

theorem Within.bounds {top l : Nat} (h : Within top l) (htop : top < 2 ^ 32) :
    1 ≤ l ∧ l < 2 ^ 32 := by
  obtain ⟨⟨k, rfl⟩, hle⟩ := h
  exact ⟨Nat.one_le_two_pow, Nat.lt_of_le_of_lt hle htop⟩

/-- So it does at any power of two but one. -/
theorem IsDivision.reads_within {w : Word} {top l : Nat} (h : IsDivision w) (hl : Within top l)
    (hone : l ≠ 1) (saved : List Nat) : Reads (Within top) ⟨l, saved⟩ w ⟨l, saved⟩ l := by
  obtain ⟨⟨_ | k, rfl⟩, hle⟩ := hl
  · exact absurd (Nat.pow_zero 2) hone
  rw [Nat.pow_succ'] at hle ⊢
  refine (h.reads_scaled (2 ^ k) saved).mono fun l hl => ?_
  rcases hl with rfl | rfl
  · exact ⟨⟨k, rfl⟩, by omega⟩
  · exact ⟨⟨k + 1, (Nat.pow_succ' ..).symm⟩, hle⟩

/-- `piece` is a letter, or a division in the place of a note. -/
inductive Refines : Char → Word → Prop
  | letter (c : Char) : Refines c [c]
  | division {w : Word} (h : IsDivision w) : Refines 'F' w

/-- A rewriting of a melody is not playable, or reads as the melody did. -/
theorem Reads.rewrite {top : Nat} (htop : top < 2 ^ 32) {p q : Pulse} {w : Word} {n : Nat}
    (h : Reads (Within top) p w q n) (hp : Within top p.length) {pieces : List Word}
    (hpieces : List.Forall₂ Refines w pieces) :
    p.playable pieces.flatten = .ok false ∨
      p.playable pieces.flatten = .ok true ∧ Reads (Within top) p pieces.flatten q n := by
  induction h generalizing pieces with
  | nil => cases hpieces; exact .inr ⟨rfl, .nil _⟩
  | @cons p p' q c w n hpass hgood _ ih =>
    obtain ⟨piece, pieces', hpiece, hpieces', rfl⟩ := List.forall₂_cons_left_iff.1 hpieces
    have hrest := ih hgood hpieces'
    rw [List.flatten_cons]
    cases hpiece with
    | letter =>
      rw [List.singleton_append, Reads.playable_cons hpass (hp.bounds htop).2 (hgood.bounds htop)]
      exact hrest.imp_right (And.imp_right (.cons hpass hgood))
    | division hdivision =>
      cases hpass
      obtain ⟨length, saved⟩ := p
      by_cases hone : length = 1
      · subst hone
        exact .inl (hdivision.not_playable saved _)
      -- A longer note is halved exactly, and the melody goes on from where the note left it.
      have hread := hdivision.reads_within hp hone saved
      rw [hread.playable_append (hp.bounds htop).2 fun l hl => hl.bounds htop]
      exact hrest.imp_right (And.imp_right hread.append)

/-! ## Counting divisions -/

/-- How many letters a melody may have that came about from `bars` notes by dividing them: each
division adds a note, and besides it at most seven steps up and down and eleven letters in all. -/
structure Divided (bars : Nat) (melody : Word) : Prop where
  notes : bars ≤ melody.count 'F'
  signs_le : signs melody ≤ 7 * (melody.count 'F' - bars)
  length_le : melody.length ≤ bars + 11 * (melody.count 'F' - bars)

theorem divided_replicate (bars : Nat) : Divided bars (List.replicate bars 'F') where
  notes := by rw [List.count_replicate_self]
  signs_le := by simp [signs, List.count_replicate]
  length_le := by simp

/-- A rewriting divides a number of notes, each of them once. -/
theorem exists_divisions {w : Word} {pieces : List Word} (h : List.Forall₂ Refines w pieces) :
    ∃ divisions ≤ w.count 'F', pieces.flatten.count 'F' = w.count 'F' + divisions ∧
      signs pieces.flatten ≤ signs w + 7 * divisions ∧
      pieces.flatten.length ≤ w.length + 11 * divisions := by
  induction h with
  | nil => exact ⟨0, Nat.le_refl _, rfl, Nat.le_refl _, Nat.le_refl _⟩
  | @cons c piece w pieces hpiece _ ih =>
    obtain ⟨divisions, hle, hnotes, hsigns, hlength⟩ := ih
    rw [List.flatten_cons, List.count_append, signs_append, List.length_append,
      count_cons_eq_add 'F' c w, signs_cons c w, List.length_cons]
    cases hpiece with
    | letter => exact ⟨divisions, by omega, by omega, by omega, by rw [List.length_singleton]; omega⟩
    | division hdivision =>
      have hpieceNotes := hdivision.notes
      have hpieceSigns := hdivision.signs_le
      have hpieceLength := hdivision.length_le
      rw [List.count_singleton_self]
      exact ⟨divisions + 1, by omega, by omega, by omega, by omega⟩

theorem Divided.rewrite {bars : Nat} {w : Word} (h : Divided bars w) {pieces : List Word}
    (hpieces : List.Forall₂ Refines w pieces) : Divided bars pieces.flatten := by
  obtain ⟨divisions, -, hnotes, hsigns, hlength⟩ := exists_divisions hpieces
  have := h.notes
  have := h.signs_le
  have := h.length_le
  exact ⟨by omega, by omega, by omega⟩

/-- Each note lasts for a tick or more. -/
theorem Reads.count_note_le {good : Nat → Prop} {p q : Pulse} {w : Word} {n : Nat}
    (h : Reads good p w q n) (hp : good p.length) (hgood : ∀ l, good l → 1 ≤ l) :
    w.count 'F' ≤ n := by
  induction h with
  | nil => exact Nat.le_refl _
  | @cons p p' q c w n hpass hl _ ih =>
    have hfirst : [c].count 'F' ≤ p.ticks c := by
      by_cases hc : c = 'F'
      · subst hc
        exact hgood _ hp
      · rw [List.count_singleton, if_neg (by simpa using hc)]
        exact Nat.zero_le _
    rw [count_cons_eq_add]
    exact Nat.add_le_add hfirst (ih hl)

/-! ## Steps -/

theorem length_rules_lt {system : RewriteSystem} (hrules : system.rules = rules) :
    system.rules.length < 2 ^ 32 := by
  rw [hrules]
  decide

/-- A pass of the melody grammar leaves a letter as it is or divides a note. -/
theorem refines_of_yields {system : RewriteSystem} (hrules : system.rules = rules) {w w' : Word}
    (h : system.Yields w w') : ∃ pieces, List.Forall₂ Refines w pieces ∧ w' = pieces.flatten := by
  obtain ⟨pieces, hpieces, rfl⟩ := h
  refine ⟨pieces, ?_, rfl⟩
  rw [← Site.map_letter_ofWordAfter [] w, List.forall₂_map_left_iff]
  refine hpieces.imp fun site piece hpiece => ?_
  cases hpiece with
  | letter => exact .letter _
  | @rule rule hmem =>
    obtain ⟨hmem, hfits⟩ := RewriteSystem.mem_candidates.1 hmem
    obtain ⟨hletter, hsuccessor⟩ := successor_of_mem (hrules ▸ hmem)
    have hsite : site.letter = 'F' := (Rule.letter_of_fits hfits).trans hletter
    rw [hsite]
    rcases hsuccessor with h | h
    · rw [h]; exact .letter _
    · exact .division h

variable {allowed : Failure → Prop}

/-- What holds of every accepted rewriting holds of the one that is kept. -/
theorem WP.attempt {system : RewriteSystem} (hrules : system.rules.length < 2 ^ 32) {source : Word}
    {accept : Word → Except Failure Bool} {good : Word → Prop}
    (haccept : ∀ w, system.Yields source w →
      accept w = .ok false ∨ accept w = .ok true ∧ good w) (limit : Nat) (r : Rng) :
    Draw.WP allowed r (Melody.attempt system source accept limit) fun attempts _ =>
      ∀ w, attempts.accepted = some w → good w := by
  induction limit generalizing r with
  | zero => exact .pure nofun
  | succ limit ih =>
    refine .bind (.mono (RewriteSystem.WP.rewrite hrules source r) fun w r' _ hw => ?_)
    rcases haccept w hw with h | ⟨h, hgood⟩
    · refine .bind (.lift (.of_eq_ok h ?_))
      exact .bind (.mono (ih r') fun attempts _ _ hattempts => .pure hattempts)
    · refine .bind (.lift (.of_eq_ok h ?_))
      exact .pure fun w' e => by cases e; exact hgood

namespace Grammar

/-- A grammar of melodies of `bars` bars, wherever it was left: its melody fills them, and came about
from one note for each. -/
structure Keeps (bars barTicks : UInt32) (grammar : Grammar) : Prop where
  reset : grammar.reset = ofBars bars barTicks
  reads : Reads (Within barTicks.toNat) ⟨barTicks.toNat, []⟩ grammar.system.current
    ⟨barTicks.toNat, []⟩ (bars.toNat * barTicks.toNat)
  divided : Divided bars.toNat grammar.system.current

variable {bars barTicks : UInt32}

theorem Keeps.start (h : isPowerOfTwo barTicks.toNat = true) :
    (ofBars bars barTicks).Keeps bars barTicks where
  reset := rfl
  reads := by
    have hnote : Pulse.pass ⟨barTicks.toNat, []⟩ 'F' = some ⟨barTicks.toNat, []⟩ := rfl
    show Reads _ _ (List.replicate bars.toNat 'F') _ _
    induction bars.toNat with
    | zero => rw [Nat.zero_mul]; exact .nil _
    | succ n ih =>
      rw [List.replicate_succ, Nat.succ_mul, Nat.add_comm (n * _)]
      exact .cons hnote (within_self h) ih
  divided := divided_replicate bars.toNat

/-- At rest again, the grammar has the melody of a new one. -/
theorem Keeps.restart {grammar : Grammar} (h : isPowerOfTwo barTicks.toNat = true)
    (hgrammar : grammar.Keeps bars barTicks) : grammar.reset.Keeps bars barTicks :=
  hgrammar.reset ▸ .start h

theorem Keeps.rules_eq {grammar : Grammar} (hgrammar : grammar.Keeps bars barTicks) :
    grammar.system.rules = rules :=
  congrArg (·.system.rules) hgrammar.reset

theorem Keeps.barTicks_eq {grammar : Grammar} (hgrammar : grammar.Keeps bars barTicks) :
    grammar.barTicks = barTicks :=
  congrArg Grammar.barTicks hgrammar.reset

theorem Keeps.playable {grammar : Grammar} (hgrammar : grammar.Keeps bars barTicks) :
    isPlayable barTicks grammar.system.current = .ok true := by
  have hplayable := hgrammar.reads.playable_append barTicks.toNat_lt
    (fun l hl => hl.bounds barTicks.toNat_lt) []
  rw [List.append_nil, Pulse.playable, UInt32.ofNat_toNat] at hplayable
  exact hplayable

/-- What holds of the word that was reached, and of every rewriting of it that is accepted, holds of the
word after a step. -/
theorem WP.step_of_accepts {grammar : Grammar} (hrules : grammar.system.rules = rules)
    {good : Word → Prop} (hcurrent : good grammar.system.current)
    (haccept : ∀ w, grammar.system.Yields grammar.system.current w →
      isPlayable grammar.barTicks w = .ok false ∨
        isPlayable grammar.barTicks w = .ok true ∧ good w) (r : Rng) :
    Draw.WP allowed r grammar.step fun grown _ =>
      grown.reset = grammar.reset ∧ good grown.system.current := by
  refine .bind (.mono (WP.attempt (length_rules_lt hrules) haccept _ r) fun attempts _ _ hgood => ?_)
  refine .pure ⟨rfl, ?_⟩
  show good (attempts.accepted.getD grammar.system.current)
  cases haccepted : attempts.accepted with
  | none => exact hcurrent
  | some w => exact hgood w haccepted

theorem WP.step {grammar : Grammar} (h : isPowerOfTwo barTicks.toNat = true)
    (hgrammar : grammar.Keeps bars barTicks) (r : Rng) :
    Draw.WP allowed r grammar.step fun grown _ => grown.Keeps bars barTicks := by
  have haccept : ∀ w, grammar.system.Yields grammar.system.current w →
      isPlayable grammar.barTicks w = .ok false ∨
        isPlayable grammar.barTicks w = .ok true ∧ Reads (Within barTicks.toNat) ⟨barTicks.toNat, []⟩ w
          ⟨barTicks.toNat, []⟩ (bars.toNat * barTicks.toNat) ∧ Divided bars.toNat w := fun w hw => by
    obtain ⟨pieces, hpieces, rfl⟩ := refines_of_yields hgrammar.rules_eq hw
    have hrewrite := hgrammar.reads.rewrite barTicks.toNat_lt (within_self h) hpieces
    rw [Pulse.playable, UInt32.ofNat_toNat] at hrewrite
    rw [hgrammar.barTicks_eq]
    exact hrewrite.imp_right fun hplayable =>
      ⟨hplayable.1, hplayable.2, hgrammar.divided.rewrite hpieces⟩
  refine .mono (step_of_accepts hgrammar.rules_eq ⟨hgrammar.reads, hgrammar.divided⟩ haccept r) ?_
  exact fun grown _ _ ⟨hreset, hreads, hdivided⟩ => ⟨hreset.trans hgrammar.reset, hreads, hdivided⟩

theorem WP.stepTimes {grammar : Grammar} (h : isPowerOfTwo barTicks.toNat = true)
    (hgrammar : grammar.Keeps bars barTicks) (count : Nat) (r : Rng) :
    Draw.WP allowed r (grammar.stepTimes count) fun grown _ => grown.Keeps bars barTicks := by
  induction count generalizing grammar r with
  | zero => exact .pure hgrammar
  | succ count ih => exact .bind (.mono (step h hgrammar r) fun grown r' _ hgrown => ih hgrown r')

theorem WP.generate {grammar : Grammar} (h : isPowerOfTwo barTicks.toNat = true)
    (hgrammar : grammar.Keeps bars barTicks) (count : Nat) (r : Rng) :
    Draw.WP allowed r (grammar.generate count) fun (melody, grown) _ =>
      grown.Keeps bars barTicks ∧ melody = grown.system.current :=
  .bind (.mono (stepTimes h (hgrammar.restart h) count r) fun _ _ _ hgrown => .pure ⟨hgrown, rfl⟩)

end Grammar

/-! ## Grown melodies -/

/-- A melody fills `bars` bars of `barTicks` ticks: its brackets match; from the length of a bar on,
its note lengths are powers of two up to that length, halved exactly, and come back to it; and its
notes last as long as the bars. -/
structure FillsBars (bars barTicks : Nat) (melody : Word) : Prop where
  opened : ∀ u, u <+: melody → u.count ']' ≤ u.count '['
  closed : melody.count ']' = melody.count '['
  lengths : ∀ u, u <+: melody → ∃ p, Pulse.after ⟨barTicks, []⟩ u = some p ∧
    (∃ k, p.length = 2 ^ k) ∧ p.length ≤ barTicks
  halves : ∀ u, u ++ ['d'] <+: melody → ∃ p, Pulse.after ⟨barTicks, []⟩ u = some p ∧ 2 ∣ p.length
  home : Pulse.after ⟨barTicks, []⟩ melody = some ⟨barTicks, []⟩
  span : Pulse.span ⟨barTicks, []⟩ melody = bars * barTicks

theorem FillsBars.of_reads {bars barTicks : Nat} {melody : Word} (hbar : Within barTicks barTicks)
    (h : Reads (Within barTicks) ⟨barTicks, []⟩ melody ⟨barTicks, []⟩ (bars * barTicks)) :
    FillsBars bars barTicks melody where
  opened u hu := by
    obtain ⟨v, rfl⟩ := hu
    obtain ⟨p, m, k, hu, -, -⟩ := h.split
    have hsaved := hu.saved_length
    rw [List.length_nil] at hsaved
    omega
  closed := by
    have hsaved := h.saved_length
    omega
  lengths u hu := h.good_of_isPrefix hbar hu
  halves u hu := by
    obtain ⟨p, m, hread, hdvd⟩ := h.two_dvd_of_halve hbar (fun l hl => hl.1) hu
    exact ⟨p, hread.after_eq, hdvd⟩
  home := h.after_eq
  span := h.span_eq

/-- However often a melody of `bars` bars is rewritten and whatever is drawn, it is playable and
fills its bars. There is one from every state but that of zeros. -/
theorem Grammar.generate_fillsBars (bars barTicks : UInt32)
    (h : isPowerOfTwo barTicks.toNat = true) (count : Nat) (r : Rng) :
    Draw.WP (fun _ => False) r ((Grammar.ofBars bars barTicks).generate count) (fun (melody, _) _ =>
        isPlayable barTicks melody = .ok true ∧ FillsBars bars.toNat barTicks.toNat melody) ∧
      (r ≠ ⟨0, 0, 0, 0⟩ → ∃ melody grown r',
        ((Grammar.ofBars bars barTicks).generate count).run r = (.ok (melody, grown), r')) := by
  have hgrows : Draw.WP (fun _ => False) r ((Grammar.ofBars bars barTicks).generate count) _ :=
    WP.generate h (.start h) count r
  constructor
  · refine hgrows.mono fun ⟨melody, grown⟩ _ _ ⟨hgrown, hmelody⟩ => ?_
    cases hmelody
    exact ⟨hgrown.playable, .of_reads (within_self h) hgrown.reads⟩
  · intro hr
    obtain ⟨⟨melody, grown⟩, r', hrun⟩ := hgrows.exists_run_eq_ok (fun _ => id) hr
    exact ⟨melody, grown, r', hrun⟩

/-- Two bars of 32 ticks, rewritten seven times. -/
theorem Grammar.generate_fillsBars_two :
    isPowerOfTwo (32 : UInt32).toNat = true ∧ ∃ melody grown r',
      ((Grammar.ofBars 2 32).generate 7).run ⟨1, 2, 3, 4⟩ = (.ok (melody, grown), r') ∧
        isPlayable 32 melody = .ok true ∧ FillsBars 2 32 melody := by
  have h : isPowerOfTwo (32 : UInt32).toNat = true := by decide
  obtain ⟨hfills, hgives⟩ := Grammar.generate_fillsBars 2 32 h 7 ⟨1, 2, 3, 4⟩
  obtain ⟨melody, grown, r', hrun⟩ := hgives (by decide)
  exact ⟨h, melody, grown, r', hrun, (hfills.of_ok hrun).2⟩

end Chorale.Melody
