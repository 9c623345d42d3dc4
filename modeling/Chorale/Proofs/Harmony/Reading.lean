import Chorale.Proofs.Chord.Tones
import Chorale.Proofs.Harmony.Groups

/-!
# Reading and writing tokens

A group of letters is a token if it is the two digits of a number from 1 to 12 and one more letter
(`Numbers`, `parse?_eq_some_iff`). All groups of a progression are tokens, and then it is read as their
chords, or there is a first one that is none, which is told (`spells_or_first_bad`, `decode_of_spells`,
`decode_of_bad`).
Writing tokens and reading them again gives their chords (`parse?_letters`), and reading a group and
writing it again gives the group, with the letter of its quality (`text_of_parse?`).
-/

namespace Chorale.Harmony

/-! ## Tokens one after another -/

/-- All groups are tokens, or there is a first one that is none. -/
theorem spells_or_first_bad (gs : List Word) :
    (∃ tokens, List.Forall₂ Spells gs tokens) ∨
      ∃ front tokens bad back, gs = front ++ bad :: back ∧
        List.Forall₂ Spells front tokens ∧ Token.parse? bad = none := by
  induction gs with
  | nil => exact .inl ⟨[], .nil⟩
  | cons group rest ih =>
    cases htoken : Token.parse? group with
    | none => exact .inr ⟨[], [], group, rest, rfl, .nil, htoken⟩
    | some token =>
      rcases ih with ⟨tokens, h⟩ | ⟨front, tokens, bad, back, rfl, h, hbad⟩
      · exact .inl ⟨token :: tokens, .cons htoken h⟩
      · exact .inr ⟨group :: front, token :: tokens, bad, back, rfl, .cons htoken h, hbad⟩

/-! ## Numbers -/

theorem digit?_eq_some_iff {c : Char} {d : Nat} :
    digit? c = some d ↔ d < 10 ∧ c = Nat.digitChar d := by
  unfold digit?
  constructor
  · intro h
    split at h
    · rename_i hc
      have hlow : 48 ≤ c.toNat := UInt32.le_iff_toNat_le.1 hc.1
      have hhigh : c.toNat ≤ 57 := UInt32.le_iff_toNat_le.1 hc.2
      cases h
      have hlt : c.toNat - 48 < 10 := by omega
      refine ⟨hlt, Char.toNat_inj.1 ?_⟩
      show c.toNat = (Nat.digitChar (c.toNat - 48)).toNat
      rw [Nat.toNat_digitChar_of_lt_ten hlt]
      omega
    · cases h
  · rintro ⟨hlt, rfl⟩
    revert d
    decide

theorem twoDigits_eq {n : Nat} (h : n < 100) :
    twoDigits n = [Nat.digitChar (n / 10), Nat.digitChar (n % 10)] := by
  unfold twoDigits Word.ofNat
  split
  · rename_i hlt
    rw [Nat.toDigits_of_lt_base hlt, Nat.div_eq_of_lt hlt, Nat.mod_eq_of_lt hlt]
    rfl
  · rename_i hlt
    rw [Nat.toDigits_of_base_le (by decide) (by omega), Nat.toDigits_of_lt_base (by omega)]
    rfl

/-- The group is the two decimal digits of a number from 1 to 12 and the letter `c`. -/
structure Numbers (group : Word) (number : Nat) (c : Char) : Prop where
  pos : 1 ≤ number
  le : number ≤ 12
  eq : group = [Nat.digitChar (number / 10), Nat.digitChar (number % 10), c]

/-- The group is a token of some number. -/
def IsToken (group : Word) : Prop := ∃ number c, Numbers group number c

theorem parse?_eq_some_iff {group : Word} {token : Token} :
    Token.parse? group = some token ↔
      ∃ number c, Numbers group number c ∧ token = ⟨UInt8.ofNat (number - 1), .ofLetter c⟩ := by
  constructor
  · intro h
    match group, h with
    | [tens, ones, c], h =>
      simp only [Token.parse?, Option.bind_eq_bind, Option.bind_eq_some_iff] at h
      obtain ⟨t, htens, o, hones, h⟩ := h
      obtain ⟨-, rfl⟩ := digit?_eq_some_iff.1 htens
      obtain ⟨ho, rfl⟩ := digit?_eq_some_iff.1 hones
      split at h
      · rename_i hnumber
        cases h
        refine ⟨10 * t + o, c, ⟨hnumber.1, hnumber.2, ?_⟩, rfl⟩
        rw [Nat.mul_add_div (by decide), Nat.div_eq_of_lt ho, Nat.mul_add_mod, Nat.mod_eq_of_lt ho]
        rfl
      · cases h
  · rintro ⟨number, c, ⟨hpos, hle, rfl⟩, rfl⟩
    have htens : digit? (Nat.digitChar (number / 10)) = some (number / 10) :=
      digit?_eq_some_iff.2 ⟨by omega, rfl⟩
    have hones : digit? (Nat.digitChar (number % 10)) = some (number % 10) :=
      digit?_eq_some_iff.2 ⟨by omega, rfl⟩
    have hnumber : 10 * (number / 10) + number % 10 = number := Nat.div_add_mod ..
    simp [Token.parse?, htens, hones, hnumber, hpos, hle]

theorem parse?_eq_none_iff {group : Word} : Token.parse? group = none ↔ ¬ IsToken group := by
  constructor
  · rintro hnone ⟨number, c, hnumbers⟩
    have hparse := parse?_eq_some_iff.2 ⟨number, c, hnumbers, rfl⟩
    cases hnone.symm.trans hparse
  · intro h
    cases hparse : Token.parse? group with
    | none => rfl
    | some token =>
      obtain ⟨number, c, hnumbers, -⟩ := parse?_eq_some_iff.1 hparse
      exact absurd ⟨number, c, hnumbers⟩ h

theorem toNat_degree {number : Nat} (h : number ≤ 12) :
    (UInt8.ofNat (number - 1)).toNat = number - 1 :=
  UInt8.toNat_ofNat_of_lt' (by show number - 1 < 256; omega)

/-- The chord on the root whose number the group is, counted from 1 on the tonic, and major if the
group ends in the letter for it. -/
def Means (tonic : PitchClass) (group : Word) (chord : Chord) : Prop :=
  ∃ number c, Numbers group number c ∧ chord.root.height = (tonic.height + (number - 1)) % 12 ∧
    (chord.quality = .major ↔ c = 'M')

theorem means_of_spells (tonic : PitchClass) {group : Word} {token : Token} (h : Spells group token) :
    Means tonic group (token.chord tonic) := by
  obtain ⟨number, c, hnumbers, rfl⟩ := parse?_eq_some_iff.1 h
  have hpos := hnumbers.pos
  refine ⟨number, c, hnumbers, ?_, ?_⟩
  · simp only [Token.chord, PitchClass.above, PitchClass.height_ofInt, toNat_degree hnumbers.le]
    omega
  · simp [Token.chord, Quality.ofLetter]

/-! ## Writing tokens -/

theorem ofLetter_letter (quality : Quality) : Quality.ofLetter quality.letter = quality := by
  cases quality <;> rfl

theorem letter_ofLetter (c : Char) : (Quality.ofLetter c).letter = if c = 'M' then 'M' else 'm' := by
  unfold Quality.ofLetter
  split <;> rfl

/-- The letters of a token whose number has two digits. -/
def Token.letters (token : Token) : Word :=
  [Nat.digitChar ((token.degree.toNat + 1) / 10), Nat.digitChar ((token.degree.toNat + 1) % 10),
    token.quality.letter]

theorem text_eq {token : Token} (h : token.degree.toNat < 99) : token.text = .ok token.letters := by
  have hnumber : (token.degree + 1).toNat = token.degree.toNat + 1 := by
    rw [UInt8.toNat_add]
    exact Nat.mod_eq_of_lt (by show token.degree.toNat + 1 < 256; omega)
  have hadd : Checked.add token.degree 1 = .ok (token.degree + 1) := by
    rw [Checked.add_eq_ok_iff]
    show ((token.degree + 1).toNat : Int) = token.degree.toNat + 1
    omega
  rw [Token.text, Token.label, hadd]
  show Except.ok (twoDigits (token.degree + 1).toNat ++ [token.quality.letter]) = _
  rw [hnumber, twoDigits_eq (by omega)]
  rfl

theorem mapM_text {tokens : List Token} (h : ∀ token ∈ tokens, token.degree.toNat < 99) :
    tokens.mapM Token.text = .ok (tokens.map Token.letters) := by
  induction tokens with
  | nil => rfl
  | cons token tokens ih =>
    rw [List.mapM_cons, text_eq (h token List.mem_cons_self),
      ih fun token' hmem => h token' (List.mem_cons_of_mem _ hmem)]
    rfl

theorem parse?_letters {token : Token} (h : token.degree ≤ 11) :
    Token.parse? token.letters = some token := by
  have hle : token.degree.toNat ≤ 11 := UInt8.le_iff_toNat_le.1 h
  refine parse?_eq_some_iff.2 ⟨token.degree.toNat + 1, token.quality.letter, ⟨?_, ?_, rfl⟩, ?_⟩
  · omega
  · omega
  · rw [Nat.add_sub_cancel, UInt8.ofNat_toNat, ofLetter_letter]

/-- A group that was read is written again, with the letter of the quality that was understood. -/
theorem text_of_parse? {group : Word} {token : Token} (h : Token.parse? group = some token) :
    ∃ tens ones c, group = [tens, ones, c] ∧
      token.text = .ok [tens, ones, if c = 'M' then 'M' else 'm'] := by
  obtain ⟨number, c, ⟨hpos, hle, rfl⟩, rfl⟩ := parse?_eq_some_iff.1 h
  have hdegree := toNat_degree hle
  refine ⟨_, _, c, rfl, ?_⟩
  rw [text_eq (by rw [hdegree]; omega), Token.letters, hdegree, Nat.sub_add_cancel hpos,
    letter_ofLetter]

theorem parse?_map_letters {tokens : List Token} (h : ∀ token ∈ tokens, token.degree ≤ 11) :
    List.Forall₂ Spells (tokens.map Token.letters) tokens := by
  rw [List.forall₂_map_left_iff, List.forall₂_same]
  exact fun token hmem => parse?_letters (h token hmem)

/-! ## Progressions -/

variable {tonic : PitchClass} {w : Word}

theorem decode_of_spells {tokens : List Token} (h : List.Forall₂ Spells (groups w) tokens) :
    decode tonic w = .ok (tokens.map (·.chord tonic)) := by
  rw [decode, decodeFrom_eq, ← List.append_nil (groups w), decodeGroups_append h]
  show Except.ok (tokens.map (·.chord tonic) ++ []) = _
  rw [List.append_nil]

theorem decode_of_bad {front back : List Word} {bad : Word} {tokens : List Token}
    (hw : groups w = front ++ bad :: back) (h : List.Forall₂ Spells front tokens)
    (hbad : Token.parse? bad = none) :
    decode tonic w = .error (.malformedToken (3 * front.length) bad) := by
  rw [decode, decodeFrom_eq, hw, decodeGroups_append h, decodeGroups, hbad, Nat.zero_add]
  rfl

theorem isToken_of_spells {gs : List Word} {tokens : List Token} (h : List.Forall₂ Spells gs tokens) :
    ∀ group ∈ gs, IsToken group := by
  induction h with
  | nil => exact fun group hmem => absurd hmem List.not_mem_nil
  | cons htoken _ ih =>
    obtain ⟨number, c, hnumbers, -⟩ := parse?_eq_some_iff.1 htoken
    exact List.forall_mem_cons.2 ⟨⟨number, c, hnumbers⟩, ih⟩

/-- A progression is read just if it is made of groups of three letters that all are tokens. -/
theorem exists_decode_iff :
    (∃ chords, decode tonic w = .ok chords) ↔ 3 ∣ w.length ∧ ∀ group ∈ groups w, IsToken group := by
  rcases spells_or_first_bad (groups w) with ⟨tokens, h⟩ | ⟨front, tokens, bad, back, hw, h, hbad⟩
  · have hnumbers := isToken_of_spells h
    have hthree : ∀ group ∈ groups w, group.length = 3 := by
      intro group hmem
      obtain ⟨number, c, hgroup⟩ := hnumbers group hmem
      rw [hgroup.eq]
      rfl
    exact iff_of_true ⟨_, decode_of_spells h⟩ ⟨⟨_, length_eq_of_groups hthree⟩, hnumbers⟩
  · refine iff_of_false ?_ ?_
    · rintro ⟨chords, hchords⟩
      cases (decode_of_bad hw h hbad).symm.trans hchords
    · rintro ⟨-, htokens⟩
      have hmem : bad ∈ groups w := hw ▸ List.mem_append_right _ List.mem_cons_self
      exact parse?_eq_none_iff.1 hbad (htokens bad hmem)

/-- A progression is read group by group, in groups of three letters: each has to be two digits for a
number from 1 to 12, which says how far the root of a chord lies above the tonic, and a letter, which
says whether the chord is major. Otherwise the first group that is not so is told, with its place. What
is written for tokens is read as their chords, and what is written for a token that was read is what
was read, but for the letter of a minor chord. -/
theorem decode_readsGroups (tonic : PitchClass) (w : Word) :
    ((∃ chords, decode tonic w = .ok chords) ↔
      3 ∣ w.length ∧ ∀ group ∈ groups w, IsToken group) ∧
    (∀ chords, decode tonic w = .ok chords → List.Forall₂ (Means tonic) (groups w) chords) ∧
    (∀ e, decode tonic w = .error e →
      ∃ front bad back, groups w = front ++ bad :: back ∧
        (∀ group ∈ front, IsToken group) ∧ ¬ IsToken bad ∧
          e = .malformedToken (3 * front.length) bad) ∧
    (∀ tokens : List Token, (∀ token ∈ tokens, token.degree ≤ 11) →
      ∃ texts, tokens.mapM Token.text = .ok texts ∧
        decode tonic texts.flatten = .ok (tokens.map (·.chord tonic))) ∧
    ∀ group token, Token.parse? group = some token → ∃ tens ones c,
      group = [tens, ones, c] ∧ token.text = .ok [tens, ones, if c = 'M' then 'M' else 'm'] := by
  refine ⟨exists_decode_iff, fun chords hchords => ?_, fun e he => ?_, fun tokens htokens => ?_,
    fun group token => text_of_parse?⟩
  · rcases spells_or_first_bad (groups w) with ⟨tokens, h⟩ | ⟨_, _, _, _, hw, h, hbad⟩
    · cases (decode_of_spells h).symm.trans hchords
      rw [List.forall₂_map_right_iff]
      exact h.imp fun group token => means_of_spells tonic
    · cases (decode_of_bad hw h hbad).symm.trans hchords
  · rcases spells_or_first_bad (groups w) with ⟨tokens, h⟩ | ⟨front, tokens, bad, back, hw, h, hbad⟩
    · cases (decode_of_spells h).symm.trans he
    · cases (decode_of_bad hw h hbad).symm.trans he
      exact ⟨front, bad, back, hw, isToken_of_spells h, parse?_eq_none_iff.1 hbad, rfl⟩
  · have hsmall : ∀ token ∈ tokens, token.degree.toNat < 99 := by
      intro token hmem
      have := UInt8.le_iff_toNat_le.1 (htokens token hmem)
      exact Nat.lt_of_le_of_lt this (by decide)
    have hgroups : groups (tokens.map Token.letters).flatten = tokens.map Token.letters :=
      groups_flatten (by simp [Token.letters])
    refine ⟨_, mapM_text hsmall, decode_of_spells ?_⟩
    rw [hgroups]
    exact parse?_map_letters htokens

/-- A letter that is neither of the two for qualities, a number beyond the scale, and a group that is
too short. -/
theorem decode_readsGroups_garbled :
    (decode ⟨10⟩ "08M12x".toList = .ok [⟨⟨5⟩, .major⟩, ⟨⟨9⟩, .minor⟩] ∧
      List.Forall₂ (Means ⟨10⟩) (groups "08M12x".toList) [⟨⟨5⟩, .major⟩, ⟨⟨9⟩, .minor⟩]) ∧
    (decode ⟨0⟩ "01M13M".toList = .error (.malformedToken 3 "13M".toList) ∧
      ¬ IsToken "13M".toList) ∧
    (decode ⟨0⟩ "01".toList = .error (.malformedToken 0 "01".toList) ∧ ¬ IsToken "01".toList) ∧
    ((∀ token ∈ [(⟨11, .minor⟩ : Token), ⟨0, .major⟩], token.degree ≤ 11) ∧
      ∃ texts, [(⟨11, .minor⟩ : Token), ⟨0, .major⟩].mapM Token.text = .ok texts ∧
        decode ⟨10⟩ texts.flatten = .ok [⟨⟨9⟩, .minor⟩, ⟨⟨10⟩, .major⟩]) ∧
    Token.parse? "12x".toList = some ⟨11, .minor⟩ ∧ ∃ tens ones c,
      "12x".toList = [tens, ones, c] ∧
        Token.text ⟨11, .minor⟩ = .ok [tens, ones, if c = 'M' then 'M' else 'm'] := by
  have hread : decode ⟨10⟩ "08M12x".toList = .ok [⟨⟨5⟩, .major⟩, ⟨⟨9⟩, .minor⟩] := rfl
  have hbeyond : decode ⟨0⟩ "01M13M".toList = .error (.malformedToken 3 "13M".toList) := rfl
  have hshort : decode ⟨0⟩ "01".toList = .error (.malformedToken 0 "01".toList) := rfl
  have hdegrees : ∀ token ∈ [(⟨11, .minor⟩ : Token), ⟨0, .major⟩], token.degree ≤ 11 := by decide
  have hparse : Token.parse? "12x".toList = some ⟨11, .minor⟩ := rfl
  obtain ⟨-, hmeans, -, hwritten, hwrites⟩ := decode_readsGroups ⟨10⟩ "08M12x".toList
  obtain ⟨-, -, hbad, -⟩ := decode_readsGroups ⟨0⟩ "01M13M".toList
  obtain ⟨-, -, hbad', -⟩ := decode_readsGroups ⟨0⟩ "01".toList
  obtain ⟨_, bad, _, -, -, hnone, heq⟩ := hbad _ hbeyond
  obtain ⟨_, bad', _, -, -, hnone', heq'⟩ := hbad' _ hshort
  obtain ⟨-, rfl⟩ := Failure.malformedToken.inj heq
  obtain ⟨-, rfl⟩ := Failure.malformedToken.inj heq'
  exact ⟨⟨hread, hmeans _ hread⟩, ⟨hbeyond, hnone⟩, ⟨hshort, hnone'⟩,
    ⟨hdegrees, hwritten _ hdegrees⟩, hparse, hwrites _ _ hparse⟩

end Chorale.Harmony
