import Chorale.Json.Lexer
import Chorale.Json.Writer

/-!
# Strings and atoms are read as they were written

Whatever characters a string has, the text written for it is read as the string, and what follows its
closing quote is left (`readCodes_flatMap_escape`, `textOfCodes_map_toNat`). The word written for a
value without parts is a word of bare characters, which do not end it (`isBare_of_mem_writeAtom`), and
stands for the value (`atom?_writeAtom`): the digits of a number have no zero in front.
-/

namespace Chorale.Json

/-! ## Strings -/

theorem hexNumber?_digitChar {n : Nat} (h : n < 0x20) :
    hexNumber? '0' '0' (Nat.digitChar (n / 16)) (Nat.digitChar (n % 16)) = some n := by
  have hall : ∀ n : Fin 0x20,
      hexNumber? '0' '0' (Nat.digitChar (n.val / 16)) (Nat.digitChar (n.val % 16)) =
        some n.val := by
    decide
  exact hall ⟨n, h⟩

/-- The characters with an escape of one letter: it stands for them, and is none of those that begin
an escape by number. -/
theorem shortEscapes_read : ∀ pair ∈ shortEscapes,
    pair.2 ≠ 'u' ∧ shortEscape? pair.2 = some pair.1 := by
  decide

theorem readCodes_short {letter c : Char} (hletter : letter ≠ 'u')
    (h : shortEscape? letter = some c) (rest : Word) :
    readCodes ('\\' :: letter :: rest) =
      (readCodes rest).map fun read => (c.toNat :: read.1, read.2) := by
  rw [readCodes, if_neg (by decide), if_pos rfl]
  · simp only [h]
    cases readCodes rest <;> rfl
  · intro h₁ h₂ h₃ h₄ rest hu
    exact absurd hu hletter

theorem readCodes_numbered {c : Char} (h : c.toNat < 0x20) (rest : Word) :
    readCodes ('\\' :: 'u' :: '0' :: '0' :: Nat.digitChar (c.toNat / 16) ::
        Nat.digitChar (c.toNat % 16) :: rest) =
      (readCodes rest).map fun read => (c.toNat :: read.1, read.2) := by
  rw [readCodes.eq_def]
  simp only [if_neg (show '\\' ≠ '"' by decide), if_true, hexNumber?_digitChar h]
  cases readCodes rest <;> rfl

theorem readCodes_plain {c : Char} (hquote : c ≠ '"') (hbackslash : c ≠ '\\')
    (h : ¬c.toNat < 0x20) (rest : Word) :
    readCodes (c :: rest) = (readCodes rest).map fun read => (c.toNat :: read.1, read.2) := by
  rw [readCodes.eq_def]
  simp only [if_neg hquote, if_neg hbackslash, if_neg h]
  cases readCodes rest <;> rfl

/-- A character is read from its escape. -/
theorem readCodes_escape (c : Char) (rest : Word) :
    readCodes (escape c ++ rest) =
      (readCodes rest).map fun read => (c.toNat :: read.1, read.2) := by
  rw [escape]
  split
  · rename_i c' letter hfind
    have hmem := List.mem_of_find?_eq_some hfind
    have hc : c' = c := by simpa using List.find?_some hfind
    obtain ⟨hletter, hshort⟩ := shortEscapes_read _ hmem
    exact readCodes_short hletter (hc ▸ hshort) rest
  · rename_i hnone
    have hother (pair : Char × Char) (hmem : pair ∈ shortEscapes) : c ≠ pair.1 := by
      have := List.find?_eq_none.1 hnone pair hmem
      simpa [eq_comm] using this
    split
    · rename_i hcontrol
      exact readCodes_numbered hcontrol rest
    · rename_i hcontrol
      exact readCodes_plain (hother ('"', '"') (by decide)) (hother ('\\', '\\') (by decide))
        hcontrol rest

/-- A string is read up to its closing quote. -/
theorem readCodes_flatMap_escape (text after : Word) :
    readCodes (text.flatMap escape ++ '"' :: after) = some (text.map Char.toNat, after) := by
  induction text with
  | nil =>
    show readCodes ('"' :: after) = _
    rw [readCodes.eq_def]
    rfl
  | cons c text ih =>
    rw [List.flatMap_cons, List.append_assoc, readCodes_escape, ih]
    rfl

/-- No character is a surrogate. -/
theorem not_surrogate (c : Char) :
    isHighSurrogate c.toNat = false ∧ isLowSurrogate c.toNat = false := by
  have hvalid : c.toNat < 0xd800 ∨ 0xdfff < c.toNat ∧ c.toNat < 0x110000 := c.valid
  simp only [isHighSurrogate, isLowSurrogate, Bool.and_eq_false_iff, decide_eq_false_iff_not]
  omega

theorem textOfCodes_map_toNat (text : Word) : textOfCodes (text.map Char.toNat) = some text := by
  induction text with
  | nil => rfl
  | cons c text ih =>
    obtain ⟨hhigh, hlow⟩ := not_surrogate c
    rw [List.map_cons, textOfCodes.eq_def]
    simp only [hhigh, hlow, ih, Char.ofNat_toNat]
    rfl

/-! ## Numbers -/

theorem isDigit_of_mem_ofNat {c : Char} {n : Nat} (h : c ∈ Word.ofNat n) : c.isDigit = true :=
  Nat.isDigit_of_mem_toDigits (by decide) (by decide) h

theorem isDigits_ofNat (n : Nat) : isDigits (Word.ofNat n) = true := by
  rw [isDigits, Bool.and_eq_true, List.all_eq_true]
  refine ⟨?_, fun c => isDigit_of_mem_ofNat⟩
  simp [Word.ofNat, Nat.toDigits_ne_nil]

/-- Only zero is written with a zero in front. -/
theorem head?_ofNat (n : Nat) : (Word.ofNat n).head? ≠ some '0' ∨ Word.ofNat n = ['0'] := by
  induction n using Nat.strongRecOn with
  | ind n ih =>
    by_cases hlt : n < 10
    · have hall : ∀ n : Fin 10, [Nat.digitChar n.val].head? ≠ some '0' ∨
          [Nat.digitChar n.val] = ['0'] := by
        decide
      rw [Word.ofNat, Nat.toDigits_of_lt_base hlt]
      exact hall ⟨n, hlt⟩
    · have hten : Word.ofNat n = Word.ofNat (n / 10) ++ [Nat.digitChar (n % 10)] :=
        Nat.toDigits_of_base_le (by decide) (by omega)
      have hhead : (Word.ofNat n).head? = (Word.ofNat (n / 10)).head? := by
        obtain ⟨c, rest, hcons⟩ := List.exists_cons_of_ne_nil
          (show Word.ofNat (n / 10) ≠ [] from Nat.toDigits_ne_nil)
        rw [hten, hcons]
        rfl
      rcases ih (n / 10) (by omega) with hne | hzero
      · exact .inl (hhead ▸ hne)
      · -- The digits before the last one would be those of zero.
        have hvalue : n / 10 = 0 := by
          rw [← Nat.ofDigitChars_ten_toDigits (n := n / 10)]
          exact congrArg (Nat.ofDigitChars 10 · 0) hzero
        omega

theorem number?_ofNat (negative : Bool) (n : Nat) :
    number? negative (Word.ofNat n) [] =
      some (if negative = true ∧ n = 0 then .other
        else .integer (if negative then -n else n)) := by
  have hvalue : Nat.ofDigitChars 10 (Word.ofNat n) 0 = n := Nat.ofDigitChars_ten_toDigits
  rw [number?, if_pos ⟨isDigits_ofNat n, head?_ofNat n, rfl⟩]
  simp only [hvalue]
  by_cases hzero : negative = true ∧ n = 0 <;> simp [hzero]

theorem takeWhile_ofNat (n : Nat) : (Word.ofNat n).takeWhile Char.isDigit = Word.ofNat n := by
  have hdigits : ∀ c ∈ Word.ofNat n, c.isDigit = true := fun _ => isDigit_of_mem_ofNat
  rw [← List.append_nil (Word.ofNat n), List.takeWhile_append_of_pos hdigits]
  rfl

theorem dropWhile_ofNat (n : Nat) : (Word.ofNat n).dropWhile Char.isDigit = [] := by
  have hdigits : ∀ c ∈ Word.ofNat n, c.isDigit = true := fun _ => isDigit_of_mem_ofNat
  rw [← List.append_nil (Word.ofNat n), List.dropWhile_append_of_pos hdigits]
  rfl

/-! ## Atoms -/

/-- Whether the value is neither a string nor composed of other values. -/
def IsAtom : Json → Prop
  | .null | .bool _ | .integer _ | .other => True
  | .string _ | .array _ | .object _ => False

theorem atom?_ofNat (n : Nat) : atom? (Word.ofNat n) = some (.integer n) := by
  have hall : (Word.ofNat n).all Char.isDigit = true :=
    List.all_eq_true.2 fun _ => isDigit_of_mem_ofNat
  have hname (w : Word) (hw : w.all Char.isDigit = false) : Word.ofNat n ≠ w := by
    intro heq
    rw [heq, hw] at hall
    cases hall
  rw [atom?, if_neg (hname _ (by decide)), if_neg (hname _ (by decide)),
    if_neg (hname _ (by decide)), takeWhile_ofNat, dropWhile_ofNat, number?_ofNat]
  · rfl
  · intro rest
    exact hname _ rfl

theorem atom?_minus (n : Nat) :
    atom? ('-' :: Word.ofNat n) = some (if n = 0 then .other else .integer (-n)) := by
  have hname (w : Word) (hw : w.head? ≠ some '-') : '-' :: Word.ofNat n ≠ w := by
    rintro rfl
    exact hw rfl
  rw [atom?, if_neg (hname _ (by decide)), if_neg (hname _ (by decide)),
    if_neg (hname _ (by decide)), takeWhile_ofNat, dropWhile_ofNat, number?_ofNat]
  simp only [true_and, if_true]

/-- The word written for an atom stands for it. -/
theorem atom?_writeAtom {value : Json} (h : value.IsAtom) :
    atom? (writeAtom value) = some value := by
  cases value with
  | null => rfl
  | bool value => cases value <;> rfl
  | integer value =>
    cases value with
    | ofNat n => exact atom?_ofNat n
    | negSucc n => exact atom?_minus (n + 1)
  | other => exact atom?_minus 0
  | string text => cases h
  | array items => cases h
  | object fields => cases h

theorem isBare_of_isDigit {c : Char} (h : c.isDigit = true) : isBare c = true := by
  have hall : ∀ n : Fin 58, '0'.toNat ≤ n.val → isBare (Char.ofNat n.val) = true := by decide
  obtain ⟨hle, hge⟩ := Char.isDigit_iff_toNat.1 h
  rw [← Char.ofNat_toNat c]
  exact hall ⟨c.toNat, Nat.lt_succ_of_le hge⟩ hle

/-- No character of the word written for an atom ends it. -/
theorem isBare_of_mem_writeAtom (value : Json) : ∀ c ∈ writeAtom value, isBare c = true := by
  have hdigits (n : Nat) : ∀ c ∈ Word.ofNat n, isBare c = true :=
    fun c hc => isBare_of_isDigit (isDigit_of_mem_ofNat hc)
  cases value with
  | null => exact List.all_eq_true.1 (by decide)
  | bool value => cases value <;> exact List.all_eq_true.1 (by decide)
  | integer value =>
    cases value with
    | ofNat n => exact hdigits n
    | negSucc n => exact List.forall_mem_cons.2 ⟨by decide, hdigits (n + 1)⟩
  | _ =>
    have hall : "-0".toList.all isBare = true := by decide
    exact List.all_eq_true.1 hall

theorem writeAtom_ne_nil {value : Json} (h : value.IsAtom) : writeAtom value ≠ [] := by
  intro hnil
  have hnone : atom? [] = some value := hnil ▸ atom?_writeAtom h
  cases hnone

end Chorale.Json
