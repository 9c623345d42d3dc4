import Chorale.Json.Value

/-!
# Tokens of a JSON text

`Token.lex` divides a text into tokens, by the letter of the standard (RFC 8259): there are no
comments, strings hold no control characters and only the known escapes, and numbers are written in
one grammar. A character beyond the first 65536 may be escaped as a pair of surrogates; a surrogate
without its partner is an escape for no character.
-/

namespace Chorale.Json

/-! ## Strings -/

/-- The value of a hexadecimal digit. -/
def hexDigit? (c : Char) : Option Nat :=
  if '0' ≤ c ∧ c ≤ '9' then some (c.toNat - '0'.toNat)
  else if 'a' ≤ c ∧ c ≤ 'f' then some (c.toNat - 'a'.toNat + 10)
  else if 'A' ≤ c ∧ c ≤ 'F' then some (c.toNat - 'A'.toNat + 10)
  else none

/-- The number that four hexadecimal digits stand for. -/
def hexNumber? (a b c d : Char) : Option Nat := do
  let a ← hexDigit? a
  let b ← hexDigit? b
  let c ← hexDigit? c
  let d ← hexDigit? d
  pure (((a * 16 + b) * 16 + c) * 16 + d)

/-- The character that an escape of one letter stands for. -/
def shortEscape? (letter : Char) : Option Char :=
  if letter = '/' then some '/'
  else (shortEscapes.find? (·.2 = letter)).map (·.1)

/-- The code points of a string after its opening quote, and what follows its closing quote. -/
def readCodes : Word → Option (List Nat × Word)
  | [] => none
  | c :: rest =>
    if c = '"' then some ([], rest)
    else if c = '\\' then
      match rest with
      | 'u' :: h₁ :: h₂ :: h₃ :: h₄ :: rest => do
        let code ← hexNumber? h₁ h₂ h₃ h₄
        let (codes, after) ← readCodes rest
        pure (code :: codes, after)
      | letter :: rest => do
        let c ← shortEscape? letter
        let (codes, after) ← readCodes rest
        pure (c.toNat :: codes, after)
      | [] => none
    else if c.toNat < 0x20 then none
    else do
      let (codes, after) ← readCodes rest
      pure (c.toNat :: codes, after)

/-- Whether the code point is the first of a pair of surrogates. -/
def isHighSurrogate (code : Nat) : Bool := 0xd800 ≤ code && code < 0xdc00

/-- Whether the code point is the second of a pair of surrogates. -/
def isLowSurrogate (code : Nat) : Bool := 0xdc00 ≤ code && code < 0xe000

/-- The text that code points stand for, with surrogates taken in pairs. -/
def textOfCodes : List Nat → Option Word
  | [] => some []
  | code :: rest =>
    if isHighSurrogate code then
      match rest with
      | low :: rest =>
        if isLowSurrogate low then do
          let text ← textOfCodes rest
          pure (Char.ofNat (0x10000 + (code - 0xd800) * 0x400 + (low - 0xdc00)) :: text)
        else none
      | [] => none
    else if isLowSurrogate code then none
    else do
      let text ← textOfCodes rest
      pure (Char.ofNat code :: text)

/-- Reading a string leaves less of the text. -/
theorem length_of_readCodes {w after : Word} {codes : List Nat}
    (h : readCodes w = some (codes, after)) : after.length < w.length := by
  fun_induction readCodes w generalizing codes after with
  | case1 => simp at h
  | case2 => simp_all
  | case3 _ _ _ _ _ rest ih =>
    simp only [bind, Option.bind_eq_some_iff, pure, Option.some.injEq, Prod.mk.injEq] at h
    obtain ⟨code, -, ⟨codes', after'⟩, hr, -, rfl⟩ := h
    have := ih hr
    simp only [List.length_cons] at *
    omega
  | case4 _ _ letter rest ih =>
    simp only [bind, Option.bind_eq_some_iff, pure, Option.some.injEq, Prod.mk.injEq] at h
    obtain ⟨_, -, ⟨codes', after'⟩, hr, -, rfl⟩ := h
    have := ih hr
    simp only [List.length_cons] at *
    omega
  | case5 => simp at h
  | case6 => simp at h
  | case7 c rest _ _ _ ih =>
    simp only [bind, Option.bind_eq_some_iff, pure, Option.some.injEq, Prod.mk.injEq] at h
    obtain ⟨⟨codes', after'⟩, hr, -, rfl⟩ := h
    have := ih hr
    simp only [List.length_cons] at *
    omega

/-! ## Numbers and names -/

/-- Whether the word consists of digits, at least one. -/
def isDigits (w : Word) : Bool := !w.isEmpty && w.all Char.isDigit

/-- The word without a sign in front. -/
def dropSign : Word → Word
  | '+' :: rest => rest
  | '-' :: rest => rest
  | w => w

/-- Whether the word is the exponent of a number, or nothing. -/
def isExponent : Word → Bool
  | [] => true
  | c :: rest => (c = 'e' ∨ c = 'E') && isDigits (dropSign rest)

/-- Whether the word is what may follow the integer part of a number. -/
def isFraction : Word → Bool
  | '.' :: rest =>
    isDigits (rest.takeWhile Char.isDigit) && isExponent (rest.dropWhile Char.isDigit)
  | w => isExponent w

/-- The value of a number with the given digits in front of the rest. -/
def number? (negative : Bool) (digits rest : Word) : Option Json :=
  if isDigits digits ∧ (digits.head? ≠ some '0' ∨ digits = ['0']) ∧ isFraction rest then
    let value := Nat.ofDigitChars 10 digits 0
    if rest = [] ∧ ¬(negative ∧ value = 0) then
      some (.integer (if negative then -value else value))
    else some .other
  else none

/-- The value of a word that is neither a string nor punctuation. -/
def atom? (w : Word) : Option Json :=
  if w = "null".toList then some .null
  else if w = "true".toList then some (.bool true)
  else if w = "false".toList then some (.bool false)
  else match w with
    | '-' :: rest => number? true (rest.takeWhile Char.isDigit) (rest.dropWhile Char.isDigit)
    | w => number? false (w.takeWhile Char.isDigit) (w.dropWhile Char.isDigit)

/-- Whether the character belongs to a word that is neither a string nor punctuation. -/
def isBare (c : Char) : Bool := !isSpace c && (punctuation? c).isNone && c != '"'

/-! ## Texts -/

/-- The tokens of a text, if it has no others. -/
def Token.lex : Word → Option (List Token)
  | [] => some []
  | c :: rest =>
    if isSpace c then lex rest
    else if c = '"' then
      match _ : readCodes rest with
      | none => none
      | some (codes, after) => do
        let tokens ← lex after
        pure (.text (textOfCodes codes) :: tokens)
    else
      match punctuation? c with
      | some token => do
        let tokens ← lex rest
        pure (token :: tokens)
      | none => do
        let value ← atom? (c :: rest.takeWhile isBare)
        let tokens ← lex (rest.dropWhile isBare)
        pure (.atom value :: tokens)
termination_by w => w.length
decreasing_by
  · simp
  · have := length_of_readCodes ‹_›
    simp only [List.length_cons]
    omega
  · simp
  · have := (List.dropWhile_suffix isBare (l := rest)).length_le
    simp only [List.length_cons]
    omega

end Chorale.Json
