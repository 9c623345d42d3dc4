import Chorale.Json.Reader
import Chorale.Proofs.Json.Words

/-!
# A written value is read as itself

The text written for a value is divided into the tokens that it was written from (`lex_tokens`), as a
word among them is followed by punctuation or by nothing. The automaton that reads tokens, begun
wherever a value may stand, completes the value with the last token of it (`run_tokens`). So any value
is read from its text (`read_write`).
-/

namespace Chorale.Json

/-! ## The tokens of a text -/

/-- Whether a word that stands before the text ends there. -/
def EndsWord (rest : Word) : Prop := ∀ c ∈ rest.head?, isBare c = false

theorem endsWord_nil : EndsWord [] := by
  intro c hc
  cases hc

theorem endsWord_cons {c : Char} (h : isBare c = false) (rest : Word) : EndsWord (c :: rest) := by
  intro c' hc'
  cases hc'
  exact h

theorem EndsWord.takeWhile {rest : Word} (h : EndsWord rest) : rest.takeWhile isBare = [] := by
  cases rest with
  | nil => rfl
  | cons c rest => rw [List.takeWhile_cons, if_neg (by simp [h c rfl])]

theorem EndsWord.dropWhile {rest : Word} (h : EndsWord rest) : rest.dropWhile isBare = rest := by
  cases rest with
  | nil => rfl
  | cons c rest => rw [List.dropWhile_cons, if_neg (by simp [h c rfl])]

theorem lex_punctuation {c : Char} (token : Token) (h : punctuation? c = some token) (rest : Word) :
    Token.lex (c :: rest) = (Token.lex rest).map (token :: ·) := by
  have hspace : isSpace c = false := by
    unfold punctuation? at h
    split at h <;> first | decide | cases h
  have hquote : c ≠ '"' := by
    rintro rfl
    cases h
  rw [Token.lex, if_neg (by simp [hspace]), if_neg hquote]
  simp only [h]
  cases Token.lex rest <;> rfl

theorem lex_quote (text rest : Word) :
    Token.lex (quote text ++ rest) = (Token.lex rest).map (.text (some text) :: ·) := by
  have hread : readCodes (text.flatMap escape ++ ['"'] ++ rest) =
      some (text.map Char.toNat, rest) := by
    rw [List.append_assoc]
    exact readCodes_flatMap_escape text rest
  show Token.lex ('"' :: (text.flatMap escape ++ ['"'] ++ rest)) = _
  rw [Token.lex, if_neg (by decide), if_pos rfl]
  split
  · rename_i hnone
    cases hread.symm.trans hnone
  · rename_i codes after hsome
    cases hread.symm.trans hsome
    rw [textOfCodes_map_toNat]
    cases Token.lex rest <;> rfl

theorem lex_writeAtom {value : Json} (h : value.IsAtom) {rest : Word} (hrest : EndsWord rest) :
    Token.lex (writeAtom value ++ rest) = (Token.lex rest).map (.atom value :: ·) := by
  obtain ⟨c, w, hword⟩ := List.exists_cons_of_ne_nil (writeAtom_ne_nil h)
  have hbare := isBare_of_mem_writeAtom value
  rw [hword, List.forall_mem_cons] at hbare
  obtain ⟨hc, hw⟩ := hbare
  simp only [isBare, Bool.and_eq_true, Bool.not_eq_true', Option.isNone_iff_eq_none, bne_iff_ne]
    at hc
  obtain ⟨⟨hspace, hpunctuation⟩, hquote⟩ := hc
  have hvalue : atom? (c :: (w ++ rest).takeWhile isBare) = some value := by
    rw [List.takeWhile_append_of_pos hw, hrest.takeWhile, List.append_nil, ← hword]
    exact atom?_writeAtom h
  have hafter : (w ++ rest).dropWhile isBare = rest := by
    rw [List.dropWhile_append_of_pos hw, hrest.dropWhile]
  rw [hword, List.cons_append, Token.lex, if_neg (by simp [hspace]), if_neg hquote]
  simp only [hpunctuation, hvalue, hafter]
  cases Token.lex rest <;> rfl

theorem tokens_of_isAtom {value : Json} (h : value.IsAtom) : value.tokens = [.atom value] := by
  cases value with
  | string text => cases h
  | array items => cases h
  | object fields => cases h
  | _ => rfl

/-- The text of an atom is its word. -/
theorem lex_tokens_of_isAtom {value : Json} (h : value.IsAtom) {rest : Word}
    (hrest : EndsWord rest) :
    Token.lex (value.tokens.flatMap Token.write ++ rest) =
      (Token.lex rest).map (value.tokens ++ ·) := by
  rw [tokens_of_isAtom h, List.flatMap_singleton]
  exact lex_writeAtom h hrest

mutual

/-- What is written for a value, before anything that ends a word, is divided into its tokens. -/
theorem lex_tokens (value : Json) {rest : Word} (h : EndsWord rest) :
    Token.lex (value.tokens.flatMap Token.write ++ rest) =
      (Token.lex rest).map (value.tokens ++ ·) := by
  match value with
  | .null | .bool _ | .integer _ | .other => exact lex_tokens_of_isAtom (by trivial) h
  | .string text =>
    rw [tokens, List.flatMap_singleton]
    exact lex_quote text rest
  | .array items =>
    have hitems := lex_itemTokens items (endsWord_cons (c := ']') (by decide) rest)
    rw [lex_punctuation .closeArray rfl] at hitems
    rw [tokens]
    simp only [List.cons_append, List.flatMap_cons, List.flatMap_append, List.append_assoc]
    show Token.lex ('[' :: ((itemTokens items).flatMap Token.write ++ ']' :: rest)) = _
    rw [lex_punctuation .openArray rfl, hitems]
    simp [Function.comp_def]
  | .object fields =>
    have hfields := lex_fieldTokens fields (endsWord_cons (c := '\x7d') (by decide) rest)
    rw [lex_punctuation .closeObject rfl] at hfields
    rw [tokens]
    simp only [List.cons_append, List.flatMap_cons, List.flatMap_append, List.append_assoc]
    show Token.lex ('\x7b' :: ((fieldTokens fields).flatMap Token.write ++ '\x7d' :: rest)) = _
    rw [lex_punctuation .openObject rfl, hfields]
    simp [Function.comp_def]

theorem lex_itemTokens (items : List Json) {rest : Word} (h : EndsWord rest) :
    Token.lex ((itemTokens items).flatMap Token.write ++ rest) =
      (Token.lex rest).map (itemTokens items ++ ·) := by
  match items with
  | [] => simp [itemTokens]
  | [item] => exact lex_tokens item h
  | item :: next :: items =>
    have hitems := lex_itemTokens (next :: items) h
    have hitem := lex_tokens item (endsWord_cons (c := ',') (by decide)
      ((itemTokens (next :: items)).flatMap Token.write ++ rest))
    rw [lex_punctuation .comma rfl, hitems] at hitem
    rw [itemTokens]
    · simp only [List.flatMap_append, List.flatMap_cons, List.append_assoc]
      refine Eq.trans hitem ?_
      simp [Function.comp_def]
    · simp

theorem lex_fieldTokens (fields : List (Word × Json)) {rest : Word} (h : EndsWord rest) :
    Token.lex ((fieldTokens fields).flatMap Token.write ++ rest) =
      (Token.lex rest).map (fieldTokens fields ++ ·) := by
  match fields with
  | [] => simp [fieldTokens]
  | [(name, value)] =>
    rw [fieldTokens]
    simp only [List.flatMap_cons, List.append_assoc]
    show Token.lex (quote name ++ ':' :: (value.tokens.flatMap Token.write ++ rest)) = _
    rw [lex_quote, lex_punctuation .colon rfl, lex_tokens value h]
    simp [Function.comp_def]
  | (name, value) :: next :: fields =>
    have hfields := lex_fieldTokens (next :: fields) h
    have hvalue := lex_tokens value (endsWord_cons (c := ',') (by decide)
      ((fieldTokens (next :: fields)).flatMap Token.write ++ rest))
    rw [lex_punctuation .comma rfl, hfields] at hvalue
    rw [fieldTokens]
    · simp only [List.cons_append, List.flatMap_append, List.flatMap_cons, List.append_assoc]
      show Token.lex (quote name ++ ':' :: (value.tokens.flatMap Token.write ++
        ',' :: ((fieldTokens (next :: fields)).flatMap Token.write ++ rest))) = _
      rw [lex_quote, lex_punctuation .colon rfl, hvalue]
      simp [Function.comp_def]
    · simp

end

/-- A text is divided into the tokens that it was written from. -/
theorem lex_write (value : Json) : Token.lex value.write = some value.tokens := by
  have h := lex_tokens value endsWord_nil
  rw [List.append_nil, Token.lex, Option.map_some, List.append_nil] at h
  exact h

/-! ## The value of tokens -/

open ReadState

/-- The first token of a value is not the end of an array. -/
theorem exists_tokens_eq (value : Json) :
    ∃ token rest, token ≠ .closeArray ∧ value.tokens = token :: rest := by
  cases value with
  | string text => exact ⟨.text text, _, nofun, tokens.eq_1 text⟩
  | array items => exact ⟨.openArray, _, nofun, tokens.eq_2 items⟩
  | object fields => exact ⟨.openObject, _, nofun, tokens.eq_3 fields⟩
  | _ => exact ⟨.atom _, [], nofun, rfl⟩

theorem exists_itemTokens_eq {items : List Json} (h : items ≠ []) :
    ∃ token rest, token ≠ .closeArray ∧ itemTokens items = token :: rest := by
  match items with
  | [] => exact absurd rfl h
  | [item] => exact exists_tokens_eq item
  | item :: next :: items =>
    obtain ⟨token, rest, hne, htokens⟩ := exists_tokens_eq item
    refine ⟨token, rest ++ .comma :: itemTokens (next :: items), hne, ?_⟩
    rw [itemTokens, htokens]
    · rfl
    · simp

/-- What begins an item is read alike behind the beginning of an array and behind a comma. -/
theorem run_firstItem {items : List Json} (h : items ≠ []) (frames : List Frame)
    (rest : List Token) :
    (itemTokens items ++ rest).foldlM step ⟨.firstItem, frames⟩ =
      (itemTokens items ++ rest).foldlM step ⟨.value, frames⟩ := by
  obtain ⟨token, tokens, hne, htokens⟩ := exists_itemTokens_eq h
  have hstep : step ⟨.firstItem, frames⟩ token = step ⟨.value, frames⟩ token :=
    step.eq_3 _ _ rfl fun _ _ h => absurd h hne
  rw [htokens, List.cons_append, List.foldlM_cons, List.foldlM_cons, hstep]

/-- The first field of an object is read as one behind a comma. -/
theorem run_firstField {fields : List (Word × Json)} (h : fields ≠ []) (frames : List Frame)
    (rest : List Token) :
    (fieldTokens fields ++ rest).foldlM step ⟨.firstField, frames⟩ =
      (fieldTokens fields ++ rest).foldlM step ⟨.field [], frames⟩ := by
  match fields with
  | [] => exact absurd rfl h
  | [(name, value)] =>
    rw [fieldTokens]
    rfl
  | (name, value) :: next :: fields =>
    rw [fieldTokens]
    · rfl
    · simp

/-- Fields whose names are all texts make up an object. -/
theorem ofFields_map (fields : List (Word × Json)) :
    ofFields (fields.map fun field => (some field.1, field.2)) = .object fields := by
  have hmap : (fields.map fun field => (some field.1, field.2)).mapM
      (fun field : Option Word × Json => field.1.map fun name => (name, field.2)) = some fields := by
    induction fields with
    | nil => rfl
    | cons field fields ih =>
      rw [List.map_cons, List.mapM_cons, ih]
      rfl
  rw [ofFields, hmap]

theorem run_tokens_of_isAtom {value : Json} (h : value.IsAtom) (frames : List Frame)
    (rest : List Token) :
    (value.tokens ++ rest).foldlM step ⟨.value, frames⟩ =
      rest.foldlM step (complete value frames) := by
  rw [tokens_of_isAtom h]
  rfl

mutual

/-- The tokens of a value, where one may stand, complete it. -/
theorem run_tokens (value : Json) (frames : List Frame) (rest : List Token) :
    (value.tokens ++ rest).foldlM step ⟨.value, frames⟩ =
      rest.foldlM step (complete value frames) := by
  match value with
  | .null | .bool _ | .integer _ | .other => exact run_tokens_of_isAtom (by trivial) frames rest
  | .string text =>
    rw [tokens]
    rfl
  | .array items =>
    rw [tokens, List.cons_append, List.cons_append, List.append_assoc]
    show (itemTokens items ++ .closeArray :: rest).foldlM step ⟨.firstItem, .array [] :: frames⟩ = _
    by_cases hempty : items = []
    · rw [hempty, itemTokens]
      rfl
    · rw [run_firstItem hempty, run_itemTokens items hempty, List.append_nil]
      show rest.foldlM step (complete (.array items.reverse.reverse) frames) = _
      rw [List.reverse_reverse]
  | .object fields =>
    rw [tokens, List.cons_append, List.cons_append, List.append_assoc]
    show (fieldTokens fields ++ .closeObject :: rest).foldlM step ⟨.firstField, frames⟩ = _
    by_cases hempty : fields = []
    · rw [hempty, fieldTokens]
      rfl
    · obtain ⟨name, hrun⟩ := run_fieldTokens fields hempty [] frames (.closeObject :: rest)
      rw [run_firstField hempty, hrun, List.append_nil]
      show rest.foldlM step (complete (ofFields (List.reverse (List.reverse _))) frames) = _
      rw [List.reverse_reverse, ofFields_map]

/-- The tokens of items, where one may stand, put them behind those that were read. -/
theorem run_itemTokens (items : List Json) (h : items ≠ []) (read : List Json)
    (frames : List Frame) (rest : List Token) :
    (itemTokens items ++ rest).foldlM step ⟨.value, .array read :: frames⟩ =
      rest.foldlM step ⟨.separator, .array (items.reverse ++ read) :: frames⟩ := by
  match items with
  | [] => exact absurd rfl h
  | [item] => exact run_tokens item (.array read :: frames) rest
  | item :: next :: items =>
    rw [itemTokens]
    · rw [List.append_assoc, run_tokens item (.array read :: frames)]
      show (itemTokens (next :: items) ++ rest).foldlM step
        ⟨.value, .array (item :: read) :: frames⟩ = _
      rw [run_itemTokens (next :: items) (List.cons_ne_nil _ _)]
      simp
    · simp

/-- The tokens of fields, where one may stand, put them behind those that were read. -/
theorem run_fieldTokens (fields : List (Word × Json)) (h : fields ≠ [])
    (read : List (Option Word × Json)) (frames : List Frame) (rest : List Token) :
    ∃ name, (fieldTokens fields ++ rest).foldlM step ⟨.field read, frames⟩ =
      rest.foldlM step ⟨.separator,
        .object ((fields.map fun field => (some field.1, field.2)).reverse ++ read) name ::
          frames⟩ := by
  match fields with
  | [] => exact absurd rfl h
  | [(name, value)] => exact ⟨some name, run_tokens value (.object read (some name) :: frames) rest⟩
  | (name, value) :: next :: fields =>
    obtain ⟨last, hrun⟩ := run_fieldTokens (next :: fields) (List.cons_ne_nil _ _)
      ((some name, value) :: read) frames rest
    refine ⟨last, ?_⟩
    rw [fieldTokens]
    · show (value.tokens ++ .comma :: fieldTokens (next :: fields) ++ rest).foldlM step
        ⟨.value, .object read (some name) :: frames⟩ = _
      rw [List.append_assoc, run_tokens value]
      refine Eq.trans hrun ?_
      simp
    · simp

end

/-- A value is read from the text that is written for it. -/
theorem read_write (value : Json) : read value.write = some value := by
  have hrun := run_tokens value [] []
  rw [List.append_nil] at hrun
  rw [read, lex_write]
  show (value.tokens.foldlM step ⟨.value, []⟩).bind result? = _
  rw [hrun]
  rfl

end Chorale.Json
