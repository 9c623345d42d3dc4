import Chorale.Form
import Mathlib.Data.List.Basic
import Mathlib.Data.List.Induction

/-!
# The order of a form

A form names each of its letters once and says by their places which of them is played when
(`Form.Spells`). One more letter is put behind the others unless it is there already
(`eraseDups_concat`), so the letters stand in the order of their first appearance
(`inOrder_eraseDups`). Seen from the places this means that they begin with 0 and never go more than
one beyond those before (`Spells.grows_of_inOrder`, `Spells.inOrder_of_grows`).

While a word is read, the letters met so far and their places are those of the part that has been
read (`Reading.Knows`). One more letter keeps it so (`Reading.Knows.enter`), and a place that has
been given to a letter stays its place (`idxOf_eraseDups_append`). A form that spells a word with its
letters in order, or with places that grow, is the one that the word is read as (`ofWord_unique`).
-/

namespace Chorale.Form

variable {form form' : Form} {w : Word}

/-! ## Letters in the order of their first appearance -/

theorem eraseDups_concat (w : Word) (c : Char) :
    (w ++ [c]).eraseDups = if c ∈ w then w.eraseDups else w.eraseDups ++ [c] := by
  rw [List.eraseDups_append]
  split <;> rename_i hc <;> simp [List.removeAll, List.eraseDups_cons, hc]

/-- The letters appear in the word one after another for the first time. -/
def InOrder (letters w : Word) : Prop := letters.Pairwise (w.idxOf · < w.idxOf ·)

theorem InOrder.nodup {letters : Word} (h : InOrder letters w) : letters.Nodup :=
  h.imp fun hlt heq => Nat.ne_of_lt hlt (congrArg w.idxOf heq)

theorem InOrder.idxOf_lt {letters : Word} (h : InOrder letters w) {k k' : Nat}
    (hk : k < letters.length) (hk' : k' < letters.length) (hlt : k < k') :
    w.idxOf letters[k] < w.idxOf letters[k'] :=
  List.pairwise_iff_getElem.1 h k k' hk hk' hlt

/-- Letters that are there already keep their places when one more comes behind them. -/
theorem InOrder.concat {letters : Word} (h : InOrder letters w) (hmem : ∀ c ∈ letters, c ∈ w)
    (c : Char) : InOrder letters (w ++ [c]) :=
  List.Pairwise.imp_of_mem (fun ha hb hlt => by
    rwa [List.idxOf_append_of_mem (hmem _ ha), List.idxOf_append_of_mem (hmem _ hb)]) h

theorem inOrder_eraseDups (w : Word) : InOrder w.eraseDups w := by
  induction w using List.reverseRecOn with
  | nil => exact .nil
  | append_singleton w c ih =>
    have hkept := ih.concat (fun _ => List.mem_eraseDups.1) c
    rw [eraseDups_concat]
    split
    case isTrue => exact hkept
    case isFalse hnew =>
      refine List.pairwise_append.2 ⟨hkept, List.pairwise_singleton _ _, ?_⟩
      intro a ha b hb
      have ha := List.mem_eraseDups.1 ha
      rw [List.mem_singleton.1 hb, List.idxOf_append_of_mem ha, List.idxOf_append_of_notMem hnew]
      exact Nat.lt_add_right _ (List.idxOf_lt_length_of_mem ha)

theorem nodup_eraseDups (w : Word) : w.eraseDups.Nodup := (inOrder_eraseDups w).nodup

/-- A form has no more different letters than letters. -/
theorem length_eraseDups_le (w : Word) : w.eraseDups.length ≤ w.length := by
  induction w using List.reverseRecOn with
  | nil => exact Nat.le_refl 0
  | append_singleton w c ih =>
    rw [eraseDups_concat, List.length_append, List.length_singleton]
    split
    case isTrue => exact Nat.le_succ_of_le ih
    case isFalse =>
      rw [List.length_append, List.length_singleton]
      exact Nat.succ_le_succ ih

/-- Letters of one word in the order of their first appearance are the same. -/
theorem InOrder.unique {letters letters' : Word} (h : InOrder letters w) (h' : InOrder letters' w)
    (hmem : ∀ c, c ∈ letters ↔ c ∈ letters') : letters = letters' := by
  have hperm : letters.Perm letters' := (List.perm_ext_iff_of_nodup h.nodup h'.nodup).2 hmem
  exact hperm.eq_of_pairwise (fun _ _ _ _ hlt hgt => absurd hlt (Nat.lt_asymm hgt)) h h'

/-! ## Forms that spell a word -/

/-- The letters of the form are those of the word, each of them once, and the places give back the
word. -/
structure Spells (form : Form) (w : Word) : Prop where
  nodup : form.symbols.Nodup
  mem_iff (c : Char) : c ∈ form.symbols ↔ c ∈ w
  length_eq : form.order.length = w.length
  letter (i : Nat) (hi : i < form.order.length) (hi' : i < w.length) :
    ∃ h : form.order[i] < form.symbols.length, form.symbols[form.order[i]] = w[i]

namespace Spells

theorem order_eq (h : form.Spells w) : form.order = w.map form.symbols.idxOf := by
  refine List.ext_getElem (by rw [h.length_eq, List.length_map]) fun i hi hi' => ?_
  rw [List.length_map] at hi'
  obtain ⟨hlt, hletter⟩ := h.letter i hi hi'
  rw [List.getElem_map, ← hletter, h.nodup.idxOf_getElem]

/-- The letters say the whole form. -/
theorem eq_of_symbols (h : form.Spells w) (h' : form'.Spells w)
    (hsymbols : form.symbols = form'.symbols) : form = form' := by
  have horder := h.order_eq
  rw [hsymbols, ← h'.order_eq] at horder
  obtain ⟨symbols, order⟩ := form
  cases hsymbols
  cases horder
  rfl

theorem ofLetters {letters : Word} (hnodup : letters.Nodup) (hmem : ∀ c, c ∈ letters ↔ c ∈ w) :
    Spells ⟨letters, w.map letters.idxOf⟩ w where
  nodup := hnodup
  mem_iff := hmem
  length_eq := List.length_map ..
  letter i hi hi' := by
    have hlt := List.idxOf_lt_length_of_mem ((hmem w[i]).2 (List.getElem_mem hi'))
    simp only [List.getElem_map]
    exact ⟨hlt, List.getElem_idxOf hlt⟩

/-- The place of a letter is taken where the letter appears for the first time. -/
theorem order_idxOf (h : form.Spells w) {k : Nat} (hk : k < form.symbols.length) :
    ∃ hi : w.idxOf form.symbols[k] < form.order.length,
      form.order[w.idxOf form.symbols[k]] = k := by
  have hmem := (h.mem_iff _).1 (List.getElem_mem hk)
  have hlt := List.idxOf_lt_length_of_mem hmem
  refine ⟨h.length_eq ▸ hlt, ?_⟩
  simp only [h.order_eq, List.getElem_map, List.getElem_idxOf, h.nodup.idxOf_getElem]

/-- A place is not taken before its letter appears. -/
theorem idxOf_le (h : form.Spells w) {i : Nat} (hi : i < form.order.length) :
    ∃ hk : form.order[i] < form.symbols.length, w.idxOf form.symbols[form.order[i]] ≤ i := by
  have hi' : i < w.length := h.length_eq ▸ hi
  obtain ⟨hk, hletter⟩ := h.letter i hi hi'
  refine ⟨hk, Nat.not_lt.1 fun hlt => ?_⟩
  exact ne_of_beq_false (List.not_of_lt_findIdx hlt) hletter.symm

end Spells

/-! ## Places that grow -/

/-- The places begin with 0, and each is at most one beyond the greatest of those before. -/
structure Grows (order : List Nat) : Prop where
  head : ∃ h : 0 < order.length, order[0] = 0
  le_succ (i : Nat) (hi : i < order.length) (hpos : 0 < i) :
    ∃ j, ∃ hj : j < i, order[i] ≤ order[j] + 1

/-- No place is left out. -/
theorem Grows.exists_eq {order : List Nat} (h : Grows order) {i : Nat} (hi : i < order.length)
    {k : Nat} (hk : k ≤ order[i]) : ∃ j, ∃ hj : j ≤ i, order[j] = k := by
  induction i using Nat.strongRecOn with
  | _ i ih =>
    rcases Nat.eq_or_lt_of_le hk with rfl | hlt
    · exact ⟨i, Nat.le_refl i, rfl⟩
    rcases Nat.eq_zero_or_pos i with rfl | hpos
    · obtain ⟨_, hzero⟩ := h.head
      omega
    · obtain ⟨j, hj, hle⟩ := h.le_succ i hi hpos
      obtain ⟨j', hj', heq⟩ := ih j hj (by omega) (by omega)
      exact ⟨j', by omega, heq⟩

namespace Spells

theorem grows_of_inOrder (h : form.Spells w) (hw : w ≠ []) (horder : InOrder form.symbols w) :
    Grows form.order where
  head := by
    have hpos : 0 < form.order.length := h.length_eq ▸ List.length_pos_of_ne_nil hw
    obtain ⟨hk, hle⟩ := h.idxOf_le hpos
    refine ⟨hpos, Nat.eq_zero_of_not_pos fun hlt => ?_⟩
    -- A letter before the first one of the word would have to appear before it.
    have hbefore := horder.idxOf_lt (Nat.lt_trans hlt hk) hk hlt
    omega
  le_succ i hi hpos := by
    obtain ⟨hk, hle⟩ := h.idxOf_le hi
    rcases hplace : form.order[i] with _ | k
    · exact ⟨0, hpos, Nat.zero_le _⟩
    · -- The letter of the place before has appeared by now.
      simp only [hplace] at hk hle
      have hbefore := horder.idxOf_lt (Nat.lt_of_succ_lt hk) hk (Nat.lt_succ_self k)
      obtain ⟨hj, heq⟩ := h.order_idxOf (Nat.lt_of_succ_lt hk)
      exact ⟨_, Nat.lt_of_lt_of_le hbefore hle, Nat.le_of_eq (congrArg (· + 1) heq.symm)⟩

theorem inOrder_of_grows (h : form.Spells w) (hgrows : Grows form.order) :
    InOrder form.symbols w := by
  refine List.pairwise_iff_getElem.2 fun k k' hk hk' hlt => ?_
  -- Where the later letter appears, the place of the earlier one has been taken before.
  obtain ⟨hi, hplace⟩ := h.order_idxOf hk'
  obtain ⟨j, hj, hplace'⟩ := hgrows.exists_eq hi (hplace.symm ▸ Nat.le_of_lt hlt)
  obtain ⟨hk, hle⟩ := h.idxOf_le (Nat.lt_of_le_of_lt hj hi)
  simp only [hplace'] at hle
  have hne : j ≠ w.idxOf form.symbols[k'] := by
    rintro rfl
    omega
  omega

end Spells

/-! ## Reading a word -/

/-- A letter that has appeared keeps its place when more letters come. -/
theorem idxOf_eraseDups_append {p : Word} {c : Char} (hc : c ∈ p) (w : Word) :
    (p ++ w).eraseDups.idxOf c = p.eraseDups.idxOf c := by
  rw [List.eraseDups_append, List.idxOf_append_of_mem (List.mem_eraseDups.2 hc)]

/-- A new letter comes behind the others. -/
theorem idxOf_eraseDups_concat {p : Word} {c : Char} (hc : c ∉ p) :
    (p ++ [c]).eraseDups.idxOf c = p.eraseDups.length := by
  rw [eraseDups_concat, if_neg hc, List.idxOf_append_of_notMem (mt List.mem_eraseDups.1 hc),
    List.idxOf_cons_self, Nat.add_zero]

namespace Reading

/-- The part `p` of a word has been read: its letters have been met, and each has its place. -/
structure Knows (reading : Reading) (p : Word) : Prop where
  symbols_eq : reading.symbols = p.eraseDups
  lookup_eq (c : Char) :
    reading.places.lookup c = if c ∈ p then some (p.eraseDups.idxOf c) else none

variable {reading : Reading} {p : Word}

theorem Knows.nil : Knows ⟨[], []⟩ [] := ⟨rfl, fun _ => rfl⟩

/-- A letter that has been met has its place. -/
theorem Knows.enter_of_mem (h : reading.Knows p) {c : Char} (hc : c ∈ p) :
    (reading.enter c).1 = (p ++ [c]).eraseDups.idxOf c ∧ (reading.enter c).2.Knows (p ++ [c]) := by
  have hletters : (p ++ [c]).eraseDups = p.eraseDups := by rw [eraseDups_concat, if_pos hc]
  have hmem (c' : Char) : c' ∈ p ++ [c] ↔ c' ∈ p := by
    simp only [List.mem_append, List.mem_singleton]
    exact or_iff_left_of_imp fun heq => heq ▸ hc
  unfold Reading.enter
  rw [h.lookup_eq, if_pos hc, hletters]
  exact ⟨rfl, h.symbols_eq.trans hletters.symm, fun c' => by simp only [hmem, hletters, h.lookup_eq]⟩

/-- A new letter gets the place behind the others. -/
theorem Knows.enter_of_notMem (h : reading.Knows p) {c : Char} (hc : c ∉ p) :
    (reading.enter c).1 = (p ++ [c]).eraseDups.idxOf c ∧ (reading.enter c).2.Knows (p ++ [c]) := by
  have hletters : reading.symbols ++ [c] = (p ++ [c]).eraseDups := by
    rw [h.symbols_eq, eraseDups_concat, if_neg hc]
  have hplace : (reading.symbols ++ [c]).length - 1 = (p ++ [c]).eraseDups.idxOf c := by
    rw [idxOf_eraseDups_concat hc, h.symbols_eq, List.length_append, List.length_singleton,
      Nat.add_sub_cancel]
  unfold Reading.enter
  rw [h.lookup_eq, if_neg hc]
  refine ⟨hplace, hletters, fun c' => ?_⟩
  show ((c, (reading.symbols ++ [c]).length - 1) :: reading.places).lookup c' = _
  rw [hplace, List.lookup_cons]
  by_cases heq : c' = c
  · rw [heq, beq_self_eq_true, if_pos (List.mem_append_right p (List.mem_singleton_self c))]
  · -- The places given before stay as they are.
    rw [beq_false_of_ne heq, h.lookup_eq]
    by_cases hc' : c' ∈ p
    · simp [hc', idxOf_eraseDups_append hc' [c]]
    · simp [hc', heq]

/-- One more letter gets the place at which it stands among the letters met by then. -/
theorem Knows.enter (h : reading.Knows p) (c : Char) :
    (reading.enter c).1 = (p ++ [c]).eraseDups.idxOf c ∧ (reading.enter c).2.Knows (p ++ [c]) := by
  by_cases hc : c ∈ p
  · exact h.enter_of_mem hc
  · exact h.enter_of_notMem hc

/-- The letters of a word get the places at which they stand among all letters of the word. -/
theorem Knows.enterAll (h : reading.Knows p) (w : Word) :
    (reading.enterAll w).1 = w.map (p ++ w).eraseDups.idxOf ∧
      (reading.enterAll w).2.Knows (p ++ w) := by
  induction w generalizing reading p with
  | nil => exact ⟨rfl, by rwa [List.append_nil]⟩
  | cons c w ih =>
    obtain ⟨hplace, henter⟩ := h.enter c
    obtain ⟨horder, hrest⟩ := ih henter
    rw [List.append_assoc, List.singleton_append] at horder hrest
    refine ⟨?_, hrest⟩
    show (reading.enter c).1 :: ((reading.enter c).2.enterAll w).1 = _
    -- The place that the letter got stays its place up to the end of the word.
    have hkept := idxOf_eraseDups_append (List.mem_append_right p (List.mem_singleton_self c)) w
    rw [List.append_assoc, List.singleton_append] at hkept
    rw [hplace, horder, ← hkept, List.map_cons]

end Reading

/-! ## The form that a word stands for -/

theorem exists_ofWord (h : w ≠ []) :
    ofWord w = .ok ⟨w.eraseDups, w.map w.eraseDups.idxOf⟩ := by
  obtain ⟨horder, hknows⟩ := Reading.Knows.nil.enterAll w
  unfold ofWord
  rw [if_neg h]
  show Except.ok (Form.mk _ _) = _
  rw [hknows.symbols_eq, horder, List.nil_append]

theorem symbols_of_ofWord (h : ofWord w = .ok form) : form.symbols = w.eraseDups := by
  by_cases hw : w = []
  · rw [hw] at h
    cases h
  · rw [exists_ofWord hw] at h
    cases h
    rfl

/-- Every place in the order of a form is that of a letter. -/
theorem lt_of_mem_order {i : Nat} (h : i ∈ w.map w.eraseDups.idxOf) : i < w.eraseDups.length := by
  obtain ⟨c, hc, rfl⟩ := List.mem_map.1 h
  exact List.idxOf_lt_length_of_mem (List.mem_eraseDups.2 hc)

/-- The place of a letter is where it stands among the letters. -/
theorem getElem?_idxOf {c : Char} (hc : c ∈ w) :
    w.eraseDups[w.eraseDups.idxOf c]? = some c := by
  have hlt := List.idxOf_lt_length_of_mem (List.mem_eraseDups.2 hc)
  rw [List.getElem?_eq_getElem hlt, List.getElem_idxOf]

/-- A word that is not empty stands for a form that spells it, with the letters in the order of their
first appearance and places that grow. No other form that spells the word has one of the two. -/
theorem ofWord_unique (hw : w ≠ []) :
    ∃ form, ofWord w = .ok form ∧ form.Spells w ∧ InOrder form.symbols w ∧ Grows form.order ∧
      ∀ form' : Form, form'.Spells w → InOrder form'.symbols w ∨ Grows form'.order →
        form' = form := by
  have hspells : Spells ⟨w.eraseDups, w.map w.eraseDups.idxOf⟩ w :=
    .ofLetters (nodup_eraseDups w) fun _ => List.mem_eraseDups
  have horder : InOrder w.eraseDups w := inOrder_eraseDups w
  refine ⟨_, exists_ofWord hw, hspells, horder, hspells.grows_of_inOrder hw horder,
    fun form' h' hone => h'.eq_of_symbols hspells ?_⟩
  have horder' : InOrder form'.symbols w := hone.elim id h'.inOrder_of_grows
  exact horder'.unique horder fun c => (h'.mem_iff c).trans (hspells.mem_iff c).symm

/-- A word with letters that come again and a blank between them. -/
theorem ofWord_unique_abcab : ['a', 'b', 'c', 'a', ' ', 'b'] ≠ [] ∧
    Spells ⟨['a', 'b', 'c', ' '], [0, 1, 2, 0, 3, 1]⟩ ['a', 'b', 'c', 'a', ' ', 'b'] ∧
    ∀ form' : Form, form'.Spells ['a', 'b', 'c', 'a', ' ', 'b'] → Grows form'.order →
      form' = ⟨['a', 'b', 'c', ' '], [0, 1, 2, 0, 3, 1]⟩ := by
  have hw : ['a', 'b', 'c', 'a', ' ', 'b'] ≠ [] := by decide
  obtain ⟨form, hform, hspells, -, -, hunique⟩ := ofWord_unique hw
  cases hform
  exact ⟨hw, hspells, fun form' h' hgrows => hunique form' h' (.inr hgrows)⟩

end Chorale.Form
