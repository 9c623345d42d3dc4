import Chorale.Checked

/-!
# Four voices

A piece has four voices. A `Quartet` holds one thing for each of them, and whatever is done for all
voices is done from the bass up.
-/

namespace Chorale

/-- A voice of a piece, from the lowest to the highest. -/
inductive Voice where
  | bass
  | tenor
  | alto
  | soprano
deriving DecidableEq

namespace Voice

/-- The voices, from the lowest up. -/
def all : List Voice := [.bass, .tenor, .alto, .soprano]

/-- The number of the voice, the lowest being 0. -/
def index : Voice → Nat
  | .bass => 0
  | .tenor => 1
  | .alto => 2
  | .soprano => 3

/-- The name of the voice. -/
def name : Voice → Word
  | .bass => "Bass".toList
  | .tenor => "Tenor".toList
  | .alto => "Alto".toList
  | .soprano => "Soprano".toList

end Voice

/-- One thing for each voice. -/
structure Quartet (α : Type) where
  bass : α
  tenor : α
  alto : α
  soprano : α
deriving DecidableEq

namespace Quartet

variable {α β : Type}

/-- What the quartet holds for a voice. -/
def get (q : Quartet α) : Voice → α
  | .bass => q.bass
  | .tenor => q.tenor
  | .alto => q.alto
  | .soprano => q.soprano

/-- The same thing for every voice. -/
def all (a : α) : Quartet α := ⟨a, a, a, a⟩

/-- What the quartet holds, from the lowest voice up. -/
def toList (q : Quartet α) : List α := [q.bass, q.tenor, q.alto, q.soprano]

/-- What an action gives for each voice, from the lowest up. -/
def collect {m : Type → Type} [Monad m] (action : Voice → m α) : m (Quartet α) := do
  let bass ← action .bass
  let tenor ← action .tenor
  let alto ← action .alto
  let soprano ← action .soprano
  pure ⟨bass, tenor, alto, soprano⟩

/-- What a function makes of each thing. -/
def map (f : α → β) (q : Quartet α) : Quartet β := ⟨f q.bass, f q.tenor, f q.alto, f q.soprano⟩

@[simp] theorem get_all (a : α) (voice : Voice) : (all a).get voice = a := by cases voice <;> rfl

@[simp] theorem get_map (f : α → β) (q : Quartet α) (voice : Voice) :
    (q.map f).get voice = f (q.get voice) := by cases voice <;> rfl

/-- Two quartets are equal if they hold the same for every voice. -/
theorem ext_get {p q : Quartet α} (h : ∀ voice, p.get voice = q.get voice) : p = q := by
  obtain ⟨_, _, _, _⟩ := p
  obtain ⟨_, _, _, _⟩ := q
  cases h .bass
  cases h .tenor
  cases h .alto
  cases h .soprano
  rfl

@[simp] theorem length_toList (q : Quartet α) : q.toList.length = 4 := rfl

theorem toList_eq_map_get (q : Quartet α) : q.toList = Voice.all.map q.get := rfl

theorem getElem?_toList (q : Quartet α) (voice : Voice) :
    q.toList[voice.index]? = some (q.get voice) := by cases voice <;> rfl

theorem exists_get_of_mem {q : Quartet α} {a : α} (h : a ∈ q.toList) : ∃ voice, a = q.get voice := by
  rw [toList_eq_map_get, List.mem_map] at h
  obtain ⟨voice, -, hvoice⟩ := h
  exact ⟨voice, hvoice.symm⟩

end Quartet

/-- The octaves of the voices: that of the lowest is given, and each further voice is one octave
higher. -/
def Voice.octaves (lowest : Int32) : Except Failure (Quartet Int32) :=
  Quartet.collect fun voice => Checked.add lowest (Int32.ofNat voice.index)

end Chorale
