import Chorale.Proofs.Draw.WP

/-!
# Computations side by side

`Checked.Agree x y post`: if the computations `x` and `y` both give a value, `post` holds between
the values. `Draw.Agree x y post` says so of draws that begin in one state of the generator, and that
they leave it in one state. The rules are those for a single computation, taken two by two: draws
that are put together agree if they agree step by step (`bind`, `collect`), and what draws nothing
need not even be alike (`lift`).
-/

namespace Chorale

/-! ## Computations that may fail -/

namespace Checked

variable {α β γ δ : Type}

/-- If `x` and `y` both give a value, `post` holds between the values. -/
structure Agree (x : Except Failure α) (y : Except Failure β) (post : α → β → Prop) : Prop where
  of_ok {a : α} {b : β} : x = .ok a → y = .ok b → post a b

namespace Agree

theorem ok {a : α} {b : β} {post : α → β → Prop} (h : post a b) : Agree (.ok a) (.ok b) post :=
  ⟨fun ha hb => by cases ha; cases hb; exact h⟩

/-- Nothing is said of a computation that fails. -/
theorem error {e : Failure} {y : Except Failure β} {post : α → β → Prop} :
    Agree (.error e) y post := ⟨nofun⟩

/-- One computation gives one value. -/
theorem self (x : Except Failure α) : Agree x x (· = ·) :=
  ⟨fun ha hb => Except.ok.inj (ha.symm.trans hb)⟩

theorem any (x : Except Failure α) (y : Except Failure β) : Agree x y fun _ _ => True :=
  ⟨fun _ _ => trivial⟩

theorem mono {x : Except Failure α} {y : Except Failure β} {post post' : α → β → Prop}
    (h : Agree x y post) (hpost : ∀ a b, post a b → post' a b) : Agree x y post' :=
  ⟨fun ha hb => hpost _ _ (h.of_ok ha hb)⟩

theorem bind {x : Except Failure α} {y : Except Failure β} {f : α → Except Failure γ}
    {g : β → Except Failure δ} {post : γ → δ → Prop}
    (h : Agree x y fun a b => Agree (f a) (g b) post) : Agree (x >>= f) (y >>= g) post := by
  cases x with
  | error e => exact error
  | ok a =>
    cases y with
    | error e => exact ⟨fun _ hb => nomatch hb⟩
    | ok b => exact h.of_ok rfl rfl

end Agree

end Checked

/-! ## Draws -/

namespace Draw

variable {α β γ δ : Type}

/-- If `x` and `y`, begun in one state, both give a value, `post` holds between the values and they
leave one state. -/
structure Agree (x : Draw α) (y : Draw β) (post : α → β → Prop) : Prop where
  of_ok {r r₁ r₂ : Rng} {a : α} {b : β} :
    x.run r = (.ok a, r₁) → y.run r = (.ok b, r₂) → r₁ = r₂ ∧ post a b

namespace Agree

theorem pure {a : α} {b : β} {post : α → β → Prop} (h : post a b) :
    Agree (pure a) (pure b) post :=
  ⟨fun ha hb => by cases ha; cases hb; exact ⟨rfl, h⟩⟩

/-- One draw gives one value and leaves one state. -/
theorem self (x : Draw α) : Agree x x (· = ·) :=
  ⟨fun ha hb => by cases ha.symm.trans hb; exact ⟨rfl, rfl⟩⟩

/-- Computations that draw nothing leave the state as it is. -/
theorem lift {x : Except Failure α} {y : Except Failure β} {post : α → β → Prop}
    (h : Checked.Agree x y post) : Agree (liftM x : Draw α) (liftM y : Draw β) post := by
  refine ⟨fun ha hb => ?_⟩
  cases x with
  | error e => cases ha
  | ok a =>
    cases y with
    | error e => cases hb
    | ok b => cases ha; cases hb; exact ⟨rfl, h.of_ok rfl rfl⟩

theorem mono {x : Draw α} {y : Draw β} {post post' : α → β → Prop} (h : Agree x y post)
    (hpost : ∀ a b, post a b → post' a b) : Agree x y post' :=
  ⟨fun ha hb => (h.of_ok ha hb).imp_right (hpost _ _)⟩

/-- What follows begins in one state again. -/
theorem bind {x : Draw α} {y : Draw β} {f : α → Draw γ} {g : β → Draw δ} {post : γ → δ → Prop}
    (h : Agree x y fun a b => Agree (f a) (g b) post) : Agree (x >>= f) (y >>= g) post := by
  refine ⟨fun {r r₁ r₂ c d} hc hd => ?_⟩
  rw [run_bind] at hc hd
  rcases hx : x.run r with ⟨e | a, s⟩
  · rw [hx] at hc; cases hc
  · rcases hy : y.run r with ⟨e | b, s'⟩
    · rw [hy] at hd; cases hd
    · obtain ⟨rfl, hfg⟩ := h.of_ok hx hy
      rw [hx] at hc
      rw [hy] at hd
      exact hfg.of_ok hc hd

theorem collect {f : Voice → Draw α} {g : Voice → Draw β} {post : Voice → α → β → Prop}
    (h : ∀ voice, Agree (f voice) (g voice) (post voice)) :
    Agree (Quartet.collect f) (Quartet.collect g) fun p q =>
      ∀ voice, post voice (p.get voice) (q.get voice) := by
  refine bind (mono (h .bass) fun bass bass' hbass => ?_)
  refine bind (mono (h .tenor) fun tenor tenor' htenor => ?_)
  refine bind (mono (h .alto) fun alto alto' halto => ?_)
  refine bind (mono (h .soprano) fun soprano soprano' hsoprano => pure fun voice => ?_)
  cases voice with
  | bass => exact hbass
  | tenor => exact htenor
  | alto => exact halto
  | soprano => exact hsoprano

end Agree

end Draw

end Chorale
