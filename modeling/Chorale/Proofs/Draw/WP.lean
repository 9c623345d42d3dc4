import Chorale.Proofs.Draw.Stream
import Chorale.Quartet
import Mathlib.Data.Stream.Defs

/-!
# What computations give

`Checked.WP allowed x post`: the computation `x` gives a value that satisfies `post`, or fails in a
way that `allowed` admits. `Draw.WP allowed r x post` says so of a draw `x` that begins in the state
`r` of the generator, where `post` also sees the state that is left; a draw may fail besides if the
stream of `r` holds a draw that never ends (`Rng.Stuck`). There is a rule for each way of putting
computations together (`pure`, `bind`, `lift`, `mapM_inTurn`, `mapM`, `collect`); the rules for
single operations stand with what is proved of them. They admit an overflow; `Checked.WP.of_fits`
takes it away again where a result is seen to fit.
-/

namespace Chorale

/-! ## Computations that may fail -/

namespace Checked

variable {α β : Type} {allowed : Failure → Prop}

/-- `x` gives a value that satisfies `post`, or fails as `allowed` admits. -/
structure WP (allowed : Failure → Prop) (x : Except Failure α) (post : α → Prop) : Prop where
  of_ok {a : α} : x = .ok a → post a
  of_error {e : Failure} : x = .error e → allowed e

namespace WP

theorem ok {a : α} {post : α → Prop} (h : post a) : WP allowed (.ok a) post :=
  ⟨fun e => by cases e; exact h, nofun⟩

theorem error {e : Failure} {post : α → Prop} (h : allowed e) : WP allowed (.error e) post :=
  ⟨nofun, fun e => by cases e; exact h⟩

theorem of_eq_ok {x : Except Failure α} {a : α} {post : α → Prop} (hx : x = .ok a) (h : post a) :
    WP allowed x post := hx ▸ ok h

theorem mono {x : Except Failure α} {post post' : α → Prop} (h : WP allowed x post)
    (hpost : ∀ a, post a → post' a) : WP allowed x post' :=
  ⟨fun hx => hpost _ (h.of_ok hx), h.of_error⟩

/-- The value that a computation gives is its own. -/
theorem run {x : Except Failure α} {post : α → Prop} (h : WP allowed x post) :
    WP allowed x fun a => x = .ok a ∧ post a :=
  ⟨fun hx => ⟨hx, h.of_ok hx⟩, h.of_error⟩

theorem bind {x : Except Failure α} {f : α → Except Failure β} {post : β → Prop}
    (h : WP allowed x fun a => WP allowed (f a) post) : WP allowed (x >>= f) post := by
  cases x with
  | ok a => exact h.of_ok rfl
  | error e => exact error (h.of_error rfl)

/-- What follows does not depend on the value of `x`. -/
theorem seq {x : Except Failure α} {f : α → Except Failure β} {post : α → Prop} {post' : β → Prop}
    (hx : WP allowed x post) (hf : ∀ a, WP allowed (f a) post') : WP allowed (x >>= f) post' :=
  bind (hx.mono fun a _ => hf a)

/-- A computation that fails by an overflow alone does not fail where everything fits. -/
theorem of_fits {fits : Prop} {x : Except Failure α} {post : α → Prop}
    (hover : ¬ fits → allowed .overflow) (h : WP (Eq .overflow) x post)
    (hfits : fits → ∃ a, x = .ok a) : WP allowed x post := by
  refine ⟨h.of_ok, fun he => ?_⟩
  rw [← h.of_error he]
  refine hover fun hf => ?_
  obtain ⟨a, ha⟩ := hfits hf
  cases ha.symm.trans he

theorem collect {f : Voice → Except Failure α} (post : Voice → α → Prop)
    (h : ∀ voice, WP allowed (f voice) (post voice)) :
    WP allowed (Quartet.collect f) fun q => ∀ voice, post voice (q.get voice) := by
  refine bind (mono (h .bass) fun bass hbass => ?_)
  refine bind (mono (h .tenor) fun tenor htenor => ?_)
  refine bind (mono (h .alto) fun alto halto => ?_)
  refine bind (mono (h .soprano) fun soprano hsoprano => ok fun voice => ?_)
  cases voice with
  | bass => exact hbass
  | tenor => exact htenor
  | alto => exact halto
  | soprano => exact hsoprano

theorem exists_collect_eq_ok {f : Voice → Except Failure α} (h : ∀ voice, ∃ a, f voice = .ok a) :
    ∃ q, Quartet.collect f = .ok q := by
  obtain ⟨bass, hbass⟩ := h .bass
  obtain ⟨tenor, htenor⟩ := h .tenor
  obtain ⟨alto, halto⟩ := h .alto
  obtain ⟨soprano, hsoprano⟩ := h .soprano
  refine ⟨⟨bass, tenor, alto, soprano⟩, ?_⟩
  rw [Quartet.collect, hbass, htenor, halto, hsoprano]
  rfl

variable [FixedWidth α]

/-- The value that stands for an integer, or an overflow. -/
theorem ofInt (h : allowed .overflow) (n : Int) :
    WP allowed (Checked.ofInt n : Except Failure α) fun a => FixedWidth.toInt a = n := by
  rcases eq_ok_or_overflow (α := α) n with ⟨a, ha⟩ | ho
  · exact of_eq_ok ha (ofInt_eq_ok_iff.1 ha)
  · rw [ho]; exact error h

theorem add (h : allowed .overflow) (a b : α) :
    WP allowed (Checked.add a b) fun c => FixedWidth.toInt c = FixedWidth.toInt a + FixedWidth.toInt b :=
  ofInt h _

theorem sub (h : allowed .overflow) (a b : α) :
    WP allowed (Checked.sub a b) fun c => FixedWidth.toInt c = FixedWidth.toInt a - FixedWidth.toInt b :=
  ofInt h _

theorem mul (h : allowed .overflow) (a b : α) :
    WP allowed (Checked.mul a b) fun c => FixedWidth.toInt c = FixedWidth.toInt a * FixedWidth.toInt b :=
  ofInt h _

theorem neg (h : allowed .overflow) (a : α) :
    WP allowed (Checked.neg a) fun c => FixedWidth.toInt c = -FixedWidth.toInt a :=
  ofInt h _

theorem sum (h : allowed .overflow) (zero : α) (values : List α) :
    WP allowed (Checked.sum zero values) fun c =>
      FixedWidth.toInt c = FixedWidth.toInt zero + (values.map FixedWidth.toInt).sum := by
  induction values generalizing zero with
  | nil => exact ok (by simp)
  | cons a values ih =>
    rw [Checked.sum, List.foldlM_cons]
    refine bind (mono (add h zero a) fun c hc => mono (ih c) fun d hd => ?_)
    rw [hd, hc, List.map_cons, List.sum_cons, Int.add_assoc]

end WP

/-! ## Sums that fit -/

/-- The values of a type are the natural numbers below a bound. -/
structure Unsigned [FixedWidth α] (size : α → Nat) (bound : Nat) : Prop where
  toInt_eq (a : α) : FixedWidth.toInt a = size a
  exists_size_eq (n : Nat) (h : n < bound) : ∃ a, size a = n

theorem unsigned32 : Unsigned UInt32.toNat (2 ^ 32) :=
  ⟨fun _ => rfl, fun n h => ⟨UInt32.ofNat n, UInt32.toNat_ofNat_of_lt' h⟩⟩

theorem unsigned64 : Unsigned UInt64.toNat (2 ^ 64) :=
  ⟨fun _ => rfl, fun n h => ⟨UInt64.ofNat n, UInt64.toNat_ofNat_of_lt' h⟩⟩

theorem exists_ofInt_eq_ok {n : Int} (hlow : -2 ^ 31 ≤ n) (hhigh : n < 2 ^ 31) :
    ∃ a : Int32, ofInt n = .ok a ∧ a.toInt = n := by
  have ha : (Int32.ofInt n).toInt = n := Int32.toInt_ofInt_of_le (by omega) (by omega)
  exact ⟨Int32.ofInt n, ofInt_eq_ok_iff.2 ha, ha⟩

namespace Unsigned

variable [FixedWidth α] {size : α → Nat} {bound : Nat}

theorem add_eq_ok (hα : Unsigned size bound) {a b : α} (h : size a + size b < bound) :
    ∃ c, Checked.add a b = .ok c ∧ size c = size a + size b := by
  obtain ⟨c, hc⟩ := hα.exists_size_eq _ h
  refine ⟨c, add_eq_ok_iff.2 ?_, hc⟩
  rw [hα.toInt_eq, hα.toInt_eq, hα.toInt_eq, hc, Int.natCast_add]

theorem mul_eq_ok (hα : Unsigned size bound) {a b : α} (h : size a * size b < bound) :
    ∃ c, Checked.mul a b = .ok c ∧ size c = size a * size b := by
  obtain ⟨c, hc⟩ := hα.exists_size_eq _ h
  refine ⟨c, mul_eq_ok_iff.2 ?_, hc⟩
  rw [hα.toInt_eq, hα.toInt_eq, hα.toInt_eq, hc, Int.natCast_mul]

theorem sum_eq_ok (hα : Unsigned size bound) (zero : α) (values : List α)
    (h : size zero + (values.map size).sum < bound) :
    ∃ c, Checked.sum zero values = .ok c ∧ size c = size zero + (values.map size).sum := by
  induction values generalizing zero with
  | nil => exact ⟨zero, rfl, by simp⟩
  | cons a values ih =>
    rw [List.map_cons, List.sum_cons] at h
    obtain ⟨b, hb, eb⟩ := hα.add_eq_ok (a := zero) (b := a) (by omega)
    obtain ⟨c, hc, ec⟩ := ih b (by omega)
    refine ⟨c, ?_, by rw [ec, eb, List.map_cons, List.sum_cons]; omega⟩
    rw [Checked.sum, List.foldlM_cons, hb]
    exact hc

end Unsigned

/-! ## Computations that give a value, and that fail -/

theorem bind_eq_ok_iff {x : Except Failure α} {f : α → Except Failure β} {b : β} :
    (x >>= f) = .ok b ↔ ∃ a, x = .ok a ∧ f a = .ok b := by
  cases x with
  | ok a => exact ⟨fun h => ⟨a, rfl, h⟩, fun ⟨_, ha, h⟩ => by cases ha; exact h⟩
  | error e => exact ⟨nofun, fun ⟨_, ha, _⟩ => nomatch ha⟩

theorem bind_eq_error_iff {x : Except Failure α} {f : α → Except Failure β} {e : Failure} :
    (x >>= f) = .error e ↔ x = .error e ∨ ∃ a, x = .ok a ∧ f a = .error e := by
  cases x with
  | ok a => exact ⟨fun h => .inr ⟨a, rfl, h⟩, fun h => h.elim nofun fun ⟨_, ha, h⟩ => by cases ha; exact h⟩
  | error _ => exact ⟨fun h => .inl (by cases h; rfl), fun h => h.elim (fun h => by cases h; rfl) nofun⟩

theorem ofInt_eq_overflow_iff [FixedWidth α] {n : Int} :
    (ofInt n : Except Failure α) = .error .overflow ↔ ∀ a : α, FixedWidth.toInt a ≠ n := by
  rcases eq_ok_or_overflow (α := α) n with ⟨a, ha⟩ | ho
  · rw [ha]
    exact ⟨nofun, fun h => absurd (ofInt_eq_ok_iff.1 ha) (h a)⟩
  · refine ⟨fun _ a ha => ?_, fun _ => ho⟩
    cases ho.symm.trans (ofInt_eq_ok_iff.2 ha)

theorem ofInt_eq_overflow_iff_of_signed {n : Int} :
    (ofInt n : Except Failure Int32) = .error .overflow ↔ n < -2 ^ 31 ∨ 2 ^ 31 ≤ n := by
  rw [ofInt_eq_overflow_iff]
  constructor
  · intro h
    by_contra hfits
    obtain ⟨a, -, ha⟩ := exists_ofInt_eq_ok (n := n) (by omega) (by omega)
    exact h a ha
  · intro h a ha
    have hlow := a.le_toInt
    have hhigh := a.toInt_lt
    have ha : a.toInt = n := ha
    omega

theorem mul_eq_overflow_iff_of_unsigned {a b : UInt32} :
    mul a b = .error .overflow ↔ 2 ^ 32 ≤ a.toNat * b.toNat := by
  constructor
  · intro h
    by_contra hfits
    obtain ⟨c, hc, -⟩ := unsigned32.mul_eq_ok (a := a) (b := b) (Nat.not_le.1 hfits)
    cases h.symm.trans hc
  · intro h
    refine ofInt_eq_overflow_iff.2 fun c hc => ?_
    have hlt := c.toNat_lt
    have hc : (c.toNat : Int) = a.toNat * b.toNat := hc
    rw [← Int.natCast_mul, Int.ofNat_inj] at hc
    omega

end Checked

/-! ## Draws -/

namespace Draw

variable {α β : Type} {allowed : Failure → Prop} {r : Rng}

/-- A draw that follows another gives a value if both do. -/
theorem run_bind_eq_ok_iff {x : Draw α} {f : α → Draw β} {b : β} {r' : Rng} :
    (x >>= f).run r = (.ok b, r') ↔
      ∃ a r₁, x.run r = (.ok a, r₁) ∧ (f a).run r₁ = (.ok b, r') := by
  rw [run_bind]
  rcases x.run r with ⟨e | a, r₁⟩
  · exact ⟨nofun, fun ⟨_, _, h, _⟩ => nomatch h⟩
  · exact ⟨fun h => ⟨a, r₁, rfl, h⟩, fun ⟨_, _, ha, h⟩ => by cases ha; exact h⟩

/-- What draws nothing gives its value and leaves the state as it is. -/
theorem run_lift_eq_ok_iff {x : Except Failure α} {a : α} {r' : Rng} :
    (liftM x : Draw α).run r = (.ok a, r') ↔ x = .ok a ∧ r' = r := by
  cases x with
  | error e => exact ⟨nofun, fun ⟨h, _⟩ => nomatch h⟩
  | ok b => exact ⟨fun h => by cases h; exact ⟨rfl, rfl⟩, fun ⟨h, hr⟩ => by cases h; cases hr; rfl⟩

/-- What follows a draw matters only for the values that the draw gives. -/
theorem bind_congr_of_run {x : Draw α} {f g : α → Draw β}
    (h : ∀ a r r', x.run r = (.ok a, r') → f a = g a) : x >>= f = x >>= g := by
  refine funext fun r => ?_
  have hrun : (x >>= f).run r = (x >>= g).run r := by
    rw [run_bind, run_bind]
    rcases hx : x.run r with ⟨e | a, r'⟩
    · rfl
    · exact congrArg (fun y : Draw β => y.run r') (h a r r' hx)
  exact hrun

/-- A run that is seen to succeed gives a value. -/
theorem exists_run_eq_ok {x : Draw α} (h : (x.run r).1.isOk = true) :
    ∃ a r', x.run r = (.ok a, r') := by
  rcases hrun : x.run r with ⟨e | a, r'⟩
  · rw [hrun] at h
    cases h
  · exact ⟨a, r', rfl⟩

/-- Begun in the state `r`, `x` gives a value and leaves a state of the stream of `r` as `post`
says, or it fails as `allowed` admits or because that stream holds a draw that never ends. -/
structure WP (allowed : Failure → Prop) (r : Rng) (x : Draw α) (post : α → Rng → Prop) : Prop where
  of_ok {a : α} {r' : Rng} : x.run r = (.ok a, r') → r.Leads r' ∧ post a r'
  of_error {e : Failure} {r' : Rng} :
    x.run r = (.error e, r') → allowed e ∨ e = .endlessRejection ∧ r.Stuck

/-- Each element of `l` gives the one of `bs` at its place, as `P` says of the state in which its turn
comes and the one that it leaves; the first turn comes in the state `r`, and the last leaves `r'`. -/
inductive InTurn (P : Rng → α → β → Rng → Prop) : Rng → List α → List β → Rng → Prop
  | nil (r : Rng) : InTurn P r [] [] r
  | cons {a : α} {b : β} {l : List α} {bs : List β} {r r₁ r' : Rng} (h : P r a b r₁)
    (rest : InTurn P r₁ l bs r') : InTurn P r (a :: l) (b :: bs) r'

namespace InTurn

variable {P : Rng → α → β → Rng → Prop} {l : List α} {bs : List β} {r' : Rng}

theorem forall₂ {R : α → β → Prop} (h : InTurn P r l bs r')
    (hR : ∀ r a b r', P r a b r' → R a b) : List.Forall₂ R l bs := by
  induction h with
  | nil => exact .nil
  | cons h _ ih => exact .cons (hR _ _ _ _ h) ih

/-- The states between the turns. -/
theorem exists_states (h : InTurn P r l bs r') :
    ∃ state : Nat → Rng, state 0 = r ∧ state l.length = r' ∧ bs.length = l.length ∧
      ∀ i (hi : i < l.length) (hi' : i < bs.length), P (state i) l[i] bs[i] (state (i + 1)) := by
  induction h with
  | nil r => exact ⟨fun _ => r, rfl, rfl, rfl, nofun⟩
  | @cons a b l bs r r₁ r' h _ ih =>
    obtain ⟨state, rfl, hlast, hlength, hturns⟩ := ih
    refine ⟨Stream'.cons r state, rfl, hlast, congrArg (· + 1) hlength, ?_⟩
    rintro (_ | i) hi hi'
    · exact h
    · exact hturns i (Nat.lt_of_succ_lt_succ hi) (Nat.lt_of_succ_lt_succ hi')

end InTurn

namespace WP

theorem of_run_ok {x : Draw α} {a : α} {r' : Rng} {post : α → Rng → Prop}
    (hx : x.run r = (.ok a, r')) (hr : r.Leads r') (h : post a r') : WP allowed r x post :=
  ⟨fun e => by { cases hx.symm.trans e; exact ⟨hr, h⟩ }, fun e => by { cases hx.symm.trans e }⟩

theorem of_run_error {x : Draw α} {e : Failure} {r' : Rng} {post : α → Rng → Prop}
    (hx : x.run r = (.error e, r')) (h : allowed e ∨ e = .endlessRejection ∧ r.Stuck) :
    WP allowed r x post :=
  ⟨fun e => by { cases hx.symm.trans e }, fun e => by { cases hx.symm.trans e; exact h }⟩

theorem pure {a : α} {post : α → Rng → Prop} (h : post a r) : WP allowed r (pure a) post :=
  of_run_ok rfl (.refl r) h

theorem throw {e : Failure} {post : α → Rng → Prop} (h : allowed e) :
    WP allowed r (throw e : Draw α) post :=
  of_run_error rfl (.inl h)

/-- A computation that draws nothing. -/
theorem lift {x : Except Failure α} {post : α → Rng → Prop}
    (h : Checked.WP allowed x fun a => post a r) : WP allowed r (liftM x : Draw α) post := by
  cases x with
  | ok a => exact of_run_ok rfl (.refl r) (h.of_ok rfl)
  | error e => exact of_run_error rfl (.inl (h.of_error rfl))

theorem mono {x : Draw α} {post post' : α → Rng → Prop} (h : WP allowed r x post)
    (hpost : ∀ a r', r.Leads r' → post a r' → post' a r') : WP allowed r x post' :=
  ⟨fun hx => ⟨(h.of_ok hx).1, hpost _ _ (h.of_ok hx).1 (h.of_ok hx).2⟩, h.of_error⟩

/-- What follows a draw begins where that draw left the generator. -/
theorem bind {x : Draw α} {f : α → Draw β} {post : β → Rng → Prop}
    (h : WP allowed r x fun a r' => WP allowed r' (f a) post) : WP allowed r (x >>= f) post := by
  rcases hx : x.run r with ⟨e | a, r₁⟩
  · have hrun : (x >>= f).run r = (.error e, r₁) := by rw [run_bind, hx]
    exact of_run_error hrun (h.of_error hx)
  · obtain ⟨h₁, hf⟩ := h.of_ok hx
    have hrun : (x >>= f).run r = (f a).run r₁ := by rw [run_bind, hx]
    refine ⟨fun hb => ?_, fun he => ?_⟩
    · obtain ⟨h₂, hpost⟩ := hf.of_ok (hrun ▸ hb)
      exact ⟨h₁.trans h₂, hpost⟩
    · exact (hf.of_error (hrun ▸ he)).imp_right (And.imp_right h₁.stuck)

/-- The value that a draw gives is the one of its run. -/
theorem run {x : Draw α} {post : α → Rng → Prop} (h : WP allowed r x post) :
    WP allowed r x fun a r' => x.run r = (.ok a, r') ∧ post a r' :=
  ⟨fun hx => ⟨(h.of_ok hx).1, hx, (h.of_ok hx).2⟩, h.of_error⟩

/-- The elements of a list are drawn for one after another, each from the state that was left. -/
theorem mapM_inTurn {P : Rng → α → β → Rng → Prop} {f : α → Draw β} (l : List α)
    (h : ∀ a ∈ l, ∀ r, WP allowed r (f a) (P r a)) (r : Rng) :
    WP allowed r (l.mapM f) fun bs r' => InTurn P r l bs r' := by
  induction l generalizing r with
  | nil => exact pure (.nil r)
  | cons a l ih =>
    rw [List.mapM_cons]
    refine bind (mono (h a List.mem_cons_self r) fun b r₁ _ hb => ?_)
    refine bind (mono (ih (fun a' ha' => h a' (List.mem_cons_of_mem _ ha')) r₁) fun bs r₂ _ hbs => ?_)
    exact pure (.cons hb hbs)

/-- What each element of a list gives, if the state in which its turn comes does not matter. -/
theorem mapM {R : α → β → Prop} {f : α → Draw β} (l : List α)
    (h : ∀ a ∈ l, ∀ r, WP allowed r (f a) fun b _ => R a b) (r : Rng) :
    WP allowed r (l.mapM f) fun bs _ => List.Forall₂ R l bs :=
  .mono (mapM_inTurn l h r) fun _ _ _ hturns => hturns.forall₂ fun _ _ _ _ hR => hR

theorem collect {f : Voice → Draw α} (post : Voice → α → Prop)
    (h : ∀ voice r, WP allowed r (f voice) fun a _ => post voice a) (r : Rng) :
    WP allowed r (Quartet.collect f) fun q _ => ∀ voice, post voice (q.get voice) := by
  refine bind (mono (h .bass r) fun bass r₁ _ hbass => ?_)
  refine bind (mono (h .tenor r₁) fun tenor r₂ _ htenor => ?_)
  refine bind (mono (h .alto r₂) fun alto r₃ _ halto => ?_)
  refine bind (mono (h .soprano r₃) fun soprano _ _ hsoprano => pure fun voice => ?_)
  cases voice with
  | bass => exact hbass
  | tenor => exact htenor
  | alto => exact halto
  | soprano => exact hsoprano

end WP

end Draw

end Chorale
