import Trisort.Proofs.Termination.RealizedTypes

/-!
# The interpretation of terms

`value ρ t` is the set that interprets the term `t` when `ρ` interprets its variables. A universe is
the type of the types in it, a function type a product, a `λ` a function on the elements of its
type. Of literals, arithmetic and lists nothing is kept, their value is the empty set.

The value of a function at a set outside its domain is empty, and there contracting a redex may
change the value of a term. In a meaningful term no function is applied outside its domain.
Meaningful terms stay so under steps, and keep their values (`Meaningful.step`). So convertible
terms have the same value if both are meaningful (`value_eq_of_conv`); nothing has to be known about
their types.
-/

namespace Trisort.Nameless

open Value

/-- The value of a constant. The type constructor for lists is a function on the propositions. -/
noncomputable def Value.ofConstant : Constant → Value
  | .univ u => ofUniverse u
  | .doubleType | .boolType | .naturalType | .integerType => collection {∅}
  | .listType => lam (elements (ofUniverse .type)) fun _ => collection {∅}
  | .double _ | .bool _ | .natural _ | .integer _ => ∅

/-- The value of a binder of a type with the value `X` that binds its variable in the family `F`. -/
noncomputable def Value.ofBinder (k : Binder) (X : Value) (F : Value → Value) : Value :=
  match k with
  | .lambda => lam (elements X) F
  | .pi => product X F

/-- The value of a binder is determined by the family on the elements of its type. -/
theorem Value.ofBinder_congr (k : Binder) {X : Value} {F G : Value → Value}
    (h : ∀ x ∈ elements X, F x = G x) : ofBinder k X F = ofBinder k X G := by
  cases k with
  | lambda => exact lam_congr h
  | pi => exact product_congr h

/-- The values of variables under one more binder, whose variable has the value `x`. -/
def push (x : Value) (ρ : Nat → Value) : Nat → Value
  | 0 => x
  | k + 1 => ρ k

/-- The value of a term, given those of its variables. -/
noncomputable def value (ρ : Nat → Value) : Nameless → Value
  | .const c => ofConstant c
  | .bound k => ρ k
  | .binder k A b => ofBinder k (value ρ A) fun x => value (push x ρ) b
  | .app f a => Value.app (value ρ f) (value ρ a)
  | .annot e _ => value ρ e
  | .free _ _ | .arith _ _ _ | .nil _ | .list _ _ => ∅

/-- Every function in the term is applied within its domain, and the families that function types
are made of are uniform. What has no value, or has it from elsewhere, is of no concern. -/
def Meaningful (ρ : Nat → Value) : Nameless → Prop
  | .binder k A b => Meaningful ρ A ∧
      (∀ x ∈ elements (value ρ A), Meaningful (push x ρ) b) ∧
      (k = .pi → IsType (value ρ A) ∧ Uniform (value ρ A) fun x => value (push x ρ) b)
  | .app f a => Meaningful ρ f ∧ Meaningful ρ a ∧ Value.app (value ρ f) (value ρ a) ≠ ∅
  | .annot e _ => Meaningful ρ e
  | .const _ | .bound _ | .free _ _ | .arith _ _ _ | .nil _ | .list _ _ => True

variable {ρ : Nat → Value} {t u : Nameless}

/-- A `λ` is interpreted by a function on the elements of its type. -/
theorem value_lam (ρ : Nat → Value) (A b : Nameless) :
    value ρ (.lam A b) = Value.lam (elements (value ρ A)) fun x => value (push x ρ) b := by
  rw [value, ofBinder]

/-- A function type is interpreted by a product. -/
theorem value_pi (ρ : Nat → Value) (A B : Nameless) :
    value ρ (.pi A B) = product (value ρ A) fun x => value (push x ρ) B := by
  rw [value, ofBinder]

/-- An application is interpreted by the value of the function at that of the argument. -/
theorem value_app (ρ : Nat → Value) (f a : Nameless) :
    value ρ (.app f a) = Value.app (value ρ f) (value ρ a) := by
  rw [value]

/-! ### Renaming and substitution -/

/-- A renaming under a binder leaves the value of its variable alone. -/
theorem push_comp_liftRenaming (x : Value) (ρ : Nat → Value) (ξ : Nat → Nat) :
    push x ρ ∘ liftRenaming ξ = push x (ρ ∘ ξ) := by
  funext k
  cases k <;> rfl

/-- The value of a renamed term is found by renaming the values of variables. -/
@[simp] theorem value_rename (ρ : Nat → Value) (ξ : Nat → Nat) (t : Nameless) :
    value ρ (t.rename ξ) = value (ρ ∘ ξ) t := by
  induction t generalizing ρ ξ with
  | const | bound | free | arith | nil | list => rfl
  | binder k A b ihA ihb => simp [value, ihA, ihb, push_comp_liftRenaming]
  | app f a ihf iha => simp [value, ihf, iha]
  | annot e A ihe _ => simp [value, ihe]

/-- A term that does not mention the nearest binder does not depend on the value of its variable. -/
theorem value_weaken (x : Value) (ρ : Nat → Value) (t : Nameless) :
    value (push x ρ) t.weaken = value ρ t :=
  value_rename _ _ t

/-- Under a binder, the terms put for variables keep their values, and the binder's variable keeps
its own. -/
theorem value_lift (x : Value) (ρ : Nat → Value) (σ : Nat → Nameless) :
    (fun k => value (push x ρ) (lift σ k)) = push x fun k => value ρ (σ k) := by
  funext k
  cases k with
  | zero => rfl
  | succ k => exact value_weaken x ρ (σ k)

/-- Putting terms for variables is the same as putting their values. -/
theorem value_substitute (ρ : Nat → Value) (σ : Nat → Nameless) (t : Nameless) :
    value ρ (t.substitute σ) = value (fun k => value ρ (σ k)) t := by
  induction t generalizing ρ σ with
  | const | bound | free | arith | nil | list => rfl
  | binder k A b ihA ihb => simp [value, ihA, ihb, value_lift]
  | app f a ihf iha => simp [value, ihf, iha]
  | annot e A ihe _ => simp [value, ihe]

/-- Filling a binder gives its variable the value of what it is filled with. -/
theorem value_extend_bound (ρ : Nat → Value) (a : Nameless) :
    (fun k => value ρ (extend a bound k)) = push (value ρ a) ρ := by
  funext k
  cases k <;> rfl

/-- The value of a filled body is that of the body, where the variable has the value of the
argument. -/
theorem value_instantiate (ρ : Nat → Value) (b a : Nameless) :
    value ρ (b.instantiate a) = value (push (value ρ a) ρ) b := by
  rw [instantiate, value_substitute, value_extend_bound]

/-- A renamed term is meaningful if the term is for the renamed values of variables. -/
@[simp] theorem meaningful_rename (ρ : Nat → Value) (ξ : Nat → Nat) (t : Nameless) :
    Meaningful ρ (t.rename ξ) ↔ Meaningful (ρ ∘ ξ) t := by
  induction t generalizing ρ ξ with
  | const | bound | free | arith | nil | list => rfl
  | binder k A b ihA ihb => simp [Meaningful, ihA, ihb, push_comp_liftRenaming]
  | app f a ihf iha => simp [Meaningful, ihf, iha]
  | annot e A ihe _ => simp [Meaningful, ihe]

/-- Whether a term that does not mention the nearest binder is meaningful does not depend on its
variable. -/
theorem meaningful_weaken (x : Value) (ρ : Nat → Value) (t : Nameless) :
    Meaningful (push x ρ) t.weaken ↔ Meaningful ρ t :=
  meaningful_rename _ _ t

/-- A term stays meaningful if meaningful terms are put for its variables. -/
theorem Meaningful.substitute {σ : Nat → Nameless} (ht : Meaningful (fun k => value ρ (σ k)) t)
    (hσ : ∀ k, Meaningful ρ (σ k)) : Meaningful ρ (t.substitute σ) := by
  induction t generalizing ρ σ with
  | const | free | arith | nil | list => trivial
  | bound k => exact hσ k
  | binder k A b ihA ihb =>
    obtain ⟨hA, hb, hk⟩ := ht
    simp only [Nameless.substitute, Meaningful, value_substitute, value_lift]
    refine ⟨ihA hA hσ, fun x hx => ihb ?_ ?_, hk⟩
    · rw [value_lift]
      exact hb x hx
    · intro k
      cases k with
      | zero => trivial
      | succ k => exact (meaningful_weaken x ρ (σ k)).mpr (hσ k)
  | app f a ihf iha =>
    obtain ⟨hf, ha, hne⟩ := ht
    simp only [Nameless.substitute, Meaningful, value_substitute]
    exact ⟨ihf hf hσ, iha ha hσ, hne⟩
  | annot e A ihe _ => exact ihe ht hσ

/-- A meaningful body filled with a meaningful argument is meaningful. -/
theorem Meaningful.instantiate {b a : Nameless} (hb : Meaningful (push (value ρ a) ρ) b)
    (ha : Meaningful ρ a) : Meaningful ρ (b.instantiate a) := by
  apply Meaningful.substitute
  · rwa [value_extend_bound]
  · intro k
    cases k with
    | zero => exact ha
    | succ k => trivial

/-! ### Steps -/

/-- A step within a meaningful term does not change its value. -/
theorem Meaningful.step (ht : Meaningful ρ t) (h : Step t u) :
    Meaningful ρ u ∧ value ρ u = value ρ t := by
  induction h generalizing ρ with
  | beta A b a =>
    obtain ⟨⟨hA, hb, -⟩, ha, hne⟩ := ht
    rw [value_lam] at hne
    -- The value of the redex is not empty, so the argument lies in the domain.
    have hmem : value ρ a ∈ elements (value ρ A) := mem_of_app_lam_ne_empty hne
    refine ⟨(hb _ hmem).instantiate ha, ?_⟩
    rw [value_instantiate, value_app, value_lam, app_lam hmem]
  | erase e A => exact ⟨ht, rfl⟩
  | compute | arithLeft | arithRight | nilType | listHead | listTail => exact ⟨trivial, rfl⟩
  | binderType k b _ ih =>
    obtain ⟨hA, hb, hk⟩ := ht
    obtain ⟨hA', heq⟩ := ih hA
    simp only [Meaningful, value, heq]
    exact ⟨⟨hA', hb, hk⟩, trivial⟩
  | binderBody k A _ ih =>
    obtain ⟨hA, hb, hk⟩ := ht
    have hbody := fun x hx => ih (hb x hx)
    refine ⟨⟨hA, fun x hx => (hbody x hx).1, fun hpi => ?_⟩, ?_⟩
    · obtain ⟨htype, huniform⟩ := hk hpi
      exact ⟨htype, huniform.congr fun x hx => (hbody x hx).2.symm⟩
    · exact ofBinder_congr k fun x hx => (hbody x hx).2
  | appFunction a _ ih =>
    obtain ⟨hf, ha, hne⟩ := ht
    obtain ⟨hf', heq⟩ := ih hf
    simp only [Meaningful, value, heq]
    exact ⟨⟨hf', ha, hne⟩, trivial⟩
  | appArgument f _ ih =>
    obtain ⟨hf, ha, hne⟩ := ht
    obtain ⟨ha', heq⟩ := ih ha
    simp only [Meaningful, value, heq]
    exact ⟨⟨hf, ha', hne⟩, trivial⟩
  | annotTerm A _ ih => exact ih ht
  | annotType e _ _ => exact ⟨ht, rfl⟩

/-- Meaningful terms stay so under reduction, and keep their values. -/
theorem Meaningful.reduces (ht : Meaningful ρ t) (h : Reduces t u) :
    Meaningful ρ u ∧ value ρ u = value ρ t := by
  induction h with
  | refl => exact ⟨ht, rfl⟩
  | tail _ hstep ih =>
    obtain ⟨hu, heq⟩ := ih
    obtain ⟨hv, heq'⟩ := hu.step hstep
    exact ⟨hv, heq'.trans heq⟩

/-- Convertible terms have the same value if both are meaningful. -/
theorem value_eq_of_conv (h : Conv t u) (ht : Meaningful ρ t) (hu : Meaningful ρ u) :
    value ρ t = value ρ u := by
  obtain ⟨v, htv, huv⟩ := conv_iff_join.mp h
  exact (ht.reduces htv).2.symm.trans (hu.reduces huv).2

end Trisort.Nameless
