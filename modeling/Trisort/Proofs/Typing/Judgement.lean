import Trisort.Proofs.Reduction

/-!
# The typing judgement

`HasType Γ t T` says that the nameless term `t` has the type `T` when the variables in scope have
the types `Γ`. There is one rule for each form of term and the rule of conversion, which changes a
type to a convertible one that has a type itself.

The theory is easier for the variant `SortedTyping`, in which the conversion rule and the rule for
annotations want the new type to have a universe for its type. The rules are therefore given once,
by `Typing P`, where `P` says what the type of a type may be. In `Preservation` the two judgements
are shown to be the same over well-formed assumptions.

This module has the structural part: derivations can be renamed (`Typing.rename`), variables can be
replaced by terms of their types (`Typing.substitute`), and the last rule of a derivation can
be read off from the term, up to conversion (`Typing.generated`).
-/

namespace Trisort.Nameless

/-- The types of the variables in scope, the nearest first. All are stated in the scope of the whole
list. -/
abbrev Assumptions := List Nameless

/-- The assumptions under a binder of type `A`. -/
def Assumptions.enter (Γ : Assumptions) (A : Nameless) : Assumptions := (A :: Γ).map weaken

/-- The types of the constants. The universe `Sort` has none. -/
inductive ConstantType : Constant → Nameless → Prop where
  | type : ConstantType (.univ .type) (.univ .kind)
  | kind : ConstantType (.univ .kind) (.univ .sort)
  | doubleType : ConstantType .doubleType (.univ .type)
  | boolType : ConstantType .boolType (.univ .type)
  | naturalType : ConstantType .naturalType (.univ .type)
  | integerType : ConstantType .integerType (.univ .type)
  | listType : ConstantType .listType (.pi (.univ .type) (.univ .type))
  | double (x : Double) : ConstantType (.double x) (.const .doubleType)
  | bool (b : Bool) : ConstantType (.bool b) (.const .boolType)
  | natural (n : UInt64) : ConstantType (.natural n) (.const .naturalType)
  | integer (i : Int64) : ConstantType (.integer i) (.const .integerType)

/-- The rules of typing. A type that a term is given by conversion or by an annotation must have a
type `K` such that `P K`. -/
inductive Typing (P : Nameless → Prop) : Assumptions → Nameless → Nameless → Prop where
  | const {Γ : Assumptions} {c : Constant} {T : Nameless} (h : ConstantType c T) :
      Typing P Γ (.const c) T
  | var {Γ : Assumptions} {k : Nat} {A : Nameless} (h : Γ[k]? = some A) : Typing P Γ (.bound k) A
  | pi {Γ : Assumptions} {A B : Nameless} {u v w : Universe} (hA : Typing P Γ A (.univ u))
      (hB : Typing P (Γ.enter A) B (.univ v)) (h : u.function? v = some w) :
      Typing P Γ (.pi A B) (.univ w)
  | lam {Γ : Assumptions} {A b B : Nameless} {w : Universe} (hpi : Typing P Γ (.pi A B) (.univ w))
      (hb : Typing P (Γ.enter A) b B) : Typing P Γ (.lam A b) (.pi A B)
  | app {Γ : Assumptions} {f a A B : Nameless} (hf : Typing P Γ f (.pi A B))
      (ha : Typing P Γ a A) : Typing P Γ (.app f a) (B.instantiate a)
  | annot {Γ : Assumptions} {e A K : Nameless} (he : Typing P Γ e A) (hA : Typing P Γ A K)
      (hK : P K) : Typing P Γ (.annot e A) A
  | arith {Γ : Assumptions} (op : Operation) {l r : Nameless}
      (hl : Typing P Γ l (.const .naturalType)) (hr : Typing P Γ r (.const .naturalType)) :
      Typing P Γ (.arith op l r) (.const .naturalType)
  | nil {Γ : Assumptions} {A : Nameless} (hA : Typing P Γ A (.univ .type)) :
      Typing P Γ (.nil A) (listOf A)
  | list {Γ : Assumptions} {e A : Nameless} {es : List Nameless}
      (hA : Typing P Γ A (.univ .type)) (he : Typing P Γ e A)
      (hes : ∀ e' ∈ es, Typing P Γ e' A) : Typing P Γ (.list e es) (listOf A)
  | conv {Γ : Assumptions} {t T T' K : Nameless} (ht : Typing P Γ t T) (h : Conv T T')
      (hT' : Typing P Γ T' K) (hK : P K) : Typing P Γ t T'

/-- The typing judgement. -/
abbrev HasType : Assumptions → Nameless → Nameless → Prop := Typing fun _ => True

/-- The term is a universe. -/
def IsUniverse (t : Nameless) : Prop := ∃ u, t = .univ u

/-- The universes are universes. -/
theorem isUniverse_univ (u : Universe) : IsUniverse (.univ u) := ⟨u, rfl⟩

/-- The typing judgement in which every type that a term is given has a universe for its type. -/
abbrev SortedTyping : Assumptions → Nameless → Nameless → Prop := Typing IsUniverse

/-- What is derived with universes for the types of types is derived. -/
theorem Typing.hasType {Γ : Assumptions} {t T : Nameless} (h : SortedTyping Γ t T) :
    HasType Γ t T := by
  induction h with
  | const h => exact .const h
  | var h => exact .var h
  | pi _ _ h ihA ihB => exact .pi ihA ihB h
  | lam _ _ ihpi ihb => exact .lam ihpi ihb
  | app _ _ ihf iha => exact .app ihf iha
  | annot _ _ _ ihe ihA => exact .annot ihe ihA trivial
  | arith op _ _ ihl ihr => exact .arith op ihl ihr
  | nil _ ihA => exact .nil ihA
  | list _ _ _ ihA ihe ihes => exact .list ihA ihe ihes
  | conv _ h _ _ iht ihT' => exact .conv iht h ihT' trivial

/-! ### Generation -/

section Generation

variable {P : Nameless → Prop} {Γ : Assumptions} {t T T' : Nameless}

/-- What must have been derived before a term was given a type by the rule for its form, up to
conversion of that type. -/
def Generated (P : Nameless → Prop) (Γ : Assumptions) : Nameless → Nameless → Prop
  | .const c, T => ∃ C, ConstantType c C ∧ Conv C T
  | .bound k, T => ∃ A, Γ[k]? = some A ∧ Conv A T
  | .free _ _, _ => False
  | .pi A B, T => ∃ u v w, Typing P Γ A (.univ u) ∧ Typing P (Γ.enter A) B (.univ v) ∧
      u.function? v = some w ∧ Conv (.univ w) T
  | .lam A b, T => ∃ B w, Typing P Γ (.pi A B) (.univ w) ∧ Typing P (Γ.enter A) b B ∧
      Conv (.pi A B) T
  | .app f a, T => ∃ A B, Typing P Γ f (.pi A B) ∧ Typing P Γ a A ∧ Conv (B.instantiate a) T
  | .annot e A, T => ∃ K, Typing P Γ e A ∧ Typing P Γ A K ∧ P K ∧ Conv A T
  | .arith _ l r, T => Typing P Γ l (.const .naturalType) ∧ Typing P Γ r (.const .naturalType) ∧
      Conv (.const .naturalType) T
  | .nil A, T => Typing P Γ A (.univ .type) ∧ Conv (listOf A) T
  | .list e es, T => ∃ A, Typing P Γ A (.univ .type) ∧ Typing P Γ e A ∧
      (∀ e' ∈ es, Typing P Γ e' A) ∧ Conv (listOf A) T

/-- Conversion does not change what must have been derived before. -/
theorem Generated.conv (h : Generated P Γ t T) (hconv : Conv T T') : Generated P Γ t T' := by
  cases t with
  | const c =>
    obtain ⟨C, hC, hc⟩ := h
    exact ⟨C, hC, hc.trans hconv⟩
  | bound k =>
    obtain ⟨A, hA, hc⟩ := h
    exact ⟨A, hA, hc.trans hconv⟩
  | free x i => exact h
  | binder k A b =>
    cases k with
    | lambda =>
      obtain ⟨B, w, hpi, hb, hc⟩ := h
      exact ⟨B, w, hpi, hb, hc.trans hconv⟩
    | pi =>
      obtain ⟨u, v, w, hA, hB, hw, hc⟩ := h
      exact ⟨u, v, w, hA, hB, hw, hc.trans hconv⟩
  | app f a =>
    obtain ⟨A, B, hf, ha, hc⟩ := h
    exact ⟨A, B, hf, ha, hc.trans hconv⟩
  | annot e A =>
    obtain ⟨K, he, hA, hK, hc⟩ := h
    exact ⟨K, he, hA, hK, hc.trans hconv⟩
  | arith op l r =>
    obtain ⟨hl, hr, hc⟩ := h
    exact ⟨hl, hr, hc.trans hconv⟩
  | nil A =>
    obtain ⟨hA, hc⟩ := h
    exact ⟨hA, hc.trans hconv⟩
  | list e es =>
    obtain ⟨A, hA, he, hes, hc⟩ := h
    exact ⟨A, hA, he, hes, hc.trans hconv⟩

/-- A derivation ends with the rule for the form of its term, followed by conversions. -/
theorem Typing.generated (h : Typing P Γ t T) : Generated P Γ t T := by
  induction h with
  | const h => exact ⟨_, h, .refl _⟩
  | var h => exact ⟨_, h, .refl _⟩
  | pi hA hB h _ _ => exact ⟨_, _, _, hA, hB, h, .refl _⟩
  | lam hpi hb _ _ => exact ⟨_, _, hpi, hb, .refl _⟩
  | app hf ha _ _ => exact ⟨_, _, hf, ha, .refl _⟩
  | annot he hA hK _ _ => exact ⟨_, he, hA, hK, .refl _⟩
  | arith op hl hr _ _ => exact ⟨hl, hr, .refl _⟩
  | nil hA _ => exact ⟨hA, .refl _⟩
  | list hA he hes _ _ _ => exact ⟨_, hA, he, hes, .refl _⟩
  | conv _ h _ _ ih _ => exact ih.conv h

/-- The highest universe has no type. -/
theorem Typing.not_sort (h : Typing P Γ (.univ .sort) T) : False := by
  obtain ⟨C, hC, -⟩ := h.generated
  cases hC

end Generation

/-! ### Renaming -/

namespace Assumptions

/-- Under a binder, the nearest variable has the type of the binder. -/
@[simp] theorem getElem?_enter_zero (Γ : Assumptions) (A : Nameless) :
    (Γ.enter A)[0]? = some A.weaken := rfl

/-- Under a binder, the other variables keep their types. -/
@[simp] theorem getElem?_enter_succ (Γ : Assumptions) (A : Nameless) (k : Nat) :
    (Γ.enter A)[k + 1]? = Γ[k]?.map weaken := by
  simp [enter]

/-- The renaming takes each variable of `Γ` to one of `Δ` of the same type. -/
def Renames (ξ : Nat → Nat) (Γ Δ : Assumptions) : Prop :=
  ∀ k A, Γ[k]? = some A → Δ[ξ k]? = some (A.rename ξ)

/-- A renaming that keeps types does so under a binder. -/
theorem Renames.enter {ξ : Nat → Nat} {Γ Δ : Assumptions} (h : Renames ξ Γ Δ) (A : Nameless) :
    Renames (liftRenaming ξ) (Γ.enter A) (Δ.enter (A.rename ξ)) := by
  intro k B hB
  cases k with
  | zero =>
    rw [getElem?_enter_zero, Option.some.injEq] at hB
    subst hB
    rw [rename_liftRenaming_weaken]
    rfl
  | succ k =>
    rw [getElem?_enter_succ, Option.map_eq_some_iff] at hB
    obtain ⟨C, hC, rfl⟩ := hB
    rw [rename_liftRenaming_weaken, liftRenaming, getElem?_enter_succ, h k C hC]
    rfl

/-- Making room for a binder keeps the types of the variables. -/
theorem renames_enter (Γ : Assumptions) (A : Nameless) : Renames Nat.succ Γ (Γ.enter A) := by
  intro k B hB
  rw [getElem?_enter_succ, hB]
  rfl

end Assumptions

/-- A renamed universe is a universe. -/
theorem IsUniverse.rename {K : Nameless} (h : IsUniverse K) (ξ : Nat → Nat) :
    IsUniverse (K.rename ξ) := by
  obtain ⟨u, rfl⟩ := h
  exact isUniverse_univ u

/-- A universe stays one when terms are put for variables. -/
theorem IsUniverse.substitute {K : Nameless} (h : IsUniverse K) (σ : Nat → Nameless) :
    IsUniverse (K.substitute σ) := by
  obtain ⟨u, rfl⟩ := h
  exact isUniverse_univ u

/-- The types of constants have no variables. -/
theorem ConstantType.substitute {c : Constant} {T : Nameless} (h : ConstantType c T)
    (σ : Nat → Nameless) : T.substitute σ = T := by
  cases h <;> rfl

/-- The type of a constant has no variables to rename. -/
theorem ConstantType.rename {c : Constant} {T : Nameless} (h : ConstantType c T)
    (ξ : Nat → Nat) : T.rename ξ = T := by
  rw [rename_eq_substitute, h.substitute]

namespace Typing

open Assumptions

variable {Γ Δ : Assumptions} {t T : Nameless}

/-- A derivation can be renamed. -/
theorem rename (h : SortedTyping Γ t T) {ξ : Nat → Nat} (hξ : Renames ξ Γ Δ) :
    SortedTyping Δ (t.rename ξ) (T.rename ξ) := by
  induction h generalizing Δ ξ with
  | const h =>
    rw [h.rename]
    exact .const h
  | var h => exact .var (hξ _ _ h)
  | pi _ _ h ihA ihB => exact .pi (ihA hξ) (ihB (hξ.enter _)) h
  | lam _ _ ihpi ihb => exact .lam (ihpi hξ) (ihb (hξ.enter _))
  | app _ _ ihf iha =>
    rw [rename_instantiate]
    exact .app (ihf hξ) (iha hξ)
  | annot _ _ hK ihe ihA => exact .annot (ihe hξ) (ihA hξ) (hK.rename ξ)
  | arith op _ _ ihl ihr => exact .arith op (ihl hξ) (ihr hξ)
  | nil _ ihA => exact .nil (ihA hξ)
  | list _ _ _ ihA ihe ihes =>
    rw [Nameless.rename, renameAll_eq_map]
    refine .list (ihA hξ) (ihe hξ) ?_
    intro e' he'
    obtain ⟨e, he, rfl⟩ := List.mem_map.mp he'
    exact ihes e he hξ
  | conv _ h _ hK iht ihT' => exact .conv (iht hξ) (h.rename ξ) (ihT' hξ) (hK.rename ξ)

/-- What is derivable stays so under one more binder. -/
theorem weaken (h : SortedTyping Γ t T) (A : Nameless) :
    SortedTyping (Γ.enter A) t.weaken T.weaken :=
  h.rename (renames_enter Γ A)

/-! ### Substitution -/

/-- The substitution puts terms of the right types for the variables of `Γ`. -/
def Substitutes (σ : Nat → Nameless) (Γ Δ : Assumptions) : Prop :=
  ∀ k A, Γ[k]? = some A → SortedTyping Δ (σ k) (A.substitute σ)

/-- Terms of the right types can be put for variables under a binder. -/
theorem Substitutes.enter {σ : Nat → Nameless} (h : Substitutes σ Γ Δ) (A : Nameless) :
    Substitutes (lift σ) (Γ.enter A) (Δ.enter (A.substitute σ)) := by
  intro k B hB
  cases k with
  | zero =>
    rw [getElem?_enter_zero, Option.some.injEq] at hB
    subst hB
    rw [substitute_lift_weaken]
    exact .var rfl
  | succ k =>
    rw [getElem?_enter_succ, Option.map_eq_some_iff] at hB
    obtain ⟨C, hC, rfl⟩ := hB
    rw [substitute_lift_weaken]
    exact (h k C hC).weaken _

/-- Terms of the right types can be put for the variables of a derivation. -/
theorem substitute (h : SortedTyping Γ t T) {σ : Nat → Nameless} (hσ : Substitutes σ Γ Δ) :
    SortedTyping Δ (t.substitute σ) (T.substitute σ) := by
  induction h generalizing Δ σ with
  | const h =>
    rw [h.substitute]
    exact .const h
  | var h => exact hσ _ _ h
  | pi _ _ h ihA ihB => exact .pi (ihA hσ) (ihB (hσ.enter _)) h
  | lam _ _ ihpi ihb => exact .lam (ihpi hσ) (ihb (hσ.enter _))
  | app _ _ ihf iha =>
    rw [substitute_instantiate]
    exact .app (ihf hσ) (iha hσ)
  | annot _ _ hK ihe ihA => exact .annot (ihe hσ) (ihA hσ) (hK.substitute σ)
  | arith op _ _ ihl ihr => exact .arith op (ihl hσ) (ihr hσ)
  | nil _ ihA => exact .nil (ihA hσ)
  | list _ _ _ ihA ihe ihes =>
    rw [Nameless.substitute, substituteAll_eq_map]
    refine .list (ihA hσ) (ihe hσ) ?_
    intro e' he'
    obtain ⟨e, he, rfl⟩ := List.mem_map.mp he'
    exact ihes e he hσ
  | conv _ h _ hK iht ihT' => exact .conv (iht hσ) (h.substitute σ) (ihT' hσ) (hK.substitute σ)

/-- A binder can be filled with a term of its type. -/
theorem instantiate {A b B a : Nameless} (hb : SortedTyping (Γ.enter A) b B)
    (ha : SortedTyping Γ a A) : SortedTyping Γ (b.instantiate a) (B.instantiate a) := by
  refine hb.substitute ?_
  intro k C hC
  cases k with
  | zero =>
    rw [getElem?_enter_zero, Option.some.injEq] at hC
    subst hC
    have hweaken : A.weaken.substitute (extend a bound) = A := instantiate_weaken A a
    rwa [hweaken]
  | succ k =>
    rw [getElem?_enter_succ, Option.map_eq_some_iff] at hC
    obtain ⟨D, hD, rfl⟩ := hC
    have hweaken : D.weaken.substitute (extend a bound) = D := instantiate_weaken D a
    rw [hweaken]
    exact .var hD

/-- The type of a binder may be exchanged for a convertible one. -/
theorem exchange {A A' b B : Nameless} {u : Universe} (hb : SortedTyping (Γ.enter A) b B)
    (hA : SortedTyping Γ A (.univ u)) (h : Conv A A') : SortedTyping (Γ.enter A') b B := by
  have hσ : Substitutes bound (Γ.enter A) (Γ.enter A') := by
    intro k C hC
    rw [substitute_bound]
    cases k with
    | zero =>
      rw [getElem?_enter_zero, Option.some.injEq] at hC
      subst hC
      have hvar : SortedTyping (Γ.enter A') (.bound 0) A'.weaken := .var rfl
      exact .conv hvar (h.symm.rename Nat.succ) (hA.weaken A') (isUniverse_univ u)
    | succ k =>
      rw [getElem?_enter_succ] at hC
      exact .var (by rw [getElem?_enter_succ, hC])
  have hsub := hb.substitute hσ
  rwa [substitute_bound, substitute_bound] at hsub

end Typing

end Trisort.Nameless
