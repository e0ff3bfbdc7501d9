import Trisort.Term.Basic
import Mathlib.Logic.Function.Iterate

/-!
# Nameless terms

In a nameless term an occurrence that refers to a binder of the term is the number of binders
between the two, and binders carry no label. Two terms are the same nameless term exactly if they
differ in the labels of binders only. A variable that no binder of the term accounts for keeps its
name and its index.

Renamings and substitutions are functions on all bound occurrences at once. The algebra they obey
(`rename_rename`, `substitute_rename`, `rename_substitute`, `substitute_substitute`) is what the
theory of reduction and of typing needs to know about binding; `substitute_instantiate` is the
substitution lemma.
-/

namespace Trisort

/-- A term with the labels of binders left out. -/
inductive Nameless where
  | const (c : Constant)
  /-- The variable of the binder that `k` other binders separate from the occurrence. -/
  | bound (k : Nat)
  /-- The variable `x@i` of the surroundings. -/
  | free (x : Label) (i : Nat)
  | binder (k : Binder) (type body : Nameless)
  | app (function argument : Nameless)
  | annot (term type : Nameless)
  | arith (op : Operation) (left right : Nameless)
  | nil (elementType : Nameless)
  | list (head : Nameless) (tail : List Nameless)

namespace Nameless

/-- `λA. b`. -/
@[match_pattern] abbrev lam (A b : Nameless) : Nameless := .binder .lambda A b

/-- `∀A. B`. -/
@[match_pattern] abbrev pi (A B : Nameless) : Nameless := .binder .pi A B

/-- A universe. -/
@[match_pattern] abbrev univ (u : Universe) : Nameless := .const (.univ u)

/-- A natural literal. -/
@[match_pattern] abbrev natural (n : UInt64) : Nameless := .const (.natural n)

/-- The type of the lists of elements of type `A`. -/
def listOf (A : Nameless) : Nameless := .app (.const .listType) A

/-- Induction on nameless terms. The elements of a list literal are subterms of it. -/
@[elab_as_elim, induction_eliminator]
theorem induct {motive : Nameless → Prop}
    (const : ∀ c, motive (.const c))
    (bound : ∀ k, motive (.bound k))
    (free : ∀ x i, motive (.free x i))
    (binder : ∀ k A b, motive A → motive b → motive (.binder k A b))
    (app : ∀ f a, motive f → motive a → motive (.app f a))
    (annot : ∀ e A, motive e → motive A → motive (.annot e A))
    (arith : ∀ op l r, motive l → motive r → motive (.arith op l r))
    (nil : ∀ A, motive A → motive (.nil A))
    (list : ∀ e es, motive e → (∀ e' ∈ es, motive e') → motive (.list e es))
    (t : Nameless) : motive t := by
  refine @Nameless.rec motive (fun es => ∀ e ∈ es, motive e) const bound free binder app annot
    arith nil list ?_ ?_ t
  · simp
  · rintro e es he hes e' (_ | ⟨_, h⟩)
    · exact he
    · exact hes e' h

/-! ### Renaming -/

/-- A renaming as seen from under one more binder. -/
def liftRenaming (ξ : Nat → Nat) : Nat → Nat
  | 0 => 0
  | k + 1 => ξ k + 1

mutual

/-- The term with its bound occurrences renumbered. -/
@[simp] def rename (ξ : Nat → Nat) : Nameless → Nameless
  | .const c => .const c
  | .bound k => .bound (ξ k)
  | .free x i => .free x i
  | .binder k A b => .binder k (rename ξ A) (rename (liftRenaming ξ) b)
  | .app f a => .app (rename ξ f) (rename ξ a)
  | .annot e A => .annot (rename ξ e) (rename ξ A)
  | .arith op l r => .arith op (rename ξ l) (rename ξ r)
  | .nil A => .nil (rename ξ A)
  | .list e es => .list (rename ξ e) (renameAll ξ es)

/-- The terms of a list with their bound occurrences renumbered. -/
def renameAll (ξ : Nat → Nat) : List Nameless → List Nameless
  | [] => []
  | e :: es => rename ξ e :: renameAll ξ es

end

/-- The term as seen from under one more binder. -/
abbrev weaken (t : Nameless) : Nameless := t.rename Nat.succ

/-- Renaming in a list of terms is renaming in each of them. -/
@[simp] theorem renameAll_eq_map (ξ : Nat → Nat) (es : List Nameless) :
    renameAll ξ es = es.map (rename ξ) := by
  induction es with
  | nil => rfl
  | cons e es ih => rw [renameAll, ih, List.map_cons]

/-- Renamings under a binder are composed as they are outside. -/
theorem liftRenaming_comp (ζ ξ : Nat → Nat) :
    liftRenaming (ζ ∘ ξ) = liftRenaming ζ ∘ liftRenaming ξ := by
  funext k
  cases k <;> rfl

/-- Under a binder, the renaming that changes nothing changes nothing. -/
@[simp] theorem liftRenaming_id : liftRenaming id = id := by
  funext k
  cases k <;> rfl

/-- Under a binder, a renaming is repeated as it is outside. -/
theorem liftRenaming_iterate (ξ : Nat → Nat) (n : Nat) :
    liftRenaming ξ^[n] = (liftRenaming ξ)^[n] := by
  induction n with
  | zero => exact liftRenaming_id
  | succ n ih => rw [Function.iterate_succ', liftRenaming_comp, ih, Function.iterate_succ']

/-- A renaming that keeps variables apart does so under a binder. -/
theorem liftRenaming_injective {ξ : Nat → Nat} (h : Function.Injective ξ) :
    Function.Injective (liftRenaming ξ) := by
  rintro (_ | j) (_ | k) hjk
  · rfl
  · cases hjk
  · cases hjk
  · exact congrArg Nat.succ (h (Nat.succ.inj hjk))

/-- Two renamings in a row are their composition. -/
@[simp] theorem rename_rename (ξ ζ : Nat → Nat) (t : Nameless) :
    (t.rename ξ).rename ζ = t.rename (ζ ∘ ξ) := by
  induction t generalizing ξ ζ with
  | const c => rfl
  | bound k => rfl
  | free x i => rfl
  | binder k A b ihA ihb => simp [ihA, ihb, liftRenaming_comp]
  | app f a ihf iha => simp [ihf, iha]
  | annot e A ihe ihA => simp [ihe, ihA]
  | arith op l r ihl ihr => simp [ihl, ihr]
  | nil A ihA => simp [ihA]
  | list e es ihe ihes => simpa [ihe] using fun e he => ihes e he ξ ζ

/-- Lists with the same image are the same, if their elements with the same image are. -/
theorem eq_of_map_eq {α β : Type} {f : α → β} {as bs : List α} (h : as.map f = bs.map f)
    (hinj : ∀ a ∈ as, ∀ b ∈ bs, f a = f b → a = b) : as = bs := by
  induction as generalizing bs with
  | nil => exact (List.map_eq_nil_iff.mp h.symm).symm
  | cons a as ih =>
    obtain ⟨b, bs, rfl, hb, hbs⟩ := List.map_eq_cons_iff.mp h.symm
    have hhead : a = b := hinj a (by simp) b (by simp) hb.symm
    have htail : as = bs :=
      ih hbs.symm fun a ha b hb => hinj a (List.mem_cons_of_mem _ ha) b (List.mem_cons_of_mem _ hb)
    rw [hhead, htail]

/-- A renaming that identifies no two occurrences identifies no two terms. -/
theorem rename_injective {ξ : Nat → Nat} (h : Function.Injective ξ) :
    Function.Injective (rename ξ) := by
  intro t u htu
  induction t generalizing ξ u with
  | const c => cases u <;> simp_all
  | bound k =>
    cases u with
    | bound k' =>
      simp only [rename, bound.injEq] at htu
      rw [h htu]
    | _ => simp at htu
  | free x i => cases u <;> simp_all
  | binder k A b ihA ihb =>
    cases u with
    | binder k' A' b' =>
      simp only [rename, binder.injEq] at htu
      obtain ⟨rfl, hA, hb⟩ := htu
      rw [ihA h hA, ihb (liftRenaming_injective h) hb]
    | _ => simp at htu
  | app f a ihf iha =>
    cases u with
    | app f' a' =>
      simp only [rename, app.injEq] at htu
      rw [ihf h htu.1, iha h htu.2]
    | _ => simp at htu
  | annot e A ihe ihA =>
    cases u with
    | annot e' A' =>
      simp only [rename, annot.injEq] at htu
      rw [ihe h htu.1, ihA h htu.2]
    | _ => simp at htu
  | arith op l r ihl ihr =>
    cases u with
    | arith op' l' r' =>
      simp only [rename, arith.injEq] at htu
      obtain ⟨rfl, hl, hr⟩ := htu
      rw [ihl h hl, ihr h hr]
    | _ => simp at htu
  | nil A ihA =>
    cases u with
    | nil A' =>
      simp only [rename, nil.injEq] at htu
      rw [ihA h htu]
    | _ => simp at htu
  | list e es ihe ihes =>
    cases u with
    | list e' es' =>
      simp only [rename, renameAll_eq_map, list.injEq] at htu
      have hes : es = es' := eq_of_map_eq htu.2 fun e he e' _ heq => ihes e he h heq
      rw [ihe h htu.1, hes]
    | _ => simp at htu

/-! ### Substitution -/

/-- A substitution as seen from under one more binder. -/
def lift (σ : Nat → Nameless) : Nat → Nameless
  | 0 => .bound 0
  | k + 1 => (σ k).weaken

/-- The substitution that puts `a` for the nearest binder's variable and then goes on as `σ`. -/
def extend (a : Nameless) (σ : Nat → Nameless) : Nat → Nameless
  | 0 => a
  | k + 1 => σ k

mutual

/-- The term with other terms in place of its bound occurrences. -/
@[simp] def substitute (σ : Nat → Nameless) : Nameless → Nameless
  | .const c => .const c
  | .bound k => σ k
  | .free x i => .free x i
  | .binder k A b => .binder k (substitute σ A) (substitute (lift σ) b)
  | .app f a => .app (substitute σ f) (substitute σ a)
  | .annot e A => .annot (substitute σ e) (substitute σ A)
  | .arith op l r => .arith op (substitute σ l) (substitute σ r)
  | .nil A => .nil (substitute σ A)
  | .list e es => .list (substitute σ e) (substituteAll σ es)

/-- The terms of a list with other terms in place of their bound occurrences. -/
def substituteAll (σ : Nat → Nameless) : List Nameless → List Nameless
  | [] => []
  | e :: es => substitute σ e :: substituteAll σ es

end

/-- The body of a binder with `a` in place of the binder's variable. -/
def instantiate (b a : Nameless) : Nameless := b.substitute (extend a bound)

/-- Substitution in a list of terms is substitution in each of them. -/
@[simp] theorem substituteAll_eq_map (σ : Nat → Nameless) (es : List Nameless) :
    substituteAll σ es = es.map (substitute σ) := by
  induction es with
  | nil => rfl
  | cons e es ih => rw [substituteAll, ih, List.map_cons]

@[simp] theorem extend_zero (a : Nameless) (σ : Nat → Nameless) : extend a σ 0 = a := rfl

@[simp] theorem extend_succ (a : Nameless) (σ : Nat → Nameless) (k : Nat) :
    extend a σ (k + 1) = σ k := rfl

@[simp] theorem lift_zero (σ : Nat → Nameless) : lift σ 0 = .bound 0 := rfl

@[simp] theorem lift_succ (σ : Nat → Nameless) (k : Nat) : lift σ (k + 1) = (σ k).weaken := rfl

/-- Under a binder, the substitution that changes nothing changes nothing. -/
@[simp] theorem lift_bound : lift bound = bound := by
  funext k
  cases k <;> rfl

/-- Renaming and then substituting can be put together outside the binder. -/
theorem lift_comp_liftRenaming (σ : Nat → Nameless) (ξ : Nat → Nat) :
    lift σ ∘ liftRenaming ξ = lift (σ ∘ ξ) := by
  funext k
  cases k <;> rfl

/-- The substitution of every variable for itself changes nothing. -/
theorem substitute_bound (t : Nameless) : t.substitute bound = t := by
  induction t with
  | const c => rfl
  | bound k => rfl
  | free x i => rfl
  | binder k A b ihA ihb => simp [ihA, ihb]
  | app f a ihf iha => simp [ihf, iha]
  | annot e A ihe ihA => simp [ihe, ihA]
  | arith op l r ihl ihr => simp [ihl, ihr]
  | nil A ihA => simp [ihA]
  | list e es ihe ihes =>
    have hes : es.map (substitute bound) = es := by
      rw [List.map_congr_left ihes, List.map_id']
    simp [ihe, hes]

/-- A renaming followed by a substitution is a substitution. -/
@[simp] theorem substitute_rename (ξ : Nat → Nat) (σ : Nat → Nameless) (t : Nameless) :
    (t.rename ξ).substitute σ = t.substitute (σ ∘ ξ) := by
  induction t generalizing ξ σ with
  | const c => rfl
  | bound k => rfl
  | free x i => rfl
  | binder k A b ihA ihb => simp [ihA, ihb, lift_comp_liftRenaming]
  | app f a ihf iha => simp [ihf, iha]
  | annot e A ihe ihA => simp [ihe, ihA]
  | arith op l r ihl ihr => simp [ihl, ihr]
  | nil A ihA => simp [ihA]
  | list e es ihe ihes => simpa [ihe] using fun e he => ihes e he ξ σ

/-- Substituting and then renaming can be put together outside the binder. -/
theorem lift_rename (σ : Nat → Nameless) (ξ : Nat → Nat) :
    (fun k => (lift σ k).rename (liftRenaming ξ)) = lift fun k => (σ k).rename ξ := by
  funext k
  cases k with
  | zero => rfl
  | succ k =>
    simp only [lift_succ, rename_rename]
    rfl

/-- A substitution followed by a renaming is a substitution. -/
@[simp] theorem rename_substitute (σ : Nat → Nameless) (ξ : Nat → Nat) (t : Nameless) :
    (t.substitute σ).rename ξ = t.substitute fun k => (σ k).rename ξ := by
  induction t generalizing σ ξ with
  | const c => rfl
  | bound k => rfl
  | free x i => rfl
  | binder k A b ihA ihb => simp [ihA, ihb, lift_rename]
  | app f a ihf iha => simp [ihf, iha]
  | annot e A ihe ihA => simp [ihe, ihA]
  | arith op l r ihl ihr => simp [ihl, ihr]
  | nil A ihA => simp [ihA]
  | list e es ihe ihes => simpa [ihe] using fun e he => ihes e he σ ξ

/-- Two substitutions can be put together outside the binder. -/
theorem lift_substitute (σ τ : Nat → Nameless) :
    (fun k => (lift σ k).substitute (lift τ)) = lift fun k => (σ k).substitute τ := by
  funext k
  cases k with
  | zero => rfl
  | succ k =>
    simp only [lift_succ, substitute_rename, rename_substitute]
    rfl

/-- Two substitutions in a row are one. -/
@[simp] theorem substitute_substitute (σ τ : Nat → Nameless) (t : Nameless) :
    (t.substitute σ).substitute τ = t.substitute fun k => (σ k).substitute τ := by
  induction t generalizing σ τ with
  | const c => rfl
  | bound k => rfl
  | free x i => rfl
  | binder k A b ihA ihb => simp [ihA, ihb, lift_substitute]
  | app f a ihf iha => simp [ihf, iha]
  | annot e A ihe ihA => simp [ihe, ihA]
  | arith op l r ihl ihr => simp [ihl, ihr]
  | nil A ihA => simp [ihA]
  | list e es ihe ihes => simpa [ihe] using fun e he => ihes e he σ τ

/-- A renaming is a substitution. -/
theorem rename_eq_substitute (ξ : Nat → Nat) (t : Nameless) :
    t.rename ξ = t.substitute fun k => .bound (ξ k) := by
  calc t.rename ξ = (t.substitute bound).rename ξ := by rw [substitute_bound]
    _ = t.substitute fun k => .bound (ξ k) := rename_substitute bound ξ t

/-- The renaming that changes nothing does so in every term. -/
@[simp] theorem rename_id (t : Nameless) : t.rename id = t := by
  rw [rename_eq_substitute]
  exact substitute_bound t

/-! ### Instantiation -/

/-- A term without the binder's variable does not change when the binder is filled. -/
@[simp] theorem instantiate_weaken (t a : Nameless) : t.weaken.instantiate a = t := by
  rw [instantiate, substitute_rename]
  exact substitute_bound t

/-- A term that does not mention the nearest binder is substituted in as it is outside of it. -/
theorem substitute_lift_weaken (σ : Nat → Nameless) (t : Nameless) :
    t.weaken.substitute (lift σ) = (t.substitute σ).weaken := by
  simp only [weaken, substitute_rename, rename_substitute]
  rfl

/-- A term that does not mention the nearest binder is renamed as it is outside of it. -/
theorem rename_liftRenaming_weaken (ξ : Nat → Nat) (t : Nameless) :
    t.weaken.rename (liftRenaming ξ) = (t.rename ξ).weaken := by
  simp only [weaken, rename_rename]
  rfl

/-- The substitution lemma. -/
theorem substitute_instantiate (σ : Nat → Nameless) (b a : Nameless) :
    (b.instantiate a).substitute σ =
      (b.substitute (lift σ)).instantiate (a.substitute σ) := by
  simp only [instantiate, substitute_substitute]
  congr 1
  funext k
  cases k with
  | zero => rfl
  | succ k => exact (instantiate_weaken (σ k) (a.substitute σ)).symm

/-- Renaming commutes with filling a binder. -/
theorem rename_instantiate (ξ : Nat → Nat) (b a : Nameless) :
    (b.instantiate a).rename ξ = (b.rename (liftRenaming ξ)).instantiate (a.rename ξ) := by
  simp only [instantiate, rename_substitute, substitute_rename]
  congr 1
  funext k
  cases k <;> rfl

end Nameless

end Trisort
