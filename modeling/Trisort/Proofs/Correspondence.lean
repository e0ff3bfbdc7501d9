import Trisort.Proofs.Resolution

/-!
# Terms that correspond to each other

Two terms in different scopes may have the same form up to the way in which the variables of one
scope are found in the other. `Corresponds m ξ Γ Δ t u` says so for the renaming `ξ`, and the
marking `m` says whether the labels of the binders count. For instance, a term corresponds to its
shift over a new binder, labels included, and two terms with the same nameless form correspond to
each other without their labels.

Terms that correspond are built in the same way from parts that correspond (`Corresponds.alike`), so
one case analysis serves for both, and what is so built corresponds (`Alike.corresponds`). Filling
binders keeps the correspondence (`Corresponds.instantiate`). If labels count, only one term in a
given scope corresponds to a term (`Corresponds.unique`).
-/

namespace Trisort

namespace Term

open Nameless

variable {m : Marking} {ξ : Nat → Nat} {Γ Δ : Scope} {t u : Term}

/-- The term `u` in the scope `Δ` has the form of the term `t` in the scope `Γ`, where the renaming
`ξ` takes the variables of `Γ` to those of `Δ`. -/
def Corresponds (m : Marking) (ξ : Nat → Nat) (Γ Δ : Scope) (t u : Term) : Prop :=
  u.form m Δ = (t.form m Γ).rename ξ

/-- The terms are built in the same way from parts that correspond to each other. -/
inductive Alike (m : Marking) (ξ : Nat → Nat) (Γ Δ : Scope) : Term → Term → Prop where
  | const (c : Constant) : Alike m ξ Γ Δ (.const c) (.const c)
  | var {v w : Var} (h : Δ.locate w.name w.index = (Γ.locate v.name v.index).rename ξ) :
      Alike m ξ Γ Δ (.var v) (.var w)
  | binder {k : Binder} {x y : Label} {A A' b b' : Term} (hxy : m.Admits x y)
      (hA : Corresponds m ξ Γ Δ A A')
      (hb : Corresponds m (liftRenaming ξ) (x :: Γ) (y :: Δ) b b') :
      Alike m ξ Γ Δ (.binder k x A b) (.binder k y A' b')
  | app {f f' a a' : Term} (hf : Corresponds m ξ Γ Δ f f') (ha : Corresponds m ξ Γ Δ a a') :
      Alike m ξ Γ Δ (.app f a) (.app f' a')
  | annot {e e' A A' : Term} (he : Corresponds m ξ Γ Δ e e') (hA : Corresponds m ξ Γ Δ A A') :
      Alike m ξ Γ Δ (.annot e A) (.annot e' A')
  | arith {op : Operation} {l l' r r' : Term} (hl : Corresponds m ξ Γ Δ l l')
      (hr : Corresponds m ξ Γ Δ r r') : Alike m ξ Γ Δ (.arith op l r) (.arith op l' r')
  | nil {A A' : Term} (hA : Corresponds m ξ Γ Δ A A') : Alike m ξ Γ Δ (.nil A) (.nil A')
  | list {e e' : Term} {es es' : List Term} (he : Corresponds m ξ Γ Δ e e')
      (hes : List.Forall₂ (Corresponds m ξ Γ Δ) es es') : Alike m ξ Γ Δ (.list e es) (.list e' es')

/-- Terms built in the same way from parts that correspond to each other correspond. -/
theorem Alike.corresponds (h : Alike m ξ Γ Δ t u) : Corresponds m ξ Γ Δ t u := by
  unfold Corresponds
  cases h with
  | const c => rfl
  | var h => exact h
  | binder hxy hA hb =>
    unfold Corresponds at hA hb
    rw [form, form, rename, Marking.rename_mark, Marking.mark_eq_iff.mpr ⟨hxy, hA⟩, hb]
  | app hf ha =>
    unfold Corresponds at hf ha
    rw [form, form, rename, hf, ha]
  | annot he hA =>
    unfold Corresponds at he hA
    rw [form, form, rename, he, hA]
  | arith hl hr =>
    unfold Corresponds at hl hr
    rw [form, form, rename, hl, hr]
  | nil hA =>
    unfold Corresponds at hA
    rw [form, form, rename, hA]
  | @list e e' es es' he hes =>
    unfold Corresponds at he
    have hmap : (es.map (form m Γ)).map (rename ξ) = es'.map (form m Δ) := by
      rw [List.map_map, map_eq_map_iff_forall₂]
      exact hes.imp fun _ _ h => Eq.symm h
    simp only [form, formAll_eq_map, rename, renameAll_eq_map, he, hmap]

/-- Terms that correspond to each other are built in the same way from parts that do. -/
theorem Corresponds.alike (h : Corresponds m ξ Γ Δ t u) : Alike m ξ Γ Δ t u := by
  have hvar {v : Var} {t : Nameless} (hbound : ∀ k, t ≠ .bound k) (hfree : ∀ z j, t ≠ .free z j) :
      Δ.locate v.name v.index ≠ t :=
    Scope.locate_ne hbound hfree
  unfold Corresponds at h
  cases t with
  | const c =>
    cases u with
    | const c' =>
      obtain rfl := Nameless.const.inj h
      exact .const c'
    | var w => exact absurd h (hvar (by simp) (by simp))
    | _ => cases h
  | var v =>
    cases u with
    | var w => exact .var h
    | _ =>
      -- Renaming leaves a variable a variable.
      rcases Γ.locate_eq_bound_or_free v.name v.index with ⟨k, hk⟩ | ⟨z, j, hj⟩
      · simp [hk] at h
      · simp [hj] at h
  | binder k x A b =>
    cases u with
    | binder k' y A' b' =>
      rw [form, form, rename, Marking.rename_mark, Nameless.binder.injEq, Marking.mark_eq_iff] at h
      obtain ⟨rfl, ⟨hxy, hA⟩, hb⟩ := h
      exact .binder hxy hA hb
    | var w => exact absurd h (hvar (by simp) (by simp))
    | _ => cases h
  | app f a =>
    cases u with
    | app f' a' =>
      obtain ⟨hf, ha⟩ := Nameless.app.inj h
      exact .app hf ha
    | var w => exact absurd h (hvar (by simp) (by simp))
    | _ => cases h
  | annot e A =>
    cases u with
    | annot e' A' =>
      obtain ⟨he, hA⟩ := Nameless.annot.inj h
      exact .annot he hA
    | var w => exact absurd h (hvar (by simp) (by simp))
    | _ => cases h
  | arith op l r =>
    cases u with
    | arith op' l' r' =>
      obtain ⟨rfl, hl, hr⟩ := Nameless.arith.inj h
      exact .arith hl hr
    | var w => exact absurd h (hvar (by simp) (by simp))
    | _ => cases h
  | nil A =>
    cases u with
    | nil A' => exact .nil (Nameless.nil.inj h)
    | var w => exact absurd h (hvar (by simp) (by simp))
    | _ => cases h
  | list e es =>
    cases u with
    | list e' es' =>
      simp only [form, formAll_eq_map, rename, renameAll_eq_map, Nameless.list.injEq,
        List.map_map] at h
      obtain ⟨he, hes⟩ := h
      exact .list he ((map_eq_map_iff_forall₂.mp hes.symm).imp fun _ _ h => Eq.symm h)
    | var w => exact absurd h (hvar (by simp) (by simp))
    | _ => cases h

/-! ### Same nameless forms -/

/-- Whatever labels count, the nameless forms are the same up to the renaming. -/
theorem Corresponds.resolve (h : Corresponds m ξ Γ Δ t u) :
    u.resolve Δ = (t.resolve Γ).rename ξ := by
  induction t generalizing ξ Γ Δ u with
  | const c =>
    cases h.alike
    rfl
  | var v =>
    cases h.alike with
    | var h => exact h
  | binder k x A b ihA ihb =>
    cases h.alike with
    | binder _ hA hb => rw [Term.resolve, Term.resolve, rename, ihA hA, ihb hb]
  | app f a ihf iha =>
    cases h.alike with
    | app hf ha => rw [Term.resolve, Term.resolve, rename, ihf hf, iha ha]
  | annot e A ihe ihA =>
    cases h.alike with
    | annot he hA => rw [Term.resolve, Term.resolve, rename, ihe he, ihA hA]
  | arith op l r ihl ihr =>
    cases h.alike with
    | arith hl hr => rw [Term.resolve, Term.resolve, rename, ihl hl, ihr hr]
  | nil A ihA =>
    cases h.alike with
    | nil hA => rw [Term.resolve, Term.resolve, rename, ihA hA]
  | list e es ihe ihes =>
    cases h.alike with
    | @list _ e' _ es' he hes =>
      have hmap : (es.map (Term.resolve Γ)).map (rename ξ) = es'.map (Term.resolve Δ) := by
        rw [List.map_map, map_eq_map_iff_forall₂]
        exact ((List.forall₂_and_left es es').mpr ⟨ihes, hes⟩).imp fun _ _ h => (h.1 h.2).symm
      simp only [Term.resolve, resolveAll_eq_map, rename, renameAll_eq_map, ihe he, hmap]

/-- Terms with the same nameless form correspond to each other without their labels. -/
theorem corresponds_of_resolve_eq (h : t.resolve Γ = u.resolve Δ) :
    Corresponds .plain id Γ Δ t u := by
  rw [Corresponds, form_plain, form_plain, rename_id, h]

/-! ### Uniqueness -/

mutual

/-- The labels of the binders of a term, from left to right. -/
@[simp] def binderLabels : Term → List Label
  | .const _ | .var _ => []
  | .binder _ x A b => x :: (A.binderLabels ++ b.binderLabels)
  | .app f a => f.binderLabels ++ a.binderLabels
  | .annot e A => e.binderLabels ++ A.binderLabels
  | .arith _ l r => l.binderLabels ++ r.binderLabels
  | .nil A => A.binderLabels
  | .list e es => e.binderLabels ++ binderLabelsAll es

/-- The labels of the binders of the terms of a list. -/
def binderLabelsAll : List Term → List Label
  | [] => []
  | e :: es => e.binderLabels ++ binderLabelsAll es

end

/-- The labels of a list of terms are those of its elements, one after the other. -/
@[simp] theorem binderLabelsAll_eq_flatMap (es : List Term) :
    binderLabelsAll es = es.flatMap binderLabels := by
  induction es with
  | nil => rfl
  | cons e es ih => rw [binderLabelsAll, ih, List.flatMap_cons]

/-- What holds between the members of two compound lists holds between those of their parts. -/
theorem forall_mem_of_append {α : Type} {R : α → α → Prop} {as as' bs bs' : List α}
    (h : ∀ a ∈ as ++ bs, ∀ b ∈ as' ++ bs', R a b) :
    (∀ a ∈ as, ∀ b ∈ as', R a b) ∧ ∀ a ∈ bs, ∀ b ∈ bs', R a b := by
  constructor
  · intro a ha b hb
    exact h a (List.mem_append_left _ ha) b (List.mem_append_left _ hb)
  · intro a ha b hb
    exact h a (List.mem_append_right _ ha) b (List.mem_append_right _ hb)

/-- Terms that correspond to each other in one scope are equal, if their labels are. -/
theorem eq_of_corresponds (h : Corresponds m id Γ Γ t u)
    (hlabels : ∀ x ∈ t.binderLabels, ∀ y ∈ u.binderLabels, m.Admits x y → x = y) : t = u := by
  induction t generalizing Γ u with
  | const c =>
    cases h.alike
    rfl
  | var v =>
    cases h.alike with
    | var hvw =>
      rw [rename_id] at hvw
      obtain ⟨hname, hindex⟩ := Scope.locate_inj hvw.symm
      exact congrArg _ (Var.ext hname hindex)
  | binder k x A b ihA ihb =>
    cases h.alike with
    | @binder _ _ y _ A' _ b' hxy hA hb =>
      obtain rfl : x = y := hlabels x (by simp) y (by simp) hxy
      obtain ⟨hlA, hlb⟩ := forall_mem_of_append fun x hx y hy =>
        hlabels x (List.mem_cons_of_mem _ hx) y (List.mem_cons_of_mem _ hy)
      rw [liftRenaming_id] at hb
      rw [ihA hA hlA, ihb hb hlb]
  | app f a ihf iha =>
    cases h.alike with
    | app hf ha =>
      obtain ⟨hlf, hla⟩ := forall_mem_of_append hlabels
      rw [ihf hf hlf, iha ha hla]
  | annot e A ihe ihA =>
    cases h.alike with
    | annot he hA =>
      obtain ⟨hle, hlA⟩ := forall_mem_of_append hlabels
      rw [ihe he hle, ihA hA hlA]
  | arith op l r ihl ihr =>
    cases h.alike with
    | arith hl hr =>
      obtain ⟨hll, hlr⟩ := forall_mem_of_append hlabels
      rw [ihl hl hll, ihr hr hlr]
  | nil A ihA =>
    cases h.alike with
    | nil hA => rw [ihA hA hlabels]
  | list e es ihe ihes =>
    cases h.alike with
    | @list _ e' _ es' he hes =>
      rw [binderLabels, binderLabels, binderLabelsAll_eq_flatMap,
        binderLabelsAll_eq_flatMap] at hlabels
      obtain ⟨hle, hles⟩ := forall_mem_of_append hlabels
      have hmap : es.map (form m Γ) = es'.map (form m Γ) := by
        rw [map_eq_map_iff_forall₂]
        exact hes.imp fun d d' h => (h.trans (rename_id _)).symm
      have heq : es = es' := by
        refine eq_of_map_eq hmap fun d hd d' hd' h => ?_
        have hcorr : Corresponds m id Γ Γ d d' := h.symm.trans (rename_id _).symm
        refine ihes d hd hcorr fun x hx y hy => ?_
        exact hles x (List.mem_flatMap.mpr ⟨d, hd, hx⟩) y (List.mem_flatMap.mpr ⟨d', hd', hy⟩)
      rw [ihe he hle, heq]

/-- If labels count, the form of a term in a scope determines the term. -/
theorem eq_of_form_eq (h : t.form .labelled Γ = u.form .labelled Γ) : t = u := by
  have hcorr : Corresponds .labelled id Γ Γ t u := by
    rw [Corresponds, rename_id, h]
  exact eq_of_corresponds hcorr fun x _ y _ hxy => hxy

/-- If labels count, only one term in a scope corresponds to a given one. -/
theorem Corresponds.unique {u' : Term} (h : Corresponds .labelled ξ Γ Δ t u)
    (h' : Corresponds .labelled ξ Γ Δ t u') : u = u' :=
  eq_of_form_eq (h.trans h'.symm)

/-! ### Operations -/

/-- A term corresponds to its shift over a new binder. -/
theorem corresponds_shift_nearest (m : Marking) {x : Label} (h : t.shift 1 (.nearest x) = .ok u) :
    Corresponds m Nat.succ Γ (x :: Γ) t u :=
  form_shift_nearest m h

/-- Filling binders that correspond to each other. -/
theorem Corresponds.instantiate {x y : Label} {b b' a a' : Term}
    (hb : Corresponds m (liftRenaming ξ) (x :: Γ) (y :: Δ) b b') (ha : Corresponds m ξ Γ Δ a a')
    (ht : b.instantiate x a = .ok t) (hu : b'.instantiate y a' = .ok u) :
    Corresponds m ξ Γ Δ t u := by
  unfold Corresponds at *
  rw [form_instantiate m ht, form_instantiate m hu, hb, ha, rename_instantiate]

/-- A constant corresponds to itself only. -/
theorem Corresponds.const_iff {c : Constant} (h : Corresponds m ξ Γ Δ t u) :
    t = .const c ↔ u = .const c := by
  cases h.alike <;> simp

end Term

end Trisort
