import Trisort.Term.Traversal

/-!
# Shifting, substitution and instantiation

`t.shift δ c` moves by `δ` the index of every variable that has the name of the cutoff `c` and an
index of at least that of `c`. Carried under a binder of that name, the cutoff counts it, so only
variables free in the term are moved.

`t.subst v e` puts `e` for the variable `v`. Carried under a binder, `e` is shifted over its label,
so that no variable of `e` is captured.

`b.instantiate x e` is what becomes of the body `b` of a binder labelled `x` when the binder is
removed and its variable stands for `e`.
-/

namespace Trisort

namespace Traversal

/-- Moves the variables at or above the cutoff by `δ`. -/
def shift (δ : Int) : Traversal Var where
  leaf cutoff v :=
    if v.name = cutoff.name ∧ cutoff.index ≤ v.index then return .var (← v.move δ)
    else return .var v
  under := Var.under

end Traversal

namespace Term

/-- The term with every variable at or above the cutoff moved by `δ`. -/
def shift (t : Term) (δ : Int) (cutoff : Var) : Except IndexFault Term :=
  t.traverse (Traversal.shift δ) cutoff

end Term

/-- A variable and the term that takes its place. -/
structure Replacement where
  var : Var
  value : Term

/-- The replacement as seen from under a binder labelled `x`. -/
def Replacement.under (s : Replacement) (x : Label) : Except IndexFault Replacement := do
  let value ← s.value.shift 1 (.nearest x)
  let var ← s.var.under x
  return ⟨var, value⟩

namespace Traversal

/-- Puts the value of a replacement for its variable. -/
def subst : Traversal Replacement where
  leaf s v := if v = s.var then return s.value else return .var v
  under := Replacement.under

end Traversal

namespace Term

/-- The term with `value` in place of the variable `v`. -/
def subst (t : Term) (v : Var) (value : Term) : Except IndexFault Term :=
  t.traverse Traversal.subst ⟨v, value⟩

/-- The body of a binder labelled `x`, once the binder is gone and its variable is `value`. -/
def instantiate (body : Term) (x : Label) (value : Term) : Except IndexFault Term := do
  let value ← value.shift 1 (.nearest x)
  let body ← body.subst (.nearest x) value
  body.shift (-1) (.nearest x)

/-! ### Equations -/

variable (δ : Int) (c : Var)

@[simp] theorem shift_const (k : Constant) : shift (.const k) δ c = .ok (.const k) := rfl

/-- A variable is moved if it has the name of the cutoff and at least its index. -/
theorem shift_var (v : Var) :
    shift (.var v) δ c =
      if v.name = c.name ∧ c.index ≤ v.index then return .var (← v.move δ)
      else return .var v := rfl

/-- In the body of a binder, the cutoff is seen from under the binder. -/
theorem shift_binder (k : Binder) (x : Label) (A b : Term) :
    shift (.binder k x A b) δ c = (do
      let A' ← A.shift δ c
      let c' ← c.under x
      let b' ← b.shift δ c'
      return .binder k x A' b') :=
  traverse_binder (Traversal.shift δ) c k x A b

/-- Function and argument of an application are shifted, in this order. -/
theorem shift_app (f a : Term) :
    shift (.app f a) δ c = (do
      let f' ← f.shift δ c
      let a' ← a.shift δ c
      return .app f' a') :=
  traverse_app (Traversal.shift δ) c f a

/-- Term and type of an annotation are shifted, in this order. -/
theorem shift_annot (e A : Term) :
    shift (.annot e A) δ c = (do
      let e' ← e.shift δ c
      let A' ← A.shift δ c
      return .annot e' A') :=
  traverse_annot (Traversal.shift δ) c e A

/-- The operands of an operation are shifted from left to right. -/
theorem shift_arith (op : Operation) (l r : Term) :
    shift (.arith op l r) δ c = (do
      let l' ← l.shift δ c
      let r' ← r.shift δ c
      return .arith op l' r') :=
  traverse_arith (Traversal.shift δ) c op l r

/-- The element type of an empty list is shifted. -/
theorem shift_nil (A : Term) :
    shift (.nil A) δ c = (do
      let A' ← A.shift δ c
      return .nil A') :=
  traverse_nil (Traversal.shift δ) c A

/-- The elements of a list are shifted from left to right. -/
theorem shift_list (e : Term) (es : List Term) :
    shift (.list e es) δ c = (do
      let e' ← e.shift δ c
      let es' ← traverseAll (Traversal.shift δ) c es
      return .list e' es') :=
  traverse_list (Traversal.shift δ) c e es

variable (v : Var) (value : Term)

@[simp] theorem subst_const (k : Constant) : subst (.const k) v value = .ok (.const k) := rfl

/-- The variable itself is replaced by the value, and no other variable is. -/
theorem subst_var (w : Var) :
    subst (.var w) v value = if w = v then return value else return .var w := rfl

/-- In the body of a binder, the value is shifted over the label of the binder, and the variable is
seen from under it. -/
theorem subst_binder (k : Binder) (x : Label) (A b : Term) :
    subst (.binder k x A b) v value = (do
      let A' ← A.subst v value
      let value' ← value.shift 1 (.nearest x)
      let v' ← v.under x
      let b' ← b.subst v' value'
      return .binder k x A' b') := by
  rw [subst, traverse_binder]
  simp only [Traversal.subst, Replacement.under, bind_assoc, pure_bind]
  rfl

/-- Substitution goes into function and argument of an application, in this order. -/
theorem subst_app (f a : Term) :
    subst (.app f a) v value = (do
      let f' ← f.subst v value
      let a' ← a.subst v value
      return .app f' a') :=
  traverse_app Traversal.subst ⟨v, value⟩ f a

/-- Substitution goes into term and type of an annotation, in this order. -/
theorem subst_annot (e A : Term) :
    subst (.annot e A) v value = (do
      let e' ← e.subst v value
      let A' ← A.subst v value
      return .annot e' A') :=
  traverse_annot Traversal.subst ⟨v, value⟩ e A

/-- Substitution goes into the operands of an operation from left to right. -/
theorem subst_arith (op : Operation) (l r : Term) :
    subst (.arith op l r) v value = (do
      let l' ← l.subst v value
      let r' ← r.subst v value
      return .arith op l' r') :=
  traverse_arith Traversal.subst ⟨v, value⟩ op l r

/-- Substitution goes into the element type of an empty list. -/
theorem subst_nil (A : Term) :
    subst (.nil A) v value = (do
      let A' ← A.subst v value
      return .nil A') :=
  traverse_nil Traversal.subst ⟨v, value⟩ A

/-- Substitution goes into the elements of a list from left to right. -/
theorem subst_list (e : Term) (es : List Term) :
    subst (.list e es) v value = (do
      let e' ← e.subst v value
      let es' ← traverseAll Traversal.subst ⟨v, value⟩ es
      return .list e' es') :=
  traverse_list Traversal.subst ⟨v, value⟩ e es

end Term

end Trisort
