import Trisort.Outcome
import Trisort.Term.Basic

/-!
# Traversals

Shifting and substitution both rebuild a term with its variables replaced, and both carry a
parameter that changes under each binder. A `Traversal` says how; `Term.traverse` applies it, from
left to right, the type of a binder before the parameter is carried under it and the body after
that. The first fault met is the result.

The equations of `Term.traverse` are stated without the counter that its definition hands to
`relay`.
-/

namespace Trisort

/-- How to replace the variables of a term. -/
structure Traversal (σ : Type) where
  /-- What stands for a variable. -/
  leaf : σ → Var → Except IndexFault Term
  /-- The parameter as seen from under a binder with the given label. -/
  under : σ → Label → Except IndexFault σ

namespace Term

variable {σ : Type}

mutual

/-- `Term.traverse` for a term met at nesting depth `d`. -/
def traverseFrom (T : Traversal σ) (d : Nat) (s : σ) : Term → Except IndexFault Term
  | .const c => .ok (.const c)
  | .var v => T.leaf s v
  | .binder k x A b => do
    let A' ← relay d fun _ => traverseFrom T (d + 1) s A
    let s' ← T.under s x
    let b' ← relay d fun _ => traverseFrom T (d + 1) s' b
    return .binder k x A' b'
  | .app f a => do
    let f' ← relay d fun _ => traverseFrom T (d + 1) s f
    let a' ← relay d fun _ => traverseFrom T (d + 1) s a
    return .app f' a'
  | .annot e A => do
    let e' ← relay d fun _ => traverseFrom T (d + 1) s e
    let A' ← relay d fun _ => traverseFrom T (d + 1) s A
    return .annot e' A'
  | .arith op l r => do
    let l' ← relay d fun _ => traverseFrom T (d + 1) s l
    let r' ← relay d fun _ => traverseFrom T (d + 1) s r
    return .arith op l' r'
  | .nil A => do
    let A' ← relay d fun _ => traverseFrom T (d + 1) s A
    return .nil A'
  | .list e es => do
    let e' ← relay d fun _ => traverseFrom T (d + 1) s e
    let es' ← relay d fun _ => traverseAllFrom T (d + 1) s es
    return .list e' es'

/-- `Term.traverseAll` for a list met at nesting depth `d`. -/
def traverseAllFrom (T : Traversal σ) (d : Nat) (s : σ) :
    List Term → Except IndexFault (List Term)
  | [] => .ok []
  | e :: es => do
    let e' ← relay d fun _ => traverseFrom T (d + 1) s e
    let es' ← relay d fun _ => traverseAllFrom T (d + 1) s es
    return e' :: es'

end

/-- The term with its variables replaced as the traversal says. -/
def traverse (T : Traversal σ) (s : σ) (t : Term) : Except IndexFault Term := traverseFrom T 0 s t

/-- The terms of a list with their variables replaced. -/
def traverseAll (T : Traversal σ) (s : σ) (es : List Term) : Except IndexFault (List Term) :=
  traverseAllFrom T 0 s es

/-! ### The counter does not matter -/

/-- The nesting depth has no influence on a list if it has none on the elements. -/
theorem traverseAllFrom_eq_of {T : Traversal σ} {es : List Term}
    (h : ∀ e ∈ es, ∀ d s, traverseFrom T d s e = traverse T s e) (d d' : Nat) (s : σ) :
    traverseAllFrom T d s es = traverseAllFrom T d' s es := by
  induction es generalizing d d' with
  | nil => rfl
  | cons e es ih =>
    simp only [traverseAllFrom, relay_eq, h e (by simp),
      ih (fun e he => h e (by simp [he])) (d + 1) (d' + 1)]

/-- The nesting depth has no influence on a traversal. -/
theorem traverseFrom_eq (T : Traversal σ) (d : Nat) (s : σ) (t : Term) :
    traverseFrom T d s t = traverse T s t := by
  induction t generalizing d s with
  | const c => rfl
  | var v => rfl
  | binder k x A b ihA ihb =>
    rw [traverse, traverseFrom, traverseFrom]
    simp only [relay_eq, ihA, ihb]
  | app f a ihf iha =>
    rw [traverse, traverseFrom, traverseFrom]
    simp only [relay_eq, ihf, iha]
  | annot e A ihe ihA =>
    rw [traverse, traverseFrom, traverseFrom]
    simp only [relay_eq, ihe, ihA]
  | arith op l r ihl ihr =>
    rw [traverse, traverseFrom, traverseFrom]
    simp only [relay_eq, ihl, ihr]
  | nil A ihA =>
    rw [traverse, traverseFrom, traverseFrom]
    simp only [relay_eq, ihA]
  | list e es ihe ihes =>
    rw [traverse, traverseFrom, traverseFrom]
    simp only [relay_eq, ihe, traverseAllFrom_eq_of ihes (d + 1) 1]

/-- The nesting depth has no influence on the traversal of a list of terms. -/
theorem traverseAllFrom_eq (T : Traversal σ) (d : Nat) (s : σ) (es : List Term) :
    traverseAllFrom T d s es = traverseAll T s es :=
  traverseAllFrom_eq_of (fun e _ d s => traverseFrom_eq T d s e) d 0 s

/-! ### Equations -/

variable (T : Traversal σ) (s : σ)

@[simp] theorem traverse_const (c : Constant) : traverse T s (.const c) = .ok (.const c) := rfl

@[simp] theorem traverse_var (v : Var) : traverse T s (.var v) = T.leaf s v := rfl

/-- The type of a binder is traversed with the parameter as it is, the body with the parameter
carried under the binder. -/
theorem traverse_binder (k : Binder) (x : Label) (A b : Term) :
    traverse T s (.binder k x A b) = (do
      let A' ← traverse T s A
      let s' ← T.under s x
      let b' ← traverse T s' b
      return .binder k x A' b') := by
  rw [traverse, traverseFrom]
  simp only [relay_eq, traverseFrom_eq]

/-- Function and argument of an application are traversed, in this order. -/
theorem traverse_app (f a : Term) :
    traverse T s (.app f a) = (do
      let f' ← traverse T s f
      let a' ← traverse T s a
      return .app f' a') := by
  rw [traverse, traverseFrom]
  simp only [relay_eq, traverseFrom_eq]

/-- Term and type of an annotation are traversed, in this order. -/
theorem traverse_annot (e A : Term) :
    traverse T s (.annot e A) = (do
      let e' ← traverse T s e
      let A' ← traverse T s A
      return .annot e' A') := by
  rw [traverse, traverseFrom]
  simp only [relay_eq, traverseFrom_eq]

/-- The operands of an operation are traversed from left to right. -/
theorem traverse_arith (op : Operation) (l r : Term) :
    traverse T s (.arith op l r) = (do
      let l' ← traverse T s l
      let r' ← traverse T s r
      return .arith op l' r') := by
  rw [traverse, traverseFrom]
  simp only [relay_eq, traverseFrom_eq]

/-- The element type of an empty list is traversed. -/
theorem traverse_nil (A : Term) :
    traverse T s (.nil A) = (do
      let A' ← traverse T s A
      return .nil A') := by
  rw [traverse, traverseFrom]
  simp only [relay_eq, traverseFrom_eq]

/-- The elements of a list are traversed from left to right. -/
theorem traverse_list (e : Term) (es : List Term) :
    traverse T s (.list e es) = (do
      let e' ← traverse T s e
      let es' ← traverseAll T s es
      return .list e' es') := by
  rw [traverse, traverseFrom]
  simp only [relay_eq, traverseFrom_eq, traverseAllFrom_eq]

@[simp] theorem traverseAll_nil : traverseAll T s [] = .ok [] := rfl

/-- A list of terms is traversed from left to right. -/
theorem traverseAll_cons (e : Term) (es : List Term) :
    traverseAll T s (e :: es) = (do
      let e' ← traverse T s e
      let es' ← traverseAll T s es
      return e' :: es') := by
  rw [traverseAll, traverseAllFrom]
  simp only [relay_eq, traverseFrom_eq, traverseAllFrom_eq]

/-- The elements of a list are traversed one after the other. -/
theorem traverseAll_eq_mapM (es : List Term) : traverseAll T s es = es.mapM (traverse T s) := by
  induction es with
  | nil => rfl
  | cons e es ih => rw [traverseAll_cons, List.mapM_cons, ih]

/-! ### Traversals that rename -/

variable {T s}

/-- A traversal that puts variables for variables keeps the size of a term. The parameters for which
it does so are those with the property `P`, which holds under binders too. -/
theorem size_traverse {P : σ → Prop}
    (hleaf : ∀ {s v t}, P s → T.leaf s v = .ok t → t.size = 1)
    (hunder : ∀ {s x s'}, P s → T.under s x = .ok s' → P s') {t t' : Term} (hs : P s)
    (h : traverse T s t = .ok t') : t'.size = t.size := by
  induction t generalizing s t' with
  | const c =>
    cases h
    rfl
  | var v => exact hleaf hs h
  | binder k x A b ihA ihb =>
    simp only [traverse_binder, bind_eq_ok_iff, pure_eq_ok_iff] at h
    obtain ⟨A', hA, s', hs', b', hb, rfl⟩ := h
    simp only [size, ihA hs hA, ihb (hunder hs hs') hb]
  | app f a ihf iha =>
    simp only [traverse_app, bind_eq_ok_iff, pure_eq_ok_iff] at h
    obtain ⟨f', hf, a', ha, rfl⟩ := h
    simp only [size, ihf hs hf, iha hs ha]
  | annot e A ihe ihA =>
    simp only [traverse_annot, bind_eq_ok_iff, pure_eq_ok_iff] at h
    obtain ⟨e', he, A', hA, rfl⟩ := h
    simp only [size, ihe hs he, ihA hs hA]
  | arith op l r ihl ihr =>
    simp only [traverse_arith, bind_eq_ok_iff, pure_eq_ok_iff] at h
    obtain ⟨l', hl, r', hr, rfl⟩ := h
    simp only [size, ihl hs hl, ihr hs hr]
  | nil A ihA =>
    simp only [traverse_nil, bind_eq_ok_iff, pure_eq_ok_iff] at h
    obtain ⟨A', hA, rfl⟩ := h
    simp only [size, ihA hs hA]
  | list e es ihe ihes =>
    simp only [traverse_list, bind_eq_ok_iff, pure_eq_ok_iff] at h
    obtain ⟨e', he, es', hes, rfl⟩ := h
    have hsize : sizeAll es' = sizeAll es := by
      clear he
      induction es generalizing es' with
      | nil =>
        cases hes
        rfl
      | cons e₁ es ih =>
        simp only [traverseAll_cons, bind_eq_ok_iff, pure_eq_ok_iff] at hes
        obtain ⟨e₂, he₁, es₂, hes₂, rfl⟩ := hes
        simp only [sizeAll, ihes e₁ (by simp) hs he₁,
          ih (fun e he _ _ => ihes e (by simp [he])) es₂ hes₂]
    simp only [size, ihe hs he, hsize]

end Term

end Trisort
