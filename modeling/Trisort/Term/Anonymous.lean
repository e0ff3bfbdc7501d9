import Trisort.Term.Substitution

/-!
# Anonymous form

`Term.anonymize` relabels every binder to `_` and renames the variables accordingly, so that terms
which differ only in the labels of their binders become equal.
-/

namespace Trisort

namespace Term

/-- The body of a binder labelled `x`, once the binder is relabelled to `_`: room is made for the
new variable, the old one is renamed to it, and the gap the old one leaves is closed. -/
def relabelBody (x : Label) (body : Term) : Except IndexFault Term :=
  if x.isAnonymous then return body
  else do
    let body ← body.shift 1 (.nearest .anonymous)
    let body ← body.subst (.nearest x) (.var (.nearest .anonymous))
    body.shift (-1) (.nearest x)

/-- A shift keeps the size of a term. -/
theorem size_shift {t t' : Term} {δ : Int} {c : Var} (h : t.shift δ c = .ok t') :
    t'.size = t.size := by
  refine size_traverse (P := fun _ => True) ?_ (fun _ _ => trivial) trivial h
  intro s v u _ hu
  simp only [Traversal.shift] at hu
  split at hu
  · simp only [bind_eq_ok_iff, pure_eq_ok_iff] at hu
    obtain ⟨w, -, rfl⟩ := hu
    rfl
  · rw [pure_eq_ok_iff] at hu
    subst hu
    rfl

/-- Putting a variable in the place of another keeps the size of a term. -/
theorem size_subst_var {t t' : Term} {v w : Var} (h : t.subst v (.var w) = .ok t') :
    t'.size = t.size := by
  refine size_traverse (P := fun s => s.value.size = 1) ?_ ?_ rfl h
  · intro s v u hs hu
    simp only [Traversal.subst] at hu
    split at hu
    · rw [pure_eq_ok_iff] at hu
      rw [← hu, hs]
    · rw [pure_eq_ok_iff] at hu
      subst hu
      rfl
  · intro s x s' hs hs'
    simp only [Traversal.subst, Replacement.under, bind_eq_ok_iff, pure_eq_ok_iff] at hs'
    obtain ⟨value, hvalue, var, -, rfl⟩ := hs'
    exact (size_shift hvalue).trans hs

/-- Relabelling a binder keeps the size of its body. -/
theorem size_relabelBody {x : Label} {b b' : Term} (h : relabelBody x b = .ok b') :
    b'.size = b.size := by
  unfold relabelBody at h
  split at h
  · rw [← pure_eq_ok_iff.mp h]
  · simp only [bind_eq_ok_iff] at h
    obtain ⟨b₁, h₁, b₂, h₂, h₃⟩ := h
    rw [size_shift h₃, size_subst_var h₂, size_shift h₁]

mutual

/-- `Term.anonymize` for a term met at nesting depth `d`. -/
def anonymizeFrom (d : Nat) : Term → Except IndexFault Term
  | .const c => .ok (.const c)
  | .var v => .ok (.var v)
  | .binder k x A b => do
    let A' ← relay d fun _ => anonymizeFrom (d + 1) A
    match h : relabelBody x b with
    | .ok b₁ =>
      -- `b₁` is no subterm, but it has the size of one.
      have := size_relabelBody h
      let b' ← relay d fun _ => anonymizeFrom (d + 1) b₁
      return .binder k .anonymous A' b'
    | .error e => .error e
  | .app f a => do
    let f' ← relay d fun _ => anonymizeFrom (d + 1) f
    let a' ← relay d fun _ => anonymizeFrom (d + 1) a
    return .app f' a'
  | .annot e A => do
    let e' ← relay d fun _ => anonymizeFrom (d + 1) e
    let A' ← relay d fun _ => anonymizeFrom (d + 1) A
    return .annot e' A'
  | .arith op l r => do
    let l' ← relay d fun _ => anonymizeFrom (d + 1) l
    let r' ← relay d fun _ => anonymizeFrom (d + 1) r
    return .arith op l' r'
  | .nil A => do
    let A' ← relay d fun _ => anonymizeFrom (d + 1) A
    return .nil A'
  | .list e es => do
    let e' ← relay d fun _ => anonymizeFrom (d + 1) e
    let es' ← relay d fun _ => anonymizeAllFrom (d + 1) es
    return .list e' es'
termination_by t => t.size
decreasing_by all_goals simp only [size]; omega

/-- `Term.anonymizeAll` for a list met at nesting depth `d`. -/
def anonymizeAllFrom (d : Nat) : List Term → Except IndexFault (List Term)
  | [] => .ok []
  | e :: es => do
    let e' ← relay d fun _ => anonymizeFrom (d + 1) e
    let es' ← relay d fun _ => anonymizeAllFrom (d + 1) es
    return e' :: es'
termination_by es => sizeAll es
decreasing_by all_goals simp only [sizeAll]; omega

end

/-- The term with every binder labelled `_`. -/
def anonymize (t : Term) : Except IndexFault Term := anonymizeFrom 0 t

/-- The terms of a list with every binder labelled `_`. -/
def anonymizeAll (es : List Term) : Except IndexFault (List Term) := anonymizeAllFrom 0 es

/-! ### The counter does not matter -/

/-- The nesting depth has no influence on a list if it has none on the elements. -/
theorem anonymizeAllFrom_eq_of {es : List Term}
    (h : ∀ e ∈ es, ∀ d, anonymizeFrom d e = anonymize e) (d d' : Nat) :
    anonymizeAllFrom d es = anonymizeAllFrom d' es := by
  induction es generalizing d d' with
  | nil => simp only [anonymizeAllFrom]
  | cons e es ih =>
    simp only [anonymizeAllFrom, relay_eq, h e (by simp),
      ih (fun e he => h e (by simp [he])) (d + 1) (d' + 1)]

/-- The nesting depth has no influence on the anonymous form. -/
theorem anonymizeFrom_eq (d : Nat) (t : Term) : anonymizeFrom d t = anonymize t := by
  induction t using inductSize generalizing d with
  | const c => simp only [anonymize, anonymizeFrom]
  | var v => simp only [anonymize, anonymizeFrom]
  | binder k x A b ihA ihb =>
    rw [anonymize, anonymizeFrom, anonymizeFrom]
    simp only [relay_eq, ihA]
    congr 1
    funext A'
    split
    case h_1 b₁ h => simp only [ihb b₁ (size_relabelBody h)]
    case h_2 => rfl
  | app f a ihf iha =>
    rw [anonymize, anonymizeFrom, anonymizeFrom]
    simp only [relay_eq, ihf, iha]
  | annot e A ihe ihA =>
    rw [anonymize, anonymizeFrom, anonymizeFrom]
    simp only [relay_eq, ihe, ihA]
  | arith op l r ihl ihr =>
    rw [anonymize, anonymizeFrom, anonymizeFrom]
    simp only [relay_eq, ihl, ihr]
  | nil A ihA =>
    rw [anonymize, anonymizeFrom, anonymizeFrom]
    simp only [relay_eq, ihA]
  | list e es ihe ihes =>
    rw [anonymize, anonymizeFrom, anonymizeFrom]
    simp only [relay_eq, ihe, anonymizeAllFrom_eq_of ihes (d + 1) 1]

/-- The nesting depth has no influence on the anonymous forms of a list of terms. -/
theorem anonymizeAllFrom_eq (d : Nat) (es : List Term) :
    anonymizeAllFrom d es = anonymizeAll es :=
  anonymizeAllFrom_eq_of (fun e _ d => anonymizeFrom_eq d e) d 0

/-! ### Equations -/

@[simp] theorem anonymize_const (c : Constant) : anonymize (.const c) = .ok (.const c) := by
  rw [anonymize, anonymizeFrom]

@[simp] theorem anonymize_var (v : Var) : anonymize (.var v) = .ok (.var v) := by
  rw [anonymize, anonymizeFrom]

/-- The body of a binder is relabelled first, and made anonymous after that. -/
theorem anonymize_binder (k : Binder) (x : Label) (A b : Term) :
    anonymize (.binder k x A b) = (do
      let A' ← anonymize A
      let b₁ ← relabelBody x b
      let b' ← anonymize b₁
      return .binder k .anonymous A' b') := by
  rw [anonymize, anonymizeFrom]
  simp only [relay_eq, anonymizeFrom_eq]
  congr 1
  funext A'
  split <;> simp only [*] <;> rfl

/-- Function and argument of an application are made anonymous, in this order. -/
theorem anonymize_app (f a : Term) :
    anonymize (.app f a) = (do
      let f' ← anonymize f
      let a' ← anonymize a
      return .app f' a') := by
  rw [anonymize, anonymizeFrom]
  simp only [relay_eq, anonymizeFrom_eq]

/-- Term and type of an annotation are made anonymous, in this order. -/
theorem anonymize_annot (e A : Term) :
    anonymize (.annot e A) = (do
      let e' ← anonymize e
      let A' ← anonymize A
      return .annot e' A') := by
  rw [anonymize, anonymizeFrom]
  simp only [relay_eq, anonymizeFrom_eq]

/-- The operands of an operation are made anonymous from left to right. -/
theorem anonymize_arith (op : Operation) (l r : Term) :
    anonymize (.arith op l r) = (do
      let l' ← anonymize l
      let r' ← anonymize r
      return .arith op l' r') := by
  rw [anonymize, anonymizeFrom]
  simp only [relay_eq, anonymizeFrom_eq]

/-- The element type of an empty list is made anonymous. -/
theorem anonymize_nil (A : Term) :
    anonymize (.nil A) = (do
      let A' ← anonymize A
      return .nil A') := by
  rw [anonymize, anonymizeFrom]
  simp only [relay_eq, anonymizeFrom_eq]

/-- The elements of a list are made anonymous from left to right. -/
theorem anonymize_list (e : Term) (es : List Term) :
    anonymize (.list e es) = (do
      let e' ← anonymize e
      let es' ← anonymizeAll es
      return .list e' es') := by
  rw [anonymize, anonymizeFrom]
  simp only [relay_eq, anonymizeFrom_eq, anonymizeAllFrom_eq]

@[simp] theorem anonymizeAll_nil : anonymizeAll [] = .ok [] := by
  rw [anonymizeAll, anonymizeAllFrom]

/-- The terms of a list are made anonymous from left to right. -/
theorem anonymizeAll_cons (e : Term) (es : List Term) :
    anonymizeAll (e :: es) = (do
      let e' ← anonymize e
      let es' ← anonymizeAll es
      return e' :: es') := by
  rw [anonymizeAll, anonymizeAllFrom]
  simp only [relay_eq, anonymizeFrom_eq, anonymizeAllFrom_eq]

/-- The elements of a list are relabelled one after the other. -/
theorem anonymizeAll_eq_mapM (es : List Term) : anonymizeAll es = es.mapM anonymize := by
  induction es with
  | nil => simp [pure, Except.pure]
  | cons e es ih => rw [anonymizeAll_cons, List.mapM_cons, ih]

end Term

end Trisort
