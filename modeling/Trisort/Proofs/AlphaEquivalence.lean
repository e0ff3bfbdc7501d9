import Trisort.Proofs.Correspondence

/-!
# The anonymous form is the nameless form

`Term.anonymize` relabels every binder to `_`, and its result stands for the same nameless term
(`resolve_anonymize`). Conversely a term all of whose binders are labelled `_` is determined by its
nameless form (`eq_of_resolve_eq`): there the index of a bound occurrence is its distance from the
binder, a free `_` counts all the binders it passes, and any other name counts none. Together, the
anonymous forms of two terms are equal exactly if the terms differ in the labels of binders only.
-/

namespace Trisort

namespace Term

/-- Every binder of the term is labelled `_`. -/
def Anonymous (t : Term) : Prop := ∀ x ∈ t.binderLabels, x = .anonymous

/-- It can be decided whether all binders of a term are labelled `_`. -/
instance (t : Term) : Decidable t.Anonymous := inferInstanceAs (Decidable (∀ x ∈ _, _))

@[simp] theorem anonymous_const (c : Constant) : (const c).Anonymous := by simp [Anonymous]

@[simp] theorem anonymous_var (v : Var) : (var v).Anonymous := by simp [Anonymous]

/-- All binders of a binder are labelled `_` if it is itself, and those of its parts are. -/
@[simp] theorem anonymous_binder {k : Binder} {x : Label} {A b : Term} :
    (binder k x A b).Anonymous ↔ x = .anonymous ∧ A.Anonymous ∧ b.Anonymous := by
  simp [Anonymous, or_imp, forall_and]

@[simp] theorem anonymous_app {f a : Term} :
    (app f a).Anonymous ↔ f.Anonymous ∧ a.Anonymous := by
  simp [Anonymous, or_imp, forall_and]

@[simp] theorem anonymous_annot {e A : Term} :
    (annot e A).Anonymous ↔ e.Anonymous ∧ A.Anonymous := by
  simp [Anonymous, or_imp, forall_and]

@[simp] theorem anonymous_arith {op : Operation} {l r : Term} :
    (arith op l r).Anonymous ↔ l.Anonymous ∧ r.Anonymous := by
  simp [Anonymous, or_imp, forall_and]

@[simp] theorem anonymous_nil {A : Term} : (nil A).Anonymous ↔ A.Anonymous := by
  simp [Anonymous]

@[simp] theorem anonymous_list {e : Term} {es : List Term} :
    (list e es).Anonymous ↔ e.Anonymous ∧ ∀ e' ∈ es, e'.Anonymous := by
  simp only [Anonymous, binderLabels, binderLabelsAll_eq_flatMap, List.mem_append,
    List.mem_flatMap, or_imp, forall_and, forall_exists_index, and_imp]
  exact and_congr_right fun _ => ⟨fun h e he x hx => h x e he hx, fun h x e he hx => h e he x hx⟩

/-! ### What relabelling does -/

/-- The anonymous form of a term has the nameless form of the term. -/
theorem resolve_anonymize {t u : Term} (h : t.anonymize = .ok u) (Γ : Scope) :
    u.resolve Γ = t.resolve Γ := by
  -- The binder is relabelled before its body is, so the induction is on size.
  induction t using inductSize generalizing u Γ with
  | const c =>
    rw [anonymize_const, Except.ok.injEq] at h
    rw [h]
  | var v =>
    rw [anonymize_var, Except.ok.injEq] at h
    rw [h]
  | binder k x A b ihA ihb =>
    simp only [anonymize_binder, bind_eq_ok_iff, pure_eq_ok_iff] at h
    obtain ⟨A', hA, b₁, hb₁, b', hb', rfl⟩ := h
    rw [resolve, resolve, ihA hA, ihb b₁ (size_relabelBody hb₁) hb', resolve_relabelBody hb₁]
  | app f a ihf iha =>
    simp only [anonymize_app, bind_eq_ok_iff, pure_eq_ok_iff] at h
    obtain ⟨f', hf, a', ha, rfl⟩ := h
    rw [resolve, resolve, ihf hf, iha ha]
  | annot e A ihe ihA =>
    simp only [anonymize_annot, bind_eq_ok_iff, pure_eq_ok_iff] at h
    obtain ⟨e', he, A', hA, rfl⟩ := h
    rw [resolve, resolve, ihe he, ihA hA]
  | arith op l r ihl ihr =>
    simp only [anonymize_arith, bind_eq_ok_iff, pure_eq_ok_iff] at h
    obtain ⟨l', hl, r', hr, rfl⟩ := h
    rw [resolve, resolve, ihl hl, ihr hr]
  | nil A ihA =>
    simp only [anonymize_nil, bind_eq_ok_iff, pure_eq_ok_iff] at h
    obtain ⟨A', hA, rfl⟩ := h
    rw [resolve, resolve, ihA hA]
  | list e es ihe ihes =>
    simp only [anonymize_list, bind_eq_ok_iff, pure_eq_ok_iff] at h
    obtain ⟨e', he, es', hes, rfl⟩ := h
    rw [anonymizeAll_eq_mapM] at hes
    have hmap : es.map (resolve Γ) = es'.map (resolve Γ) := by
      rw [map_eq_map_iff_forall₂]
      exact forall₂_of_mapM hes fun e he e' he' => (ihes e he he' Γ).symm
    rw [resolve, resolve, ihe he, resolveAll_eq_map, resolveAll_eq_map, hmap]

/-- Every binder of an anonymous form is labelled `_`. -/
theorem anonymous_anonymize {t u : Term} (h : t.anonymize = .ok u) : u.Anonymous := by
  induction t using inductSize generalizing u with
  | const c =>
    rw [anonymize_const, Except.ok.injEq] at h
    simp [← h]
  | var v =>
    rw [anonymize_var, Except.ok.injEq] at h
    simp [← h]
  | binder k y A b ihA ihb =>
    simp only [anonymize_binder, bind_eq_ok_iff, pure_eq_ok_iff] at h
    obtain ⟨A', hA, b₁, hb₁, b', hb', rfl⟩ := h
    exact anonymous_binder.mpr ⟨rfl, ihA hA, ihb b₁ (size_relabelBody hb₁) hb'⟩
  | app f a ihf iha =>
    simp only [anonymize_app, bind_eq_ok_iff, pure_eq_ok_iff] at h
    obtain ⟨f', hf, a', ha, rfl⟩ := h
    exact anonymous_app.mpr ⟨ihf hf, iha ha⟩
  | annot e A ihe ihA =>
    simp only [anonymize_annot, bind_eq_ok_iff, pure_eq_ok_iff] at h
    obtain ⟨e', he, A', hA, rfl⟩ := h
    exact anonymous_annot.mpr ⟨ihe he, ihA hA⟩
  | arith op l r ihl ihr =>
    simp only [anonymize_arith, bind_eq_ok_iff, pure_eq_ok_iff] at h
    obtain ⟨l', hl, r', hr, rfl⟩ := h
    exact anonymous_arith.mpr ⟨ihl hl, ihr hr⟩
  | nil A ihA =>
    simp only [anonymize_nil, bind_eq_ok_iff, pure_eq_ok_iff] at h
    obtain ⟨A', hA, rfl⟩ := h
    exact anonymous_nil.mpr (ihA hA)
  | list e es ihe ihes =>
    simp only [anonymize_list, bind_eq_ok_iff, pure_eq_ok_iff] at h
    obtain ⟨e', he, es', hes, rfl⟩ := h
    rw [anonymizeAll_eq_mapM] at hes
    refine anonymous_list.mpr ⟨ihe he, fun e' he' => ?_⟩
    obtain ⟨e, hmem, h⟩ := exists_mem_of_mapM hes he'
    exact ihes e hmem h

/-! ### Terms determined by their nameless form -/

/-- A term whose binders are all labelled `_` is determined by its nameless form. -/
theorem eq_of_resolve_eq {t u : Term} (ht : t.Anonymous) (hu : u.Anonymous) {Γ : Scope}
    (h : t.resolve Γ = u.resolve Γ) : t = u := by
  refine eq_of_corresponds (corresponds_of_resolve_eq h) ?_
  intro x hx y hy _
  rw [ht x hx, hu y hy]

/-! ### Equality up to labels -/

/-- Anonymous forms are equal exactly if the terms stand for the same, in any scope. -/
theorem anonymize_eq_iff {a b a' b' : Term} (ha : a.anonymize = .ok a')
    (hb : b.anonymize = .ok b') (Γ : Scope) : a' = b' ↔ a.resolve Γ = b.resolve Γ := by
  rw [← resolve_anonymize ha, ← resolve_anonymize hb]
  constructor
  · intro h
    rw [h]
  · intro h
    exact eq_of_resolve_eq (anonymous_anonymize ha) (anonymous_anonymize hb) h

/-- Anonymous form is exactly equality up to the labels of binders: it labels every binder `_`
without changing what the term stands for, and it makes two terms equal if and only if they stand
for the same. -/
theorem anonymize_decides_alpha :
    (∀ t u : Term, t.anonymize = .ok u → u.Anonymous ∧ u.resolve [] = t.resolve []) ∧
      ∀ a b a' b' : Term, a.anonymize = .ok a' → b.anonymize = .ok b' →
        (a' = b' ↔ a.resolve [] = b.resolve []) := by
  constructor
  · intro t u h
    exact ⟨anonymous_anonymize h, resolve_anonymize h []⟩
  · intro a b a' b' ha hb
    exact anonymize_eq_iff ha hb []

/-- The variable `x@i` as a term, for an index in range. -/
def nearby (x : Label) (i : Nat) : Term :=
  .var (if h : i < Var.indexBound then ⟨x, i, h⟩ else .nearest x)

/-- `λ(x : _) → λ(_ : x) → x _ _@1`, in which `_` is bound, free, and free behind its binder. -/
def underscored : Term :=
  .lam "x" (.nearby "_" 0) (.lam "_" (.nearby "x" 0)
    (.app (.app (.nearby "x" 0) (.nearby "_" 0)) (.nearby "_" 1)))

/-- `λ(_ : _) → λ(y : _) → _ y _@1`, the same with other labels. -/
def underscoredOuter : Term :=
  .lam "_" (.nearby "_" 0) (.lam "y" (.nearby "_" 0)
    (.app (.app (.nearby "_" 0) (.nearby "y" 0)) (.nearby "_" 1)))

/-- `λ(_ : _) → λ(_ : _) → _@1 _ _@2`, the anonymous form of both. -/
def underscoredForm : Term :=
  .lam "_" (.nearby "_" 0) (.lam "_" (.nearby "_" 0)
    (.app (.app (.nearby "_" 1) (.nearby "_" 0)) (.nearby "_" 2)))

/-- Both terms have the anonymous form `underscoredForm`, although `_` has three roles in them. -/
theorem anonymize_decides_alpha_underscored :
    underscored.anonymize = .ok underscoredForm ∧
      underscoredOuter.anonymize = .ok underscoredForm ∧
      underscoredForm.Anonymous ∧ underscoredForm.resolve [] = underscored.resolve [] ∧
      underscored.resolve [] = underscoredOuter.resolve [] := by
  have ha : underscored.anonymize = .ok underscoredForm := by cbv
  have hb : underscoredOuter.anonymize = .ok underscoredForm := by cbv
  obtain ⟨hlabels, hform⟩ := anonymize_decides_alpha.1 underscored underscoredForm ha
  exact ⟨ha, hb, hlabels, hform, (anonymize_decides_alpha.2 _ _ _ _ ha hb).mp rfl⟩

end Term

end Trisort
