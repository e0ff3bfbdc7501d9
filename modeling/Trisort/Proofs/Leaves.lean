import Trisort.Proofs.Resolution
import Mathlib.Data.List.MinMax
import Mathlib.Order.Nat

/-!
# Where a traversal acts

A traversal changes a term at its leaves only, the constants and variables, and at each leaf it acts
with its parameter carried under the binders around that leaf (`Traversal.visit`). So a traversal
that fails does so at a leaf (`failsAtLeaf_of_traverse`), and what it makes of a term has the leaves
of what it makes of the leaves (`stemsFromLeaf_of_traverse`). With these two, statements about
shifting and substitution come down to statements about single variables.

The largest index and the nesting depth of binders are read off the leaves.
-/

namespace Trisort

/-! ### Leaves -/

namespace Term

mutual

/-- The constants and variables of a term, from left to right, each with the labels of the binders
of the term around it, the nearest first. -/
@[simp] def leaves : Term → List (Scope × Term)
  | .const c => [([], .const c)]
  | .var v => [([], .var v)]
  | .binder _ x A b => A.leaves ++ b.leaves.map fun p => (p.1 ++ [x], p.2)
  | .app f a => f.leaves ++ a.leaves
  | .annot e A => e.leaves ++ A.leaves
  | .arith _ l r => l.leaves ++ r.leaves
  | .nil A => A.leaves
  | .list e es => e.leaves ++ leavesAll es

/-- The leaves of the terms of a list. -/
def leavesAll : List Term → List (Scope × Term)
  | [] => []
  | e :: es => e.leaves ++ leavesAll es

end

/-- The leaves of a list of terms are those of its elements, one after the other. -/
@[simp] theorem leavesAll_eq_flatMap (es : List Term) : leavesAll es = es.flatMap leaves := by
  induction es with
  | nil => rfl
  | cons e es ih => rw [leavesAll, ih, List.flatMap_cons]

/-- Every term has a leaf. -/
theorem exists_mem_leaves (t : Term) : ∃ p, p ∈ t.leaves := by
  have hleft {ps qs : List (Scope × Term)} (h : ∃ p, p ∈ ps) : ∃ p, p ∈ ps ++ qs := by
    obtain ⟨p, hp⟩ := h
    exact ⟨p, List.mem_append_left qs hp⟩
  induction t with
  | const c => exact ⟨_, List.mem_singleton_self _⟩
  | var v => exact ⟨_, List.mem_singleton_self _⟩
  | binder k x A b ihA _ => exact hleft ihA
  | app f a ihf _ => exact hleft ihf
  | annot e A ihe _ => exact hleft ihe
  | arith op l r ihl _ => exact hleft ihl
  | nil A ihA => exact ihA
  | list e es ihe _ => exact hleft ihe

/-- The leaves of the body of a binder are leaves of the whole, under one more binder. -/
theorem mem_leaves_body {k : Binder} {x : Label} {A b ℓ : Term} {pre : Scope}
    (h : (pre, ℓ) ∈ b.leaves) : (pre ++ [x], ℓ) ∈ (binder k x A b).leaves :=
  List.mem_append_right _ (List.mem_map.mpr ⟨(pre, ℓ), h, rfl⟩)

/-- A leaf of a binder is one of its type, or one of its body with the binder around it. -/
theorem mem_leaves_binder {k : Binder} {x : Label} {A b ℓ : Term} {pre : Scope}
    (h : (pre, ℓ) ∈ (binder k x A b).leaves) :
    (pre, ℓ) ∈ A.leaves ∨ ∃ inner, pre = inner ++ [x] ∧ (inner, ℓ) ∈ b.leaves := by
  rw [leaves, List.mem_append, List.mem_map] at h
  rcases h with h | ⟨⟨inner, ℓ'⟩, hmem, heq⟩
  · exact .inl h
  · obtain ⟨rfl, rfl⟩ := Prod.mk.inj heq
    exact .inr ⟨inner, rfl, hmem⟩

/-- A leaf of a list literal is one of an element. -/
theorem mem_leaves_list {e ℓ : Term} {es : List Term} {pre : Scope} :
    (pre, ℓ) ∈ (list e es).leaves ↔ (pre, ℓ) ∈ e.leaves ∨ ∃ e' ∈ es, (pre, ℓ) ∈ e'.leaves := by
  rw [leaves, leavesAll_eq_flatMap, List.mem_append, List.mem_flatMap]

/-- The leaves of an element are leaves of the list literal. -/
theorem leaves_subset_list {e e' : Term} {es : List Term} (h : e' ∈ es) :
    e'.leaves ⊆ (list e es).leaves :=
  fun _ hmem => mem_leaves_list.mpr (.inr ⟨e', h, hmem⟩)

/-- A leaf is a constant or a variable. -/
theorem leaf_cases {t ℓ : Term} {pre : Scope} (h : (pre, ℓ) ∈ t.leaves) :
    (∃ c, ℓ = .const c) ∨ ∃ v, ℓ = .var v := by
  induction t generalizing pre with
  | const c =>
    rw [leaves, List.mem_singleton] at h
    exact .inl ⟨c, congrArg Prod.snd h⟩
  | var v =>
    rw [leaves, List.mem_singleton] at h
    exact .inr ⟨v, congrArg Prod.snd h⟩
  | binder k x A b ihA ihb =>
    rcases mem_leaves_binder h with h | ⟨inner, -, h⟩
    · exact ihA h
    · exact ihb h
  | app f a ihf iha =>
    rw [leaves, List.mem_append] at h
    exact h.elim ihf iha
  | annot e A ihe ihA =>
    rw [leaves, List.mem_append] at h
    exact h.elim ihe ihA
  | arith op l r ihl ihr =>
    rw [leaves, List.mem_append] at h
    exact h.elim ihl ihr
  | nil A ihA => exact ihA h
  | list e es ihe ihes =>
    rcases mem_leaves_list.mp h with h | ⟨e', he', h⟩
    · exact ihe h
    · exact ihes e' he' h

/-! ### Depth and largest index -/

/-- The index of a variable. Anything else counts as zero. -/
def index : Term → Nat
  | .var v => v.index
  | _ => 0

/-- The largest index of a variable in the term, zero if there is none. -/
def maxIndex (t : Term) : Nat := (t.leaves.map fun p => p.2.index).foldr max 0

/-- How deep the binders of the term are nested. -/
def bindingDepth (t : Term) : Nat := (t.leaves.map fun p => p.1.length).foldr max 0

/-- No leaf has a larger index than the largest. -/
theorem index_le_maxIndex {t ℓ : Term} {pre : Scope} (h : (pre, ℓ) ∈ t.leaves) :
    ℓ.index ≤ t.maxIndex := by
  have hmem : ℓ.index ∈ t.leaves.map fun p => p.2.index := List.mem_map.mpr ⟨(pre, ℓ), h, rfl⟩
  exact List.le_max_of_le hmem le_rfl

/-- A bound on the indices of all leaves is one on the largest index. -/
theorem maxIndex_le {t : Term} {n : Nat} (h : ∀ pre ℓ, (pre, ℓ) ∈ t.leaves → ℓ.index ≤ n) :
    t.maxIndex ≤ n := by
  apply List.max_le_of_forall_le
  intro i hi
  obtain ⟨⟨pre, ℓ⟩, hmem, rfl⟩ := List.mem_map.mp hi
  exact h pre ℓ hmem

/-- No leaf has more binders around it than the nesting depth. -/
theorem length_le_bindingDepth {t ℓ : Term} {pre : Scope} (h : (pre, ℓ) ∈ t.leaves) :
    pre.length ≤ t.bindingDepth := by
  have hmem : pre.length ∈ t.leaves.map fun p => p.1.length := List.mem_map.mpr ⟨(pre, ℓ), h, rfl⟩
  exact List.le_max_of_le hmem le_rfl

/-- A bound on the number of binders around each leaf is one on the nesting depth. -/
theorem bindingDepth_le {t : Term} {n : Nat} (h : ∀ pre ℓ, (pre, ℓ) ∈ t.leaves → pre.length ≤ n) :
    t.bindingDepth ≤ n := by
  apply List.max_le_of_forall_le
  intro d hd
  obtain ⟨⟨pre, ℓ⟩, hmem, rfl⟩ := List.mem_map.mp hd
  exact h pre ℓ hmem

/-! ### Free variables -/

/-- The variable that an occurrence under the binders `pre` refers to beyond these, if it does. -/
def beyond (pre : Scope) : Term → Option (Label × Nat)
  | .var v => if pre.count v.name ≤ v.index then some (v.name, v.index - pre.count v.name) else none
  | _ => none

/-- The free variables of a term, from left to right. The indices count what lies outside the
term. -/
def freeVars (t : Term) : List (Label × Nat) := t.leaves.filterMap fun p => p.2.beyond p.1

/-- An occurrence refers to `x@i` beyond the binders `pre` if its index counts those of them
labelled `x`, and `i` more. -/
theorem beyond_eq_some_iff {pre : Scope} {ℓ : Term} {x : Label} {i : Nat} :
    ℓ.beyond pre = some (x, i) ↔ ∃ v, ℓ = .var v ∧ v.name = x ∧ v.index = i + pre.count x := by
  cases ℓ with
  | var v =>
    simp only [beyond, Option.ite_none_right_eq_some, Option.some.injEq, Prod.mk.injEq, var.injEq]
    constructor
    · rintro ⟨hle, rfl, rfl⟩
      exact ⟨v, rfl, rfl, by omega⟩
    · rintro ⟨_, rfl, rfl, hindex⟩
      exact ⟨by omega, rfl, by omega⟩
  | _ => simp [beyond]

/-- The free variable `x@i` occurs as a leaf whose index also counts the binders labelled `x` around
it. -/
theorem mem_freeVars {t : Term} {x : Label} {i : Nat} :
    (x, i) ∈ t.freeVars ↔
      ∃ pre v, (pre, .var v) ∈ t.leaves ∧ v.name = x ∧ v.index = i + pre.count x := by
  rw [freeVars, List.mem_filterMap]
  constructor
  · rintro ⟨⟨pre, ℓ⟩, hmem, hℓ⟩
    obtain ⟨v, rfl, hname, hindex⟩ := beyond_eq_some_iff.mp hℓ
    exact ⟨pre, v, hmem, hname, hindex⟩
  · rintro ⟨pre, v, hmem, hname, hindex⟩
    exact ⟨(pre, .var v), hmem, beyond_eq_some_iff.mpr ⟨v, rfl, hname, hindex⟩⟩

end Term

/-! ### Traversals -/

namespace Traversal

variable {σ : Type} (T : Traversal σ) (s : σ)

/-- The parameter carried under the binders of a scope, the outermost first. -/
def carry (pre : Scope) : Except IndexFault σ := pre.foldrM (fun x s => T.under s x) s

/-- The innermost binder is passed last. -/
theorem carry_cons (x : Label) (pre : Scope) :
    T.carry s (x :: pre) = T.carry s pre >>= fun s' => T.under s' x :=
  List.foldrM_cons

/-- The outermost binder is passed first. -/
theorem carry_concat (pre : Scope) (x : Label) :
    T.carry s (pre ++ [x]) = T.under s x >>= fun s' => T.carry s' pre := by
  rw [carry, List.foldrM_append]
  simp [carry]

/-- What the traversal makes of the leaf `ℓ` under the binders `pre`. -/
def visit (pre : Scope) (ℓ : Term) : Except IndexFault Term := do
  let s' ← T.carry s pre
  ℓ.traverse T s'

/-- A leaf under one more outer binder is visited with the parameter carried under that binder. -/
theorem visit_concat (pre : Scope) (x : Label) (ℓ : Term) :
    T.visit s (pre ++ [x]) ℓ = T.under s x >>= fun s' => T.visit s' pre ℓ := by
  simp only [visit, carry_concat, bind_assoc]

end Traversal

namespace Term

variable {σ : Type} {T : Traversal σ}

/-- The traversal fails with `e` at a leaf of the term. -/
def FailsAtLeaf (T : Traversal σ) (s : σ) (e : IndexFault) (t : Term) : Prop :=
  ∃ pre ℓ, (pre, ℓ) ∈ t.leaves ∧ T.visit s pre ℓ = .error e

/-- The leaf `ℓ'` under the binders `pre'` belongs to what the traversal makes of a leaf of the
term. -/
def StemsFromLeaf (T : Traversal σ) (s : σ) (pre' : Scope) (ℓ' t : Term) : Prop :=
  ∃ pre ℓ u inner, (pre, ℓ) ∈ t.leaves ∧ T.visit s pre ℓ = .ok u ∧ (inner, ℓ') ∈ u.leaves ∧
    pre' = inner ++ pre

/-- A failure at a leaf is one in every term that has the leaf. -/
theorem FailsAtLeaf.mono {s : σ} {e : IndexFault} {t u : Term} (h : FailsAtLeaf T s e t)
    (hsub : t.leaves ⊆ u.leaves) : FailsAtLeaf T s e u := by
  obtain ⟨pre, ℓ, hmem, hℓ⟩ := h
  exact ⟨pre, ℓ, hsub hmem, hℓ⟩

/-- What stems from a leaf stems from every term that has the leaf. -/
theorem StemsFromLeaf.mono {s : σ} {pre' : Scope} {ℓ' t u : Term}
    (h : StemsFromLeaf T s pre' ℓ' t) (hsub : t.leaves ⊆ u.leaves) :
    StemsFromLeaf T s pre' ℓ' u := by
  obtain ⟨pre, ℓ, w, inner, hmem, hrest⟩ := h
  exact ⟨pre, ℓ, w, inner, hsub hmem, hrest⟩

/-- A traversal that fails does so at a leaf. -/
theorem failsAtLeaf_of_traverse {s : σ} {t : Term} {e : IndexFault}
    (h : traverse T s t = .error e) : FailsAtLeaf T s e t := by
  induction t generalizing s with
  | const c => cases h
  | var v => exact ⟨[], .var v, List.mem_singleton_self _, h⟩
  | binder k x A b ihA ihb =>
    simp only [traverse_binder, bind_eq_error_iff, pure_ne_error, and_false, exists_false,
      or_false] at h
    rcases h with hA | ⟨A', -, hunder | ⟨s', hs', hb⟩⟩
    · exact (ihA hA).mono (List.subset_append_left _ _)
    · -- The parameter cannot be carried to the body, so not to any leaf of it either.
      obtain ⟨⟨pre, ℓ⟩, hmem⟩ := b.exists_mem_leaves
      refine ⟨pre ++ [x], ℓ, mem_leaves_body hmem, ?_⟩
      rw [Traversal.visit_concat, hunder]
      rfl
    · obtain ⟨pre, ℓ, hmem, hℓ⟩ := ihb hb
      refine ⟨pre ++ [x], ℓ, mem_leaves_body hmem, ?_⟩
      rw [Traversal.visit_concat, hs']
      exact hℓ
  | app f a ihf iha =>
    simp only [traverse_app, bind_eq_error_iff, pure_ne_error, and_false, exists_false,
      or_false] at h
    rcases h with hf | ⟨f', -, ha⟩
    · exact (ihf hf).mono (List.subset_append_left _ _)
    · exact (iha ha).mono (List.subset_append_right _ _)
  | annot e A ihe ihA =>
    simp only [traverse_annot, bind_eq_error_iff, pure_ne_error, and_false, exists_false,
      or_false] at h
    rcases h with he | ⟨e', -, hA⟩
    · exact (ihe he).mono (List.subset_append_left _ _)
    · exact (ihA hA).mono (List.subset_append_right _ _)
  | arith op l r ihl ihr =>
    simp only [traverse_arith, bind_eq_error_iff, pure_ne_error, and_false, exists_false,
      or_false] at h
    rcases h with hl | ⟨l', -, hr⟩
    · exact (ihl hl).mono (List.subset_append_left _ _)
    · exact (ihr hr).mono (List.subset_append_right _ _)
  | nil A ihA =>
    simp only [traverse_nil, bind_eq_error_iff, pure_ne_error, and_false, exists_false,
      or_false] at h
    exact ihA h
  | list e es ihe ihes =>
    simp only [traverse_list, bind_eq_error_iff, pure_ne_error, and_false, exists_false,
      or_false] at h
    rcases h with he | ⟨e', -, hes⟩
    · exact (ihe he).mono (List.subset_append_left _ _)
    · rw [traverseAll_eq_mapM] at hes
      obtain ⟨e', he', herror⟩ := exists_mem_of_mapM_error hes
      exact (ihes e' he' herror).mono (leaves_subset_list he')

/-- Every leaf of the outcome of a traversal belongs to what became of a leaf. -/
theorem stemsFromLeaf_of_traverse {s : σ} {t t' ℓ' : Term} {pre' : Scope}
    (h : traverse T s t = .ok t') (hmem : (pre', ℓ') ∈ t'.leaves) :
    StemsFromLeaf T s pre' ℓ' t := by
  induction t generalizing s t' pre' with
  | const c =>
    cases h
    exact ⟨[], .const c, .const c, pre', List.mem_singleton_self _, rfl, hmem, by simp⟩
  | var v => exact ⟨[], .var v, t', pre', List.mem_singleton_self _, h, hmem, by simp⟩
  | binder k x A b ihA ihb =>
    simp only [traverse_binder, bind_eq_ok_iff, pure_eq_ok_iff] at h
    obtain ⟨A', hA, s', hs', b', hb, rfl⟩ := h
    rcases mem_leaves_binder hmem with hparam | ⟨outer, rfl, hbody⟩
    · exact (ihA hA hparam).mono (List.subset_append_left _ _)
    · obtain ⟨pre, ℓ, u, inner, hℓ, hu, hinner, rfl⟩ := ihb hb hbody
      refine ⟨pre ++ [x], ℓ, u, inner, mem_leaves_body hℓ, ?_, hinner, List.append_assoc _ _ _⟩
      rw [Traversal.visit_concat, hs']
      exact hu
  | app f a ihf iha =>
    simp only [traverse_app, bind_eq_ok_iff, pure_eq_ok_iff] at h
    obtain ⟨f', hf, a', ha, rfl⟩ := h
    rcases List.mem_append.mp hmem with hmem | hmem
    · exact (ihf hf hmem).mono (List.subset_append_left _ _)
    · exact (iha ha hmem).mono (List.subset_append_right _ _)
  | annot e A ihe ihA =>
    simp only [traverse_annot, bind_eq_ok_iff, pure_eq_ok_iff] at h
    obtain ⟨e', he, A', hA, rfl⟩ := h
    rcases List.mem_append.mp hmem with hmem | hmem
    · exact (ihe he hmem).mono (List.subset_append_left _ _)
    · exact (ihA hA hmem).mono (List.subset_append_right _ _)
  | arith op l r ihl ihr =>
    simp only [traverse_arith, bind_eq_ok_iff, pure_eq_ok_iff] at h
    obtain ⟨l', hl, r', hr, rfl⟩ := h
    rcases List.mem_append.mp hmem with hmem | hmem
    · exact (ihl hl hmem).mono (List.subset_append_left _ _)
    · exact (ihr hr hmem).mono (List.subset_append_right _ _)
  | nil A ihA =>
    simp only [traverse_nil, bind_eq_ok_iff, pure_eq_ok_iff] at h
    obtain ⟨A', hA, rfl⟩ := h
    exact ihA hA hmem
  | list e es ihe ihes =>
    simp only [traverse_list, bind_eq_ok_iff, pure_eq_ok_iff] at h
    obtain ⟨e', he, es', hes, rfl⟩ := h
    rcases mem_leaves_list.mp hmem with hmem | ⟨w', hw', hmem⟩
    · exact (ihe he hmem).mono (List.subset_append_left _ _)
    · rw [traverseAll_eq_mapM] at hes
      obtain ⟨w, hw, hwok⟩ := exists_mem_of_mapM hes hw'
      exact (ihes w hw hwok hmem).mono (leaves_subset_list hw)

/-! ### Leaves of terms that do not refer to a binder -/

open Nameless

/-- If nothing in a term refers to the `n`-th binder of the scope, no leaf of it does. -/
theorem leaf_unused {t ℓ : Term} {Γ pre : Scope} {n : Nat} {u : Nameless}
    (h : t.resolve Γ = u.rename (insertion n)) (hmem : (pre, ℓ) ∈ t.leaves) :
    ∃ w : Nameless, ℓ.resolve (pre ++ Γ) = w.rename (insertion (pre.length + n)) := by
  induction t generalizing Γ pre n u with
  | const c =>
    obtain ⟨rfl, rfl⟩ := Prod.mk.inj (List.mem_singleton.mp hmem)
    exact ⟨u, by simpa using h⟩
  | var v =>
    obtain ⟨rfl, rfl⟩ := Prod.mk.inj (List.mem_singleton.mp hmem)
    exact ⟨u, by simpa using h⟩
  | binder k x A b ihA ihb =>
    cases u with
    | binder k' B d =>
      obtain ⟨-, hA, hb⟩ := Nameless.binder.inj h
      rcases mem_leaves_binder hmem with hparam | ⟨inner, rfl, hbody⟩
      · exact ihA hA hparam
      · obtain ⟨w, hw⟩ := ihb (n := n + 1) hb hbody
        refine ⟨w, ?_⟩
        simpa [Nat.add_assoc, Nat.add_comm 1 n] using hw
    | _ => simp at h
  | app f a ihf iha =>
    cases u with
    | app =>
      obtain ⟨hf, ha⟩ := Nameless.app.inj h
      rcases List.mem_append.mp hmem with hmem | hmem
      · exact ihf hf hmem
      · exact iha ha hmem
    | _ => simp at h
  | annot e A ihe ihA =>
    cases u with
    | annot =>
      obtain ⟨he, hA⟩ := Nameless.annot.inj h
      rcases List.mem_append.mp hmem with hmem | hmem
      · exact ihe he hmem
      · exact ihA hA hmem
    | _ => simp at h
  | arith op l r ihl ihr =>
    cases u with
    | arith =>
      obtain ⟨-, hl, hr⟩ := Nameless.arith.inj h
      rcases List.mem_append.mp hmem with hmem | hmem
      · exact ihl hl hmem
      · exact ihr hr hmem
    | _ => simp at h
  | nil A ihA =>
    cases u with
    | nil => exact ihA (Nameless.nil.inj h) hmem
    | _ => simp at h
  | list e es ihe ihes =>
    cases u with
    | list w ws =>
      simp only [resolve, resolveAll_eq_map, rename, renameAll_eq_map, Nameless.list.injEq] at h
      obtain ⟨he, hes⟩ := h
      rcases mem_leaves_list.mp hmem with hmem | ⟨e', he', hmem⟩
      · exact ihe he hmem
      · have himage := List.mem_map_of_mem (f := resolve Γ) he'
        rw [hes] at himage
        obtain ⟨w', -, hw'⟩ := List.mem_map.mp himage
        exact ihes e' he' hw'.symm hmem
    | _ => simp at h

/-- If nothing in a term refers to a binder of the scope, the variable of that binder is not free in
the term. -/
theorem not_mem_freeVars_of_unused (pre : Scope) {post : Scope} {x : Label} {t : Term}
    {u : Nameless} (h : t.resolve (pre ++ x :: post) = u.rename (insertion pre.length)) :
    (x, pre.count x) ∉ t.freeVars := by
  intro hfree
  obtain ⟨inner, v, hmem, hname, hindex⟩ := mem_freeVars.mp hfree
  obtain ⟨w, hw⟩ := leaf_unused h hmem
  rw [resolve, hname, hindex, Nat.add_comm, ← List.count_append, ← List.append_assoc,
    Scope.locate_inserted, List.length_append] at hw
  exact absurd hw.symm (rename_insertion_ne_bound _ _)

end Term

end Trisort
