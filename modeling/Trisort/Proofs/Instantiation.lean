import Trisort.Proofs.AlphaEquivalence
import Trisort.Proofs.Leaves

/-!
# Filling a binder

`b.instantiate x a` shifts `a` up, puts it for the variable of the binder `x`, and shifts the
outcome down. Two things are shown of it. What it returns is right: the nameless form of the outcome
is the nameless form of `b` with its nearest binder filled. And it does return, as long as the
indices it passes through stay below the bound on indices; the largest of them is known in advance
from the indices in `b` and `a` and from how deep their binders are nested (`exists_instantiate`).

A shift can fail in two ways, at a variable that it moves out of range and at a binder under which
it cannot carry its cutoff (`shift_eq_error`). The shift down at the end of `instantiate` decrements
every variable that is free in the outcome and has the name `x`. None of these has index zero: that
would be the variable of the removed binder, and nothing refers to it any more.
-/

namespace Trisort

open Var (indexBound)

/-! ### Shifting -/

namespace Traversal

variable {δ : Int} {c : Var} {pre : Scope}

/-- Under a list of binders, the cutoff counts those with its name. -/
theorem carry_shift_eq_ok {c' : Var} (h : (shift δ).carry c pre = .ok c') :
    c'.name = c.name ∧ c'.index = c.index + pre.count c.name := by
  induction pre generalizing c' with
  | nil =>
    cases h
    exact ⟨rfl, rfl⟩
  | cons x pre ih =>
    rw [carry_cons, bind_eq_ok_iff] at h
    obtain ⟨d, hd, hc'⟩ := h
    obtain ⟨hname, hindex⟩ := ih hd
    obtain ⟨hname', hindex'⟩ := Var.under_eq_ok_iff.mp hc'
    refine ⟨hname'.trans hname, ?_⟩
    rw [hindex', hindex, hname]
    by_cases hx : c.name = x
    · rw [if_pos hx, hx, List.count_cons_self]
      omega
    · rw [if_neg hx, List.count_cons_of_ne (Ne.symm hx)]
      omega

/-- The cutoff can be carried under the binders unless there are too many of its name. -/
theorem carry_shift_eq_error {e : IndexFault} (h : (shift δ).carry c pre = .error e) :
    e = .overflow ∧ indexBound ≤ c.index + pre.count c.name := by
  induction pre with
  | nil => cases h
  | cons x pre ih =>
    rw [carry_cons, bind_eq_error_iff] at h
    rcases h with hpre | ⟨d, hd, hx⟩
    · obtain ⟨he, hle⟩ := ih hpre
      have hmono : pre.count c.name ≤ (x :: pre).count c.name := List.count_le_count_cons
      exact ⟨he, by omega⟩
    · obtain ⟨hname, hindex⟩ := carry_shift_eq_ok hd
      obtain ⟨he, hx, hd⟩ := Var.under_eq_error_iff.mp hx
      have hcount : (x :: pre).count c.name = pre.count c.name + 1 := by
        rw [← hname, hx, List.count_cons_self]
      exact ⟨he, by omega⟩

end Traversal

namespace Term

open Nameless (insertion)

/-- Why a shift fails: somewhere in the term the cutoff leaves the range of indices, or a variable
at or above the cutoff does. -/
theorem shift_eq_error {t : Term} {δ : Int} {c : Var} {e : IndexFault}
    (h : t.shift δ c = .error e) :
    ∃ pre ℓ, (pre, ℓ) ∈ t.leaves ∧
      ((e = .overflow ∧ indexBound ≤ c.index + pre.count c.name) ∨
        ∃ v, ℓ = .var v ∧ v.name = c.name ∧ c.index + pre.count c.name ≤ v.index ∧
          e = .outOfScope v δ ∧ ((v.index : Int) + δ < 0 ∨ (indexBound : Int) ≤ v.index + δ)) := by
  obtain ⟨pre, ℓ, hmem, hvisit⟩ := failsAtLeaf_of_traverse h
  refine ⟨pre, ℓ, hmem, ?_⟩
  rw [Traversal.visit, bind_eq_error_iff] at hvisit
  rcases hvisit with hcarry | ⟨c', hcarry, hleaf⟩
  · exact .inl (Traversal.carry_shift_eq_error hcarry)
  · right
    obtain ⟨hname, hindex⟩ := Traversal.carry_shift_eq_ok hcarry
    rcases leaf_cases hmem with ⟨k, rfl⟩ | ⟨v, rfl⟩
    · cases hleaf
    · change shift (.var v) δ c' = _ at hleaf
      rw [shift_var] at hleaf
      split at hleaf
      case isTrue hv =>
        simp only [bind_eq_error_iff, pure_ne_error, and_false, exists_false, or_false] at hleaf
        obtain ⟨he, hrange⟩ := Var.move_eq_error_iff.mp hleaf
        exact ⟨v, rfl, hv.1.trans hname, hindex ▸ hv.2, he, hrange⟩
      case isFalse => exact absurd hleaf pure_ne_error

/-- Shifting keeps the shape of a term, and moves an index by `δ` or not at all. -/
theorem mem_leaves_shift {t t' ℓ' : Term} {δ : Int} {c : Var} {pre : Scope}
    (h : t.shift δ c = .ok t') (hmem : (pre, ℓ') ∈ t'.leaves) :
    ∃ ℓ, (pre, ℓ) ∈ t.leaves ∧
      ((ℓ'.index : Int) = ℓ.index ∨ (ℓ'.index : Int) = ℓ.index + δ) := by
  obtain ⟨outer, ℓ, u, inner, hℓ, hvisit, hinner, rfl⟩ := stemsFromLeaf_of_traverse h hmem
  rw [Traversal.visit, bind_eq_ok_iff] at hvisit
  obtain ⟨c', -, hleaf⟩ := hvisit
  rcases leaf_cases hℓ with ⟨k, rfl⟩ | ⟨v, rfl⟩
  · cases hleaf
    obtain ⟨rfl, rfl⟩ := Prod.mk.inj (List.mem_singleton.mp hinner)
    exact ⟨_, hℓ, .inl rfl⟩
  · change shift (.var v) δ c' = _ at hleaf
    rw [shift_var] at hleaf
    split at hleaf
    case isTrue =>
      simp only [bind_eq_ok_iff, pure_eq_ok_iff] at hleaf
      obtain ⟨w, hw, rfl⟩ := hleaf
      obtain ⟨rfl, rfl⟩ := Prod.mk.inj (List.mem_singleton.mp hinner)
      exact ⟨_, hℓ, .inr (Var.move_eq_ok_iff.mp hw).2⟩
    case isFalse =>
      rw [pure_eq_ok_iff] at hleaf
      subst hleaf
      obtain ⟨rfl, rfl⟩ := Prod.mk.inj (List.mem_singleton.mp hinner)
      exact ⟨_, hℓ, .inl rfl⟩

/-- A shift does not nest binders more deeply. -/
theorem bindingDepth_shift_le {t t' : Term} {δ : Int} {c : Var} (h : t.shift δ c = .ok t') :
    t'.bindingDepth ≤ t.bindingDepth := by
  apply bindingDepth_le
  intro pre ℓ' hmem
  obtain ⟨ℓ, hℓ, -⟩ := mem_leaves_shift h hmem
  exact length_le_bindingDepth hℓ

/-- A shift up by one raises the largest index by one at most. -/
theorem maxIndex_shift_up_le {t t' : Term} {c : Var} (h : t.shift 1 c = .ok t') :
    t'.maxIndex ≤ t.maxIndex + 1 := by
  apply maxIndex_le
  intro pre ℓ' hmem
  obtain ⟨ℓ, hℓ, hindex⟩ := mem_leaves_shift h hmem
  have hle := index_le_maxIndex hℓ
  omega

/-- A shift up succeeds if there is room for one more at the largest index, and if the cutoff can go
under all binders. -/
theorem exists_shift_up {t : Term} {c : Var} (hindex : t.maxIndex + 1 < indexBound)
    (hdepth : c.index + t.bindingDepth < indexBound) : ∃ t', t.shift 1 c = .ok t' := by
  rcases hshift : t.shift 1 c with e | t'
  · obtain ⟨pre, ℓ, hmem, ⟨-, hcount⟩ | ⟨v, rfl, -, -, -, hrange⟩⟩ := shift_eq_error hshift
    · have hlength := length_le_bindingDepth hmem
      have hle : pre.count c.name ≤ pre.length := List.count_le_length
      omega
    · have hv : v.index ≤ t.maxIndex := index_le_maxIndex hmem
      omega
  · exact ⟨t', rfl⟩

/-- A shift down over the variable of a binder to which nothing refers moves no index below zero: it
fails only where the cutoff cannot be carried. -/
theorem shift_down_eq_error (pre : Scope) {post : Scope} {t : Term} {c : Var} {u : Nameless}
    {e : IndexFault} (hc : c.index = pre.count c.name)
    (hunused : t.resolve (pre ++ c.name :: post) = u.rename (insertion pre.length))
    (h : t.shift (-1) c = .error e) :
    e = .overflow ∧ ∃ inner ℓ, (inner, ℓ) ∈ t.leaves ∧
      indexBound ≤ c.index + inner.count c.name := by
  obtain ⟨inner, ℓ, hmem, ⟨he, hcount⟩ | ⟨v, rfl, hname, hcut, -, hrange⟩⟩ := shift_eq_error h
  · exact ⟨he, inner, ℓ, hmem, hcount⟩
  · -- The variable is the one at the cutoff, so it is the variable of the binder.
    have hlt := v.index_lt
    have hfree : (c.name, pre.count c.name) ∈ t.freeVars :=
      mem_freeVars.mpr ⟨inner, v, hmem, hname, by omega⟩
    exact absurd hfree (not_mem_freeVars_of_unused pre hunused)

/-- A shift down over the variable of a binder succeeds if nothing refers to that binder. -/
theorem exists_shift_down {t : Term} {Γ : Scope} {x : Label} {u : Nameless}
    (hunused : t.resolve (x :: Γ) = u.weaken) (hdepth : t.bindingDepth < indexBound) :
    ∃ t', t.shift (-1) (.nearest x) = .ok t' := by
  rcases hshift : t.shift (-1) (.nearest x) with e | t'
  · obtain ⟨-, inner, ℓ, hmem, hcount⟩ :=
      shift_down_eq_error (c := .nearest x) [] rfl hunused hshift
    have hlength := length_le_bindingDepth hmem
    have hle : inner.count (Var.nearest x).name ≤ inner.length := List.count_le_length
    rw [Var.nearest_index] at hcount
    omega
  · exact ⟨t', rfl⟩

/-! ### Substitution -/

/-- Carried under binders, the value of a replacement keeps its shape, and no index grows by more
than the number of binders. -/
theorem carry_subst_le {s s' : Replacement} {pre : Scope}
    (h : Traversal.subst.carry s pre = .ok s') :
    s'.value.maxIndex ≤ s.value.maxIndex + pre.length ∧
      s'.value.bindingDepth ≤ s.value.bindingDepth ∧ s'.var.index ≤ s.var.index + pre.length := by
  induction pre generalizing s' with
  | nil =>
    cases h
    exact ⟨le_rfl, le_rfl, le_rfl⟩
  | cons x pre ih =>
    rw [Traversal.carry_cons, bind_eq_ok_iff] at h
    obtain ⟨d, hd, hs'⟩ := h
    obtain ⟨hindex, hdepth, hvar⟩ := ih hd
    simp only [Traversal.subst, Replacement.under, bind_eq_ok_iff, pure_eq_ok_iff] at hs'
    obtain ⟨value, hvalue, var, hunder, rfl⟩ := hs'
    have hindex' := maxIndex_shift_up_le hvalue
    have hdepth' := bindingDepth_shift_le hvalue
    have hvar' : var.index ≤ d.var.index + 1 := by
      rw [(Var.under_eq_ok_iff.mp hunder).2]
      split <;> omega
    simp only [List.length_cons]
    exact ⟨by omega, by omega, by omega⟩

/-- A replacement can be carried under binders as long as its indices stay in range. -/
theorem exists_carry_subst {s : Replacement} {pre : Scope}
    (hindex : s.value.maxIndex + pre.length < indexBound)
    (hdepth : s.value.bindingDepth < indexBound)
    (hvar : s.var.index + pre.length < indexBound) :
    ∃ s', Traversal.subst.carry s pre = .ok s' := by
  induction pre with
  | nil => exact ⟨s, rfl⟩
  | cons x pre ih =>
    rw [List.length_cons] at hindex hvar
    obtain ⟨d, hd⟩ := ih (by omega) (by omega)
    obtain ⟨hindex', hdepth', hvar'⟩ := carry_subst_le hd
    obtain ⟨value, hvalue⟩ : ∃ value, d.value.shift 1 (.nearest x) = .ok value :=
      exists_shift_up (by omega) (by rw [Var.nearest_index]; omega)
    rcases hunder : d.var.under x with e | var
    · obtain ⟨-, -, hlast⟩ := Var.under_eq_error_iff.mp hunder
      omega
    · refine ⟨⟨var, value⟩, ?_⟩
      rw [Traversal.carry_cons, hd]
      simp only [bind_eq_ok_iff, Traversal.subst, Replacement.under, pure_eq_ok_iff]
      exact ⟨d, rfl, value, hvalue, var, hunder, rfl⟩

/-- Substitution returns if the indices of the value and of the variable have room to grow by the
binders of the term. -/
theorem exists_subst {t value : Term} {v : Var}
    (hindex : value.maxIndex + t.bindingDepth < indexBound)
    (hdepth : value.bindingDepth < indexBound)
    (hvar : v.index + t.bindingDepth < indexBound) : ∃ t', t.subst v value = .ok t' := by
  rcases hsubst : t.subst v value with e | t'
  · obtain ⟨pre, ℓ, hmem, hvisit⟩ := failsAtLeaf_of_traverse hsubst
    have hlength := length_le_bindingDepth hmem
    obtain ⟨s, hs⟩ : ∃ s, Traversal.subst.carry ⟨v, value⟩ pre = .ok s := by
      apply exists_carry_subst
      · exact lt_of_le_of_lt (Nat.add_le_add_left hlength _) hindex
      · exact hdepth
      · exact lt_of_le_of_lt (Nat.add_le_add_left hlength _) hvar
    -- The replacement reaches every leaf, and there it cannot fail.
    rw [Traversal.visit, hs] at hvisit
    rcases leaf_cases hmem with ⟨k, rfl⟩ | ⟨w, rfl⟩
    · cases hvisit
    · change subst (.var w) s.var s.value = _ at hvisit
      rw [subst_var] at hvisit
      split at hvisit <;> exact absurd hvisit pure_ne_error
  · exact ⟨t', rfl⟩

/-- Substitution puts the binders of the value below those of the term. -/
theorem bindingDepth_subst_le {t t' value : Term} {v : Var} (h : t.subst v value = .ok t') :
    t'.bindingDepth ≤ t.bindingDepth + value.bindingDepth := by
  apply bindingDepth_le
  intro pre' ℓ' hmem
  obtain ⟨pre, ℓ, u, inner, hℓ, hvisit, hinner, rfl⟩ := stemsFromLeaf_of_traverse h hmem
  have hpre := length_le_bindingDepth hℓ
  have hleaf {w : Term} (hw : w.leaves = [([], w)]) (hu : u = w) : inner.length = 0 := by
    rw [hu, hw] at hinner
    obtain ⟨rfl, -⟩ := Prod.mk.inj (List.mem_singleton.mp hinner)
    rfl
  have hinner' : inner.length ≤ value.bindingDepth := by
    rw [Traversal.visit, bind_eq_ok_iff] at hvisit
    obtain ⟨s, hs, hu⟩ := hvisit
    obtain ⟨-, hdepth, -⟩ := carry_subst_le hs
    rcases leaf_cases hℓ with ⟨k, rfl⟩ | ⟨w, rfl⟩
    · have hzero := hleaf (w := .const k) rfl (Except.ok.inj hu).symm
      omega
    · change subst (.var w) s.var s.value = _ at hu
      rw [subst_var] at hu
      split at hu
      case isTrue =>
        rw [pure_eq_ok_iff] at hu
        subst hu
        exact (length_le_bindingDepth hinner).trans hdepth
      case isFalse =>
        rw [pure_eq_ok_iff] at hu
        have hzero := hleaf (w := .var w) rfl hu.symm
        omega
  rw [List.length_append]
  omega

/-! ### Instantiation -/

/-- Filling a binder succeeds if no index can come near the bound. -/
theorem exists_instantiate {b a : Term} (x : Label)
    (hindex : a.maxIndex + 1 + b.bindingDepth < indexBound)
    (hdepth : b.bindingDepth + a.bindingDepth < indexBound) :
    ∃ t, b.instantiate x a = .ok t := by
  obtain ⟨a', ha⟩ : ∃ a', a.shift 1 (.nearest x) = .ok a' :=
    exists_shift_up (by omega) (by rw [Var.nearest_index]; omega)
  have hindex' := maxIndex_shift_up_le ha
  have hdepth' := bindingDepth_shift_le ha
  obtain ⟨b', hb⟩ : ∃ b', b.subst (.nearest x) a' = .ok b' :=
    exists_subst (by omega) (by omega) (by rw [Var.nearest_index]; omega)
  have hdepth'' := bindingDepth_subst_le hb
  obtain ⟨t, ht⟩ := exists_shift_down (resolve_subst_nearest (Γ := []) ha hb) (by omega)
  refine ⟨t, ?_⟩
  simp only [instantiate, bind_eq_ok_iff]
  exact ⟨a', ha, b', hb, ht⟩

/-- **Filling a binder is a correct contraction.** What `instantiate` returns stands for the body
with the variable of the binder replaced, nothing captured and everything else pointing where it
did; and it returns unless some index may come near the bound. -/
theorem instantiate_contracts (b a : Term) (x : Label) :
    (∀ Γ t, b.instantiate x a = .ok t →
      t.resolve Γ = (b.resolve (x :: Γ)).instantiate (a.resolve Γ)) ∧
    (max b.maxIndex a.maxIndex + b.bindingDepth + a.bindingDepth + 1 < indexBound - 1 →
      ∃ t, b.instantiate x a = .ok t) := by
  constructor
  · intro Γ t h
    exact resolve_instantiate h
  · intro h
    have hmax : a.maxIndex ≤ max b.maxIndex a.maxIndex := le_max_right _ _
    apply exists_instantiate <;> omega

/-- `λ(y : x) → x y@1 x@1`, where under the binder `x` is the variable to fill, and `y@1` and `x@1`
lie outside. -/
def exposed : Term :=
  .lam "y" (.nearby "x" 0) (.app (.app (.nearby "x" 0) (.nearby "y" 1)) (.nearby "x" 1))

/-- The value `x y`, whose variables have the names of both binders. -/
def intruding : Term := .app (.nearby "x" 0) (.nearby "y" 0)

/-- `λ(y : x y) → (x y@1) y@1 x`. -/
def exposedFilled : Term :=
  .lam "y" (.app (.nearby "x" 0) (.nearby "y" 0))
    (.app (.app (.app (.nearby "x" 0) (.nearby "y" 1)) (.nearby "y" 1)) (.nearby "x" 0))

/-- The value has free variables with the names of both binders around the place that it is put
in. -/
theorem instantiate_contracts_exposed :
    max exposed.maxIndex intruding.maxIndex + exposed.bindingDepth + intruding.bindingDepth + 1
        < indexBound - 1 ∧
      (∃ t, exposed.instantiate "x" intruding = .ok t) ∧
      exposed.instantiate "x" intruding = .ok exposedFilled ∧
      exposedFilled.resolve [] = (exposed.resolve ["x"]).instantiate (intruding.resolve []) := by
  have hbound : max exposed.maxIndex intruding.maxIndex + exposed.bindingDepth +
      intruding.bindingDepth + 1 < indexBound - 1 := by decide +kernel
  have hok : exposed.instantiate "x" intruding = .ok exposedFilled := by decide +kernel
  obtain ⟨hcorrect, hreturns⟩ := instantiate_contracts exposed intruding "x"
  exact ⟨hbound, hreturns hbound, hok, hcorrect [] exposedFilled hok⟩

end Term

end Trisort
