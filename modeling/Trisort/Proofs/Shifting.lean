import Trisort.Proofs.Capture
import Trisort.Proofs.Commutation

/-!
# What a shift moves, and the algebra of shifts

A shift by `δ` over `x@c` is about the free variables `x@i` with `c ≤ i`. If `i + δ` is negative for
none of them, each becomes `x@(i + δ)` and nothing else changes (`shift_moves_targets`).

A shift knows nothing of free variables, though. It compares written indices with a cutoff that
counts the binders on the way, and what it does to an index is the function `displace` of the cutoff
at that place. So the laws for two shifts in a row (`shift_laws`) come down to laws for `displace`.
They also hold where an occurrence is captured. What carries them from indices to terms is that two
traversals one after the other are one traversal, if they are so at each occurrence
(`traverse_traverse`).
-/

namespace Trisort

open Var (indexBound)

/-! ### The occurrences that are moved -/

/-- The term with each free variable `x@i`, where `c ≤ i`, replaced by `x@(i + δ)`. -/
def Nameless.moveFree (t : Nameless) (x : Label) (c : Nat) (δ : Int) : Nameless :=
  t.substituteFree fun y i => .free y (if y = x ∧ c ≤ i then ((i : Int) + δ).toNat else i)

namespace Term

open Nameless

variable {t t' : Term} {δ : Int} {c w : Var} {pre : Scope}

/-- Where no index becomes negative, a shift does to each occurrence what the nameless shift
does. -/
theorem resolve_shifted (h : t.shift δ c = .ok t') (hmem : (pre, .var w) ∈ t.leaves)
    (hscope : ∀ i, (c.name, i) ∈ t.freeVars → c.index ≤ i → 0 ≤ (i : Int) + δ) :
    (var (w.shifted δ c pre)).resolve pre =
      ((var w).resolve pre).moveFree c.name c.index δ := by
  rcases pre.locate_eq_bound_or_free w.name w.index with ⟨k, hk⟩ | ⟨y, i, hi⟩
  · rw [resolve_shifted_of_bound h hmem hk, resolve, hk]
    rfl
  · obtain ⟨hname, hindex⟩ := shifted_of_shift h hmem
    obtain ⟨rfl, hw⟩ := Scope.locate_eq_free_iff.mp hi
    rw [resolve, resolve, hi, moveFree, substituteFree, Scope.locate_eq_free_iff, hname]
    refine ⟨rfl, ?_⟩
    by_cases hcut : w.name = c.name ∧ c.index ≤ i
    · have hfree : (c.name, i) ∈ t.freeVars := mem_freeVars.mpr ⟨pre, w, hmem, hcut.1, hcut.1 ▸ hw⟩
      have hnonneg := hscope i hfree hcut.2
      rw [if_pos ⟨hcut.1, by rw [← hcut.1]; omega⟩] at hindex
      rw [if_pos hcut]
      omega
    · rw [if_neg fun hle => hcut ⟨hle.1, by rw [← hle.1] at hle; omega⟩] at hindex
      rw [if_neg hcut]
      omega

/-- **A shift moves exactly what it is about.** Let `i + δ` be negative for no free variable `x@i`
of the term with `c ≤ i`, where `x@c` is the cutoff. The shift fails only if the cutoff, raised by
the binders labelled `x` around some leaf, leaves the range of indices, or if the index with which
some `x@(i + δ)` would be written does. If it returns, the outcome stands for the term with `x@i`
replaced by `x@(i + δ)`. It differs from the term in the variables at its occurrences alone, and
there only where one of these `x@i` stands. -/
theorem shift_moves_targets
    (hscope : ∀ i, (c.name, i) ∈ t.freeVars → c.index ≤ i → 0 ≤ (i : Int) + δ) :
    ((∃ e, t.shift δ c = .error e) ↔ ∃ pre ℓ, (pre, ℓ) ∈ t.leaves ∧
      (indexBound ≤ c.index + pre.count c.name ∨
        ∃ i : Nat, ℓ.resolve pre = .free c.name i ∧ c.index ≤ i ∧
          (indexBound : Int) ≤ i + δ + pre.count c.name)) ∧
    ∀ t', t.shift δ c = .ok t' →
      t'.resolve [] = (t.resolve []).moveFree c.name c.index δ ∧
      ∃ f : Scope → Var → Var, t' = t.graft (fun pre w => .var (f pre w)) ∧
        ∀ pre w, (pre, .var w) ∈ t.leaves →
          (var (f pre w)).resolve pre = ((var w).resolve pre).moveFree c.name c.index δ := by
  constructor
  · rw [shift_fails_iff]
    refine exists_congr fun pre => exists_congr fun ℓ => and_congr_right fun hmem =>
      or_congr_right <| exists_congr fun i => and_congr_right fun hfree =>
        and_congr_right fun hle => ?_
    have hnonneg : 0 ≤ (i : Int) + δ := by
      rcases leaf_cases hmem with ⟨k, rfl⟩ | ⟨w, rfl⟩
      · cases hfree
      · obtain ⟨hname, hw⟩ := Scope.locate_eq_free_iff.mp hfree
        exact hscope i (mem_freeVars.mpr ⟨pre, w, hmem, hname.symm, hname ▸ hw⟩) hle
    omega
  · intro t' h
    have hmoved pre w (hmem : (pre, .var w) ∈ t.leaves) := resolve_shifted h hmem hscope
    refine ⟨?_, fun pre w => w.shifted δ c pre, graft_of_shift h, hmoved⟩
    rw [graft_of_shift h, moveFree]
    refine resolve_graft fun pre w hmem => ?_
    rw [List.append_nil, hmoved pre w hmem, resolve, moveFree]
    simp only [sunk_free]

/-- The variable `x@i`, for an index in range. -/
def cutoff (x : Label) (i : Nat) : Var :=
  if h : i < indexBound then ⟨x, i, h⟩ else .nearest x

/-- `λ(x : x) → ∀(y : x@i) → x@1 x@j x y y@1`. Under the binder `x`, the variables `x@i` and `x@j`
are the free `x@(i - 1)` and `x@(j - 1)`, and `x@1` is the free `x`. -/
def straddling (i j : Nat) : Term :=
  .lam "x" (.nearby "x" 0) (.pi "y" (.nearby "x" i)
    (.app (.app (.app (.app (.nearby "x" 1) (.nearby "x" j)) (.nearby "x" 0)) (.nearby "y" 0))
      (.nearby "y" 1)))

/-- `λ(x : Natural) → x@4294967295`. -/
def outermost : Term := .lam "x" (.const .naturalType) (.nearby "x" 0xffff_ffff)

/-- The cutoff lies between the free variables, and counts the binder of its name. The second term
has no room for the index. -/
theorem shift_moves_targets_straddling :
    ((∀ i, ("x", i) ∈ (straddling 3 4).freeVars → 1 ≤ i → 0 ≤ (i : Int) + (-2)) ∧
      (straddling 3 4).shift (-2) (cutoff "x" 1) = .ok (straddling 1 2) ∧
      (straddling 1 2).resolve [] = ((straddling 3 4).resolve []).moveFree "x" 1 (-2)) ∧
    ∃ e, outermost.shift 1 (.nearest "x") = .error e := by
  have hfree : (straddling 3 4).freeVars = [("x", 0), ("x", 2), ("x", 0), ("x", 3), ("y", 0)] := by
    decide +kernel
  have hscope : ∀ i, ("x", i) ∈ (straddling 3 4).freeVars → 1 ≤ i → 0 ≤ (i : Int) + (-2) := by
    intro i hi hle
    simp only [hfree, List.mem_cons, List.not_mem_nil, Prod.mk.injEq, true_and, or_false] at hi
    omega
  have hshift : (straddling 3 4).shift (-2) (cutoff "x" 1) = .ok (straddling 1 2) := by
    decide +kernel
  refine ⟨⟨hscope, hshift, ((shift_moves_targets (c := cutoff "x" 1) hscope).2 _ hshift).1⟩, ?_⟩
  -- The free variable could be moved, but not the index with which it is written.
  refine (shift_moves_targets fun i _ _ => by omega).1.mpr
    ⟨["x"], .nearby "x" 0xffff_ffff, by decide +kernel, .inr ⟨0xffff_fffe, ?_, by decide, ?_⟩⟩
  · exact Scope.locate_eq_free_iff.mpr ⟨rfl, rfl⟩
  · decide

/-! ### One traversal after another -/

/-- Two traversals one after the other are a single one, if they are so at each occurrence. The
relation `R s u w` says that with the parameters `s` and `u` they do what that one does with `w`. -/
theorem traverse_traverse {σ τ ρ : Type} {T : Traversal σ} {U : Traversal τ} {W : Traversal ρ}
    {R : σ → τ → ρ → Prop}
    (hleaf : ∀ {s u w v t t'}, R s u w → T.leaf s v = .ok t → traverse U u t = .ok t' →
      W.leaf w v = .ok t')
    (hunder : ∀ {s u w x s' u'}, R s u w → T.under s x = .ok s' → U.under u x = .ok u' →
      ∃ w', W.under w x = .ok w' ∧ R s' u' w')
    {s : σ} {u : τ} {w : ρ} (hR : R s u w) {t t₁ t₂ : Term} (h₁ : traverse T s t = .ok t₁)
    (h₂ : traverse U u t₁ = .ok t₂) : traverse W w t = .ok t₂ := by
  induction t generalizing s u w t₁ t₂ with
  | const c =>
    cases h₁
    exact h₂
  | var v => exact hleaf hR h₁ h₂
  | binder k x A b ihA ihb =>
    simp only [traverse_binder, bind_eq_ok_iff, pure_eq_ok_iff] at h₁
    obtain ⟨A₁, hA₁, s', hs', b₁, hb₁, rfl⟩ := h₁
    simp only [traverse_binder, bind_eq_ok_iff, pure_eq_ok_iff] at h₂ ⊢
    obtain ⟨A₂, hA₂, u', hu', b₂, hb₂, rfl⟩ := h₂
    obtain ⟨w', hw', hR'⟩ := hunder hR hs' hu'
    exact ⟨A₂, ihA hR hA₁ hA₂, w', hw', b₂, ihb hR' hb₁ hb₂, rfl⟩
  | app f a ihf iha =>
    simp only [traverse_app, bind_eq_ok_iff, pure_eq_ok_iff] at h₁
    obtain ⟨f₁, hf₁, a₁, ha₁, rfl⟩ := h₁
    simp only [traverse_app, bind_eq_ok_iff, pure_eq_ok_iff] at h₂ ⊢
    obtain ⟨f₂, hf₂, a₂, ha₂, rfl⟩ := h₂
    exact ⟨f₂, ihf hR hf₁ hf₂, a₂, iha hR ha₁ ha₂, rfl⟩
  | annot e A ihe ihA =>
    simp only [traverse_annot, bind_eq_ok_iff, pure_eq_ok_iff] at h₁
    obtain ⟨e₁, he₁, A₁, hA₁, rfl⟩ := h₁
    simp only [traverse_annot, bind_eq_ok_iff, pure_eq_ok_iff] at h₂ ⊢
    obtain ⟨e₂, he₂, A₂, hA₂, rfl⟩ := h₂
    exact ⟨e₂, ihe hR he₁ he₂, A₂, ihA hR hA₁ hA₂, rfl⟩
  | arith op l r ihl ihr =>
    simp only [traverse_arith, bind_eq_ok_iff, pure_eq_ok_iff] at h₁
    obtain ⟨l₁, hl₁, r₁, hr₁, rfl⟩ := h₁
    simp only [traverse_arith, bind_eq_ok_iff, pure_eq_ok_iff] at h₂ ⊢
    obtain ⟨l₂, hl₂, r₂, hr₂, rfl⟩ := h₂
    exact ⟨l₂, ihl hR hl₁ hl₂, r₂, ihr hR hr₁ hr₂, rfl⟩
  | nil A ihA =>
    simp only [traverse_nil, bind_eq_ok_iff, pure_eq_ok_iff] at h₁
    obtain ⟨A₁, hA₁, rfl⟩ := h₁
    simp only [traverse_nil, bind_eq_ok_iff, pure_eq_ok_iff] at h₂ ⊢
    obtain ⟨A₂, hA₂, rfl⟩ := h₂
    exact ⟨A₂, ihA hR hA₁ hA₂, rfl⟩
  | list e es ihe ihes =>
    simp only [traverse_list, bind_eq_ok_iff, pure_eq_ok_iff] at h₁
    obtain ⟨e₁, he₁, es₁, hes₁, rfl⟩ := h₁
    simp only [traverse_list, bind_eq_ok_iff, pure_eq_ok_iff] at h₂ ⊢
    obtain ⟨e₂, he₂, es₂, hes₂, rfl⟩ := h₂
    refine ⟨e₂, ihe hR he₁ he₂, es₂, ?_, rfl⟩
    clear he₁ he₂
    induction es generalizing es₁ es₂ with
    | nil =>
      cases hes₁
      exact hes₂
    | cons a as ih =>
      simp only [traverseAll_cons, bind_eq_ok_iff, pure_eq_ok_iff] at hes₁
      obtain ⟨a₁, ha₁, as₁, has₁, rfl⟩ := hes₁
      simp only [traverseAll_cons, bind_eq_ok_iff, pure_eq_ok_iff] at hes₂ ⊢
      obtain ⟨a₂, ha₂, as₂, has₂, rfl⟩ := hes₂
      have htail := ih (fun e he => ihes e (List.mem_cons_of_mem a he)) as₁ has₁ as₂ has₂
      exact ⟨a₂, ihes a List.mem_cons_self hR ha₁ ha₂, as₂, htail, rfl⟩

end Term

/-! ### Written indices -/

/-- Where a shift by `δ` moves the index `k` of an occurrence named `y`, if the cutoff is `x@n`
there. -/
def displace (x : Label) (n : Nat) (δ : Int) (y : Label) (k : Int) : Int :=
  if y = x ∧ (n : Int) ≤ k then k + δ else k

section Displacements

variable {x y : Label} {m n : Nat} {d e k : Int}

/-- The index of another name is not moved. -/
theorem displace_of_ne (h : y ≠ x) : displace x n d y k = k := if_neg fun hle => h hle.1

/-- An index from the cutoff on is moved. -/
theorem displace_of_le (h : (n : Int) ≤ k) : displace x n d x k = k + d := if_pos ⟨rfl, h⟩

/-- An index below the cutoff is not moved. -/
theorem displace_of_lt (h : k < n) : displace x n d x k = k := if_neg fun hle => by omega

/-- A shift up and another one over a cutoff in the gap that it leaves add up. -/
theorem displace_add (hle : n ≤ m) (hgap : (m : Int) ≤ n + d) :
    displace x m e y (displace x n d y k) = displace x n (d + e) y k := by
  by_cases hy : y = x
  · subst hy
    rcases Int.lt_or_le k n with hk | hk
    · rw [displace_of_lt hk, displace_of_lt hk, displace_of_lt (by omega)]
    · rw [displace_of_le hk, displace_of_le hk, displace_of_le (by omega), Int.add_assoc]
  · simp only [displace_of_ne hy]

/-- Of two shifts up over one name, the one over the larger cutoff can come second, if the cutoff
is shifted with the rest. -/
theorem displace_exchange {m' : Nat} (hd : 0 ≤ d) (he : 0 ≤ e) (hle : n ≤ m)
    (hm' : (m' : Int) = m + d) :
    displace x n d y (displace x m e y k) = displace x m' e y (displace x n d y k) := by
  by_cases hy : y = x
  · subst hy
    rcases Int.lt_or_le k n with hn | hn
    · have hm : k < m := by omega
      rw [displace_of_lt hm, displace_of_lt hn, displace_of_lt (by omega)]
    · rw [displace_of_le hn]
      rcases Int.lt_or_le k m with hm | hm
      · rw [displace_of_lt hm, displace_of_le hn, displace_of_lt (by omega)]
      · rw [displace_of_le hm, displace_of_le (by omega), displace_of_le (by omega)]
        omega
  · simp only [displace_of_ne hy]

/-- Shifts over different names do not meet. -/
theorem displace_comm {x' : Label} (hne : x ≠ x') :
    displace x' m e y (displace x n d y k) = displace x n d y (displace x' m e y k) := by
  by_cases hy : y = x
  · have hy' : y ≠ x' := hy ▸ hne
    rw [displace_of_ne hy', displace_of_ne hy']
  · rw [displace_of_ne hy, displace_of_ne hy]

end Displacements

/-- Moves every occurrence to the index that `φ` gives it, from the labels of the binders around it,
its name and its index. -/
def Traversal.moveBy (φ : Scope → Label → Int → Int) : Traversal Scope where
  leaf pre v := return .var (← v.move (φ pre v.name v.index - v.index))
  under pre x := .ok (x :: pre)

namespace Term

variable {t l r : Term} {d e : Int} {c c' c'' v : Var}

/-- A shift of a variable returns exactly if there is a variable with the displaced index. -/
theorem shift_var_eq_ok_iff {u : Term} :
    shift (.var v) d c = .ok u ↔
      ∃ w : Var, u = .var w ∧ w.name = v.name ∧
        (w.index : Int) = displace c.name c.index d v.name v.index := by
  rw [shift_var, displace]
  by_cases hv : v.name = c.name ∧ c.index ≤ v.index
  · rw [if_pos hv, if_pos ⟨hv.1, Int.ofNat_le.mpr hv.2⟩]
    simp only [bind_eq_ok_iff, pure_eq_ok_iff, Var.move_eq_ok_iff]
    constructor
    · rintro ⟨w, hw, rfl⟩
      exact ⟨w, rfl, hw⟩
    · rintro ⟨w, rfl, hw⟩
      exact ⟨w, hw, rfl⟩
  · rw [if_neg hv, if_neg fun h => hv ⟨h.1, Int.ofNat_le.mp h.2⟩, pure_eq_ok_iff]
    constructor
    · rintro rfl
      exact ⟨v, rfl, rfl, rfl⟩
    · rintro ⟨w, rfl, hname, hindex⟩
      rw [Var.ext hname (Int.ofNat.inj hindex)]

/-- Two shifts in a row move each occurrence by the two displacements in a row. -/
theorem moveBy_of_shift_shift (h : (do (← t.shift d c).shift e c') = .ok l) :
    t.traverse (Traversal.moveBy fun pre y k =>
      displace c'.name (c'.index + pre.count c'.name) e y
        (displace c.name (c.index + pre.count c.name) d y k)) [] = .ok l := by
  obtain ⟨t₁, h₁, h₂⟩ := bind_eq_ok_iff.mp h
  refine traverse_traverse (T := Traversal.shift d) (U := Traversal.shift e)
    (R := fun s u pre => (Traversal.shift d).carry c pre = .ok s ∧
      (Traversal.shift e).carry c' pre = .ok u) ?_ ?_ ⟨rfl, rfl⟩ h₁ h₂
  · rintro s u pre v a b ⟨hs, hu⟩ ha hb
    obtain ⟨w, rfl, hname, hindex⟩ := shift_var_eq_ok_iff.mp ha
    obtain ⟨w', rfl, hname', hindex'⟩ := shift_var_eq_ok_iff.mp hb
    obtain ⟨hsname, hsindex⟩ := Traversal.carry_shift_eq_ok hs
    obtain ⟨huname, huindex⟩ := Traversal.carry_shift_eq_ok hu
    simp only [Traversal.moveBy, bind_eq_ok_iff, pure_eq_ok_iff, Var.move_eq_ok_iff]
    refine ⟨w', ⟨hname'.trans hname, ?_⟩, rfl⟩
    rw [hindex', hname, hindex, hsname, hsindex, huname, huindex]
    omega
  · rintro s u pre x s' u' ⟨hs, hu⟩ hs' hu'
    refine ⟨x :: pre, rfl, ?_, ?_⟩
    · rw [Traversal.carry_cons, hs]
      exact hs'
    · rw [Traversal.carry_cons, hu]
      exact hu'

/-! ### The laws -/

/-- A shift up and another one over a cutoff in the gap that it leaves are a single shift. -/
theorem shift_add (hname : c'.name = c.name) (hle : c.index ≤ c'.index)
    (hgap : (c'.index : Int) ≤ c.index + d) (h : (do (← t.shift d c).shift e c') = .ok l) :
    t.shift (d + e) c = .ok l := by
  obtain ⟨t₁, h₁, h₂⟩ := bind_eq_ok_iff.mp h
  -- The two cutoffs count the same binders, so the one stays in the gap that the other leaves.
  refine traverse_traverse (T := Traversal.shift d) (U := Traversal.shift e)
    (W := Traversal.shift (d + e))
    (R := fun s u w => u.name = s.name ∧ s.index ≤ u.index ∧ (u.index : Int) ≤ s.index + d ∧ w = s)
    ?_ ?_ ⟨hname, hle, hgap, rfl⟩ h₁ h₂
  · rintro s u _ v a b ⟨hname, hle, hgap, rfl⟩ ha hb
    obtain ⟨w, rfl, hw, hindex⟩ := shift_var_eq_ok_iff.mp ha
    obtain ⟨w', rfl, hw', hindex'⟩ := shift_var_eq_ok_iff.mp hb
    refine shift_var_eq_ok_iff.mpr ⟨w', rfl, hw'.trans hw, ?_⟩
    rw [hindex', hindex, hw, hname, displace_add hle hgap]
  · rintro s u _ x s' u' ⟨hname, hle, hgap, rfl⟩ hs' hu'
    obtain ⟨hsname, hsindex⟩ := Var.under_eq_ok_iff.mp hs'
    obtain ⟨huname, huindex⟩ := Var.under_eq_ok_iff.mp hu'
    rw [hname] at huname huindex
    exact ⟨s', hs', huname.trans hsname.symm, by omega, by omega, rfl⟩

/-- A shift by zero changes nothing. -/
theorem shift_zero (h : t.shift 0 c = .ok l) : l = t := by
  have hform := form_shift_by .labelled c.skipped [] (n := 0) c.index_eq_count_skipped h
  exact eq_of_form_eq (hform.trans (Nameless.rename_id _))

/-- Of two shifts up over one name, the one over the larger cutoff can come second. -/
theorem shift_exchange (hd : 0 ≤ d) (he : 0 ≤ e) (hname' : c'.name = c.name)
    (hle : c.index ≤ c'.index) (hname'' : c''.name = c.name)
    (hindex : (c''.index : Int) = c'.index + d) (hl : (do (← t.shift e c').shift d c) = .ok l)
    (hr : (do (← t.shift d c).shift e c'') = .ok r) : l = r := by
  have hmove := moveBy_of_shift_shift hl
  simp only [hname'] at hmove
  have hmove' := moveBy_of_shift_shift hr
  simp only [hname''] at hmove'
  have hlaw (pre : Scope) (y : Label) (k : Int) :
      displace c.name (c.index + pre.count c.name) d y
          (displace c.name (c'.index + pre.count c.name) e y k) =
        displace c.name (c''.index + pre.count c.name) e y
          (displace c.name (c.index + pre.count c.name) d y k) :=
    displace_exchange hd he (Nat.add_le_add_right hle _) (by omega)
  simp only [hlaw] at hmove
  exact Except.ok.inj (hmove.symm.trans hmove')

/-- Shifts over different names can change places. -/
theorem shift_comm (hne : c.name ≠ c'.name) (hl : (do (← t.shift d c).shift e c') = .ok l)
    (hr : (do (← t.shift e c').shift d c) = .ok r) : l = r := by
  have hmove := moveBy_of_shift_shift hl
  simp only [displace_comm hne] at hmove
  exact Except.ok.inj (hmove.symm.trans (moveBy_of_shift_shift hr))

/-- **The algebra of shifts.** These are equations between terms, for whenever the shifts return.
Shifting up by `d` over `x@i` and then by any amount `e` over a cutoff from `x@i` to `x@(i + d)` is
shifting by `d + e` over `x@i`; shifting down by `d` again gives back the term. Two shifts up over
one name, `x@i` and a larger or equal `x@j`, can change places, if the second cutoff becomes
`x@(j + d)` behind the shift by `d` over `x@i`. Shifts over different names can change places. -/
theorem shift_laws (t : Term) (c c' : Var) (d e : Int) :
    (∀ l, c'.name = c.name → c.index ≤ c'.index → (c'.index : Int) ≤ c.index + d →
      (do (← t.shift d c).shift e c') = .ok l →
        t.shift (d + e) c = .ok l ∧ (e = -d → l = t)) ∧
    (∀ l r (c'' : Var), 0 ≤ d → 0 ≤ e → c'.name = c.name → c.index ≤ c'.index →
      c''.name = c.name → (c''.index : Int) = c'.index + d →
      (do (← t.shift e c').shift d c) = .ok l → (do (← t.shift d c).shift e c'') = .ok r →
        l = r) ∧
    ∀ l r, c.name ≠ c'.name →
      (do (← t.shift d c).shift e c') = .ok l → (do (← t.shift e c').shift d c) = .ok r →
        l = r := by
  refine ⟨?_, ?_, fun l r => shift_comm⟩
  · intro l hname hle hgap h
    have hadd := shift_add hname hle hgap h
    refine ⟨hadd, ?_⟩
    rintro rfl
    rw [Int.add_right_neg] at hadd
    exact shift_zero hadd
  · intro l r c'' hd he hname' hle hname'' hindex hl hr
    exact shift_exchange hd he hname' hle hname'' hindex hl hr

/-- `λ(x : x@i) → ∀(y : y@k) → x@(j + 1) x y@(k + 1) y`, with the free variables `x@i`, `x@j` and
`y@k`. -/
def interlocked (i j k : Nat) : Term :=
  .lam "x" (.nearby "x" i) (.pi "y" (.nearby "y" k)
    (.app (.app (.app (.nearby "x" (j + 1)) (.nearby "x" 0)) (.nearby "y" (k + 1)))
      (.nearby "y" 0)))

/-- The four laws at a term with binders of both names. -/
theorem shift_laws_interlocked :
    ((do (← (interlocked 0 1 0).shift 3 (cutoff "x" 1)).shift (-2) (cutoff "x" 3)) =
        .ok (interlocked 0 2 0) ∧
      (interlocked 0 1 0).shift (3 + -2) (cutoff "x" 1) = .ok (interlocked 0 2 0)) ∧
    (∃ l, (do (← (interlocked 0 1 0).shift 3 (cutoff "x" 1)).shift (-3) (cutoff "x" 4)) = .ok l ∧
      l = interlocked 0 1 0) ∧
    (∃ l r,
      (do (← (interlocked 0 1 0).shift 2 (cutoff "x" 1)).shift 1 (cutoff "x" 0)) = .ok l ∧
      (do (← (interlocked 0 1 0).shift 1 (cutoff "x" 0)).shift 2 (cutoff "x" 2)) = .ok r ∧
      l = r) ∧
    ∃ l r,
      (do (← (interlocked 0 1 0).shift (-1) (cutoff "x" 1)).shift 2 (cutoff "y" 0)) = .ok l ∧
      (do (← (interlocked 0 1 0).shift 2 (cutoff "y" 0)).shift (-1) (cutoff "x" 1)) = .ok r ∧
      l = r := by
  have hadd : (do (← (interlocked 0 1 0).shift 3 (cutoff "x" 1)).shift (-2) (cutoff "x" 3)) =
      .ok (interlocked 0 2 0) := by decide +kernel
  have hback : (do (← (interlocked 0 1 0).shift 3 (cutoff "x" 1)).shift (-3) (cutoff "x" 4)) =
      .ok (interlocked 0 1 0) := by decide +kernel
  have hl : (do (← (interlocked 0 1 0).shift 2 (cutoff "x" 1)).shift 1 (cutoff "x" 0)) =
      .ok (interlocked 1 4 0) := by decide +kernel
  have hr : (do (← (interlocked 0 1 0).shift 1 (cutoff "x" 0)).shift 2 (cutoff "x" 2)) =
      .ok (interlocked 1 4 0) := by decide +kernel
  have hxy : (do (← (interlocked 0 1 0).shift (-1) (cutoff "x" 1)).shift 2 (cutoff "y" 0)) =
      .ok (interlocked 0 0 2) := by decide +kernel
  have hyx : (do (← (interlocked 0 1 0).shift 2 (cutoff "y" 0)).shift (-1) (cutoff "x" 1)) =
      .ok (interlocked 0 0 2) := by decide +kernel
  have hlaws (c c' : Var) (d e : Int) := shift_laws (interlocked 0 1 0) c c' d e
  refine ⟨⟨hadd, ?_⟩, ⟨_, hback, ?_⟩, ⟨_, _, hl, hr, ?_⟩, _, _, hxy, hyx, ?_⟩
  · exact ((hlaws (cutoff "x" 1) (cutoff "x" 3) 3 (-2)).1 _ rfl (by decide) (by decide) hadd).1
  · exact ((hlaws (cutoff "x" 1) (cutoff "x" 4) 3 (-3)).1 _ rfl (by decide) (by decide) hback).2 rfl
  · exact (hlaws (cutoff "x" 0) (cutoff "x" 1) 1 2).2.1 _ _ (cutoff "x" 2) (by decide) (by decide)
      rfl (by decide) rfl (by decide) hl hr
  · exact (hlaws (cutoff "x" 1) (cutoff "y" 0) (-1) 2).2.2 _ _ (by decide) hxy hyx

end Term

end Trisort
