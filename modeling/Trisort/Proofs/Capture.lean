import Trisort.Proofs.Grafting
import Trisort.Proofs.Instantiation

/-!
# Substitution captures nothing, a shift down may

Substitution puts a value for a free variable and changes nothing else. Under binders, what the
value refers to lies beyond them, whatever their labels are (`subst_avoids_capture`).

A shift moves the free occurrences of a name. It moves no bound occurrence, and an occurrence that
it moves up stays free. One that it moves down may meet a binder: if `x@i` stands under `n` binders
labelled `x`, it is written with the index `i + n`, and only that number is kept from becoming
negative. So a shift by `δ` fails if `i + n + δ` is negative, and if `i + δ` alone is, the
occurrence is captured by one of the `n` binders (`shift_keeps_scope_iff`). Filling or relabelling a
binder shifts down only where no such occurrence is left.
-/

namespace Trisort

open Var (indexBound)

/-! ### Substitution -/

/-- The term with `w` in place of the free variable `x@i`. -/
def Nameless.replaceFree (t : Nameless) (x : Label) (i : Nat) (w : Nameless) : Nameless :=
  t.substituteFree fun y j => if y = x ∧ j = i then w else .free y j

/-- The value of a replacement, shifted over the binders `pre`. -/
def Replacement.valueUnder (s : Replacement) (pre : Scope) : Term :=
  match Traversal.subst.carry s pre with
  | .ok s' => s'.value
  | .error _ => s.value

namespace Term

open Nameless

/-- A replacement that is carried under binders is still about the same variable, and its value
still refers to the same things. -/
theorem carry_subst_eq_ok {v : Var} {value : Term} {s : Replacement} {pre : Scope}
    (h : Traversal.subst.carry ⟨v, value⟩ pre = .ok s) :
    pre.locate s.var.name s.var.index = .free v.name v.index ∧
      s.value.resolve pre = (value.resolve []).sunk pre.length := by
  induction pre generalizing s with
  | nil =>
    cases h
    exact ⟨rfl, (sunk_zero _).symm⟩
  | cons x pre ih =>
    rw [Traversal.carry_cons, bind_eq_ok_iff] at h
    obtain ⟨d, hd, hs⟩ := h
    obtain ⟨hvar, hvalue⟩ := ih hd
    simp only [Traversal.subst, Replacement.under, bind_eq_ok_iff, pure_eq_ok_iff] at hs
    obtain ⟨value', hshift, var', hunder, rfl⟩ := hs
    constructor
    · rw [Scope.locate_under hunder, hvar]
      rfl
    · rw [resolve_shift_nearest hshift, hvalue, weaken_sunk, List.length_cons]

/-- At an occurrence, substitution puts the value if the occurrence is of the variable in question,
and leaves it alone if it is not. -/
theorem visit_subst_eq_ok {v w : Var} {value u : Term} {pre : Scope}
    (h : Traversal.subst.visit ⟨v, value⟩ pre (.var w) = .ok u) :
    (Replacement.valueUnder ⟨v, value⟩ pre).resolve pre = (value.resolve []).sunk pre.length ∧
      u = if w.name = v.name ∧ w.index = v.index + pre.count v.name
        then Replacement.valueUnder ⟨v, value⟩ pre else .var w := by
  rw [Traversal.visit, bind_eq_ok_iff] at h
  obtain ⟨s, hcarry, hleaf⟩ := h
  obtain ⟨hvar, hvalue⟩ := carry_subst_eq_ok hcarry
  obtain ⟨hname, hindex⟩ := Scope.locate_eq_free_iff.mp hvar
  have hunder : Replacement.valueUnder ⟨v, value⟩ pre = s.value := by
    rw [Replacement.valueUnder, hcarry]
  rw [hunder]
  refine ⟨hvalue, ?_⟩
  change subst (.var w) s.var s.value = _ at hleaf
  rw [subst_var] at hleaf
  have heq : w = s.var ↔ w.name = v.name ∧ w.index = v.index + pre.count v.name := by
    rw [Var.ext_iff, hindex, ← hname]
  split at hleaf
  case isTrue hw =>
    rw [if_pos (heq.mp hw)]
    exact (pure_eq_ok_iff.mp hleaf).symm
  case isFalse hw =>
    rw [if_neg fun hv => hw (heq.mpr hv)]
    exact (pure_eq_ok_iff.mp hleaf).symm

/-- **Substitution avoids capture.** What `subst` returns stands for the term with each free
occurrence of the variable replaced by what the value stands for, and nothing else is changed: the
occurrences of the variable are those written with its name and with its index raised by the binders
of that name around them, and apart from these the term is the same, with the labels of all its
binders. -/
theorem subst_avoids_capture {t value t' : Term} {v : Var} (h : t.subst v value = .ok t') :
    t'.resolve [] = (t.resolve []).replaceFree v.name v.index (value.resolve []) ∧
      ∃ f : Scope → Term, t' = t.graft fun pre w =>
        if w.name = v.name ∧ w.index = v.index + pre.count v.name then f pre else .var w := by
  have hgraft := graft_of_traverse h fun _ _ _ hu => (visit_subst_eq_ok hu).2.symm
  refine ⟨?_, _, hgraft⟩
  rw [hgraft, replaceFree]
  refine resolve_graft fun pre w hmem => ?_
  obtain ⟨u, hu⟩ := exists_visit_of_traverse h hmem
  obtain ⟨hvalue, -⟩ := visit_subst_eq_ok hu
  rw [List.append_nil]
  by_cases hw : w.name = v.name ∧ w.index = v.index + pre.count v.name
  · have hfree : pre.locate w.name w.index = .free v.name v.index :=
      Scope.locate_eq_free_iff.mpr ⟨hw.1.symm, hw.1 ▸ hw.2⟩
    rw [if_pos hw, hfree, substituteFree, if_pos ⟨rfl, rfl⟩, hvalue]
  · rw [if_neg hw, resolve]
    rcases pre.locate_eq_bound_or_free w.name w.index with ⟨k, hk⟩ | ⟨y, j, hj⟩
    · rw [hk, substituteFree]
    · -- The occurrence is free, but it is of another variable.
      have hother : ¬ (y = v.name ∧ j = v.index) := by
        rintro ⟨rfl, rfl⟩
        obtain ⟨hname, hindex⟩ := Scope.locate_eq_free_iff.mp hj
        exact hw ⟨hname.symm, hname ▸ hindex⟩
      rw [hj, substituteFree, if_neg hother, sunk_free]

/-- `λ(y : x) → λ(x : z) → x@1 x y y@1`. Of its variables, `x` and under the second binder `x@1` are
the free `x`. -/
def interleaved : Term :=
  .lam "y" (.nearby "x" 0) (.lam "x" (.nearby "z" 0)
    (.app (.app (.app (.nearby "x" 1) (.nearby "x" 0)) (.nearby "y" 0)) (.nearby "y" 1)))

/-- The value `λ(z : y) → x z`, in which the names of both binders are free. -/
def exposing : Term := .lam "z" (.nearby "y" 0) (.app (.nearby "x" 0) (.nearby "z" 0))

/-- `λ(y : λ(z : y) → x z) → λ(x : z) → (λ(z : y@1) → x@1 z) x y y@1`. -/
def interleavedReplaced : Term :=
  .lam "y" exposing (.lam "x" (.nearby "z" 0)
    (.app (.app (.app
      (.lam "z" (.nearby "y" 1) (.app (.nearby "x" 1) (.nearby "z" 0)))
      (.nearby "x" 0)) (.nearby "y" 0)) (.nearby "y" 1)))

/-- Both free variables of the value have the name of a binder that it is put under. -/
theorem subst_avoids_capture_interleaved :
    interleaved.subst (.nearest "x") exposing = .ok interleavedReplaced ∧
      interleavedReplaced.resolve [] =
        (interleaved.resolve []).replaceFree "x" 0 (exposing.resolve []) ∧
      ∃ f : Scope → Term, interleavedReplaced = interleaved.graft fun pre w =>
        if w.name = "x" ∧ w.index = 0 + pre.count "x" then f pre else .var w := by
  have h : interleaved.subst (.nearest "x") exposing = .ok interleavedReplaced := by decide +kernel
  exact ⟨h, subst_avoids_capture h⟩

end Term

/-! ### Shifting -/

/-- Where a shift moves the occurrence `w` under the binders `pre`. -/
def Var.shifted (w : Var) (δ : Int) (c : Var) (pre : Scope) : Var :=
  match (Traversal.shift δ).visit c pre (.var w) with
  | .ok (.var w') => w'
  | _ => w

namespace Term

open Nameless

variable {t t' : Term} {δ : Int} {c w w' : Var} {pre : Scope}

/-- At an occurrence, a shift moves the index if it has the name of the cutoff and is at least as
large as the cutoff is there. -/
theorem visit_shift_eq_ok {u : Term} (h : (Traversal.shift δ).visit c pre (.var w) = .ok u) :
    u = .var (w.shifted δ c pre) ∧ (w.shifted δ c pre).name = w.name ∧
      ((w.shifted δ c pre).index : Int) =
        w.index + if w.name = c.name ∧ c.index + pre.count c.name ≤ w.index then δ else 0 := by
  have hvisit := h
  rw [Traversal.visit, bind_eq_ok_iff] at hvisit
  obtain ⟨c', hcarry, hleaf⟩ := hvisit
  obtain ⟨hname, hindex⟩ := Traversal.carry_shift_eq_ok hcarry
  change shift (.var w) δ c' = _ at hleaf
  rw [shift_var, hname, hindex] at hleaf
  split at hleaf
  case isTrue hw =>
    simp only [bind_eq_ok_iff, pure_eq_ok_iff] at hleaf
    obtain ⟨w', hmove, rfl⟩ := hleaf
    have hshifted : w.shifted δ c pre = w' := by rw [Var.shifted, h]
    rw [hshifted, if_pos hw]
    exact ⟨rfl, Var.move_eq_ok_iff.mp hmove⟩
  case isFalse hw =>
    obtain rfl := pure_eq_ok_iff.mp hleaf
    have hshifted : w.shifted δ c pre = w := by rw [Var.shifted, h]
    rw [hshifted, if_neg hw]
    exact ⟨rfl, rfl, (Int.add_zero _).symm⟩

/-- What a shift returns is the term with its occurrences moved. -/
theorem graft_of_shift (h : t.shift δ c = .ok t') :
    t' = t.graft fun pre w => .var (w.shifted δ c pre) :=
  graft_of_traverse h fun _ _ _ hu => (visit_shift_eq_ok hu).1.symm

/-- A shift that returns has moved each occurrence of the term. -/
theorem shifted_of_shift (h : t.shift δ c = .ok t') (hmem : (pre, .var w) ∈ t.leaves) :
    (w.shifted δ c pre).name = w.name ∧ ((w.shifted δ c pre).index : Int) =
      w.index + if w.name = c.name ∧ c.index + pre.count c.name ≤ w.index then δ else 0 := by
  obtain ⟨u, hu⟩ := exists_visit_of_traverse h hmem
  exact (visit_shift_eq_ok hu).2

/-- A bound occurrence stays bound by the same binder. -/
theorem resolve_shifted_of_bound (h : t.shift δ c = .ok t') (hmem : (pre, .var w) ∈ t.leaves)
    {k : Nat} (hk : (var w).resolve pre = .bound k) :
    (var (w.shifted δ c pre)).resolve pre = .bound k := by
  obtain ⟨hname, hindex⟩ := shifted_of_shift h hmem
  have hlt : w.index < pre.count w.name := by
    by_contra hle
    have hfree : (var w).resolve pre = .free w.name (w.index - pre.count w.name) :=
      Scope.locate_eq_free_iff.mpr ⟨rfl, by omega⟩
    rw [hk] at hfree
    cases hfree
  -- The cutoff has counted all binders of the name, so it is beyond the index.
  rw [if_neg (by rintro ⟨hcut, hle⟩; rw [hcut] at hlt; omega), Int.add_zero] at hindex
  have hsame : w.shifted δ c pre = w := Var.ext hname (Int.ofNat.inj hindex)
  rw [hsame, hk]

/-- A free occurrence stays free exactly if it is not one that is moved below zero. -/
theorem resolve_shifted_free_iff (h : t.shift δ c = .ok t') (hmem : (pre, .var w) ∈ t.leaves)
    {y : Label} {i : Nat} (hfree : (var w).resolve pre = .free y i) :
    (∃ j, (var (w.shifted δ c pre)).resolve pre = .free y j) ↔
      (y = c.name → c.index ≤ i → 0 ≤ (i : Int) + δ) := by
  obtain ⟨hname, hindex⟩ := shifted_of_shift h hmem
  obtain ⟨rfl, hw⟩ := Scope.locate_eq_free_iff.mp hfree
  simp only [resolve, Scope.locate_eq_free_iff, hname, true_and]
  by_cases hcut : w.name = c.name
  · rw [← hcut] at hindex
    by_cases hle : c.index ≤ i
    · rw [if_pos ⟨rfl, by omega⟩] at hindex
      constructor
      · rintro ⟨j, hj⟩ - -
        omega
      · intro hδ
        have := hδ hcut hle
        exact ⟨((i : Int) + δ).toNat, by omega⟩
    · rw [if_neg (by omega)] at hindex
      exact ⟨fun _ _ hle' => absurd hle' hle, fun _ => ⟨i, by omega⟩⟩
  · rw [if_neg fun h => hcut h.1] at hindex
    exact ⟨fun _ hcut' => absurd hcut' hcut, fun _ => ⟨i, by omega⟩⟩

/-- An occurrence that is moved below zero is captured by a binder of its name. -/
theorem resolve_shifted_of_captured (h : t.shift δ c = .ok t') (hmem : (pre, .var w) ∈ t.leaves)
    {i : Nat} (hfree : (var w).resolve pre = .free c.name i) (hle : c.index ≤ i)
    (hδ : (i : Int) + δ < 0) :
    ∃ k, pre[k]? = some c.name ∧ (var (w.shifted δ c pre)).resolve pre = .bound k := by
  obtain ⟨hname, hindex⟩ := shifted_of_shift h hmem
  obtain ⟨hcut, hw⟩ := Scope.locate_eq_free_iff.mp hfree
  rw [← hcut] at hw
  rw [if_pos ⟨hcut.symm, by omega⟩] at hindex
  have hlt : (w.shifted δ c pre).index < pre.count c.name := by omega
  obtain ⟨k, hk, hget⟩ := Scope.exists_locate_eq_bound hlt
  exact ⟨k, hget, by rw [resolve, hname, ← hcut, hk]⟩

/-- Why a shift fails: it would have to raise its cutoff too far, or a free occurrence that it moves
would be written with an index out of range. -/
theorem shift_fails_iff :
    (∃ e, t.shift δ c = .error e) ↔ ∃ pre ℓ, (pre, ℓ) ∈ t.leaves ∧
      (indexBound ≤ c.index + pre.count c.name ∨
        ∃ i : Nat, ℓ.resolve pre = .free c.name i ∧ c.index ≤ i ∧
          ((i : Int) + pre.count c.name + δ < 0 ∨
            (indexBound : Int) ≤ i + pre.count c.name + δ)) := by
  constructor
  · rintro ⟨e, he⟩
    obtain ⟨pre, ℓ, hmem, ⟨-, hcut⟩ | ⟨v, rfl, hname, hcut, -, hrange⟩⟩ := shift_eq_error he
    · exact ⟨pre, ℓ, hmem, .inl hcut⟩
    · refine ⟨pre, _, hmem, .inr ⟨v.index - pre.count c.name, ?_, by omega, by omega⟩⟩
      exact Scope.locate_eq_free_iff.mpr ⟨hname.symm, by rw [hname]; omega⟩
  · rintro ⟨pre, ℓ, hmem, hfault⟩
    rcases hshift : t.shift δ c with e | t'
    · exact ⟨e, rfl⟩
    · exfalso
      rcases hfault with hcut | ⟨i, hfree, hle, hrange⟩
      · -- The shift has visited the leaf, so the cutoff is in range there.
        obtain ⟨u, hu⟩ := exists_visit_of_traverse hshift hmem
        rw [Traversal.visit, bind_eq_ok_iff] at hu
        obtain ⟨c', hcarry, -⟩ := hu
        have hlt := c'.index_lt
        rw [(Traversal.carry_shift_eq_ok hcarry).2] at hlt
        omega
      · rcases leaf_cases hmem with ⟨k, rfl⟩ | ⟨w, rfl⟩
        · cases hfree
        · obtain ⟨-, hindex⟩ := shifted_of_shift hshift hmem
          obtain ⟨hname, hw⟩ := Scope.locate_eq_free_iff.mp hfree
          rw [← hname] at hw
          rw [if_pos ⟨hname.symm, by omega⟩] at hindex
          have hlt := (w.shifted δ c pre).index_lt
          omega

/-- **A shift fails on the written index, and may capture.** Let the free variable `x@i`, where
`x@c` is the cutoff and `c ≤ i`, occur under `n` binders labelled `x`. A shift by `δ` fails if
`i + n + δ` is out of range for such an occurrence, or if the cutoff cannot be raised, and for no
other reason. If it returns, the outcome is the term with its occurrences moved. Every bound
occurrence is still bound by the same binder. All free occurrences are still free exactly if `i + δ`
is negative for no free variable `x@i` with `c ≤ i`, and the occurrences for which it is negative
are captured by binders labelled `x`. -/
theorem shift_keeps_scope_iff (t : Term) (δ : Int) (c : Var) :
    ((∃ e, t.shift δ c = .error e) ↔ ∃ pre ℓ, (pre, ℓ) ∈ t.leaves ∧
      (indexBound ≤ c.index + pre.count c.name ∨
        ∃ i : Nat, ℓ.resolve pre = .free c.name i ∧ c.index ≤ i ∧
          ((i : Int) + pre.count c.name + δ < 0 ∨
            (indexBound : Int) ≤ i + pre.count c.name + δ))) ∧
    ∀ t', t.shift δ c = .ok t' → ∃ f : Scope → Var → Var,
      t' = t.graft (fun pre w => .var (f pre w)) ∧
      (∀ pre w k, (pre, .var w) ∈ t.leaves → (var w).resolve pre = .bound k →
        (var (f pre w)).resolve pre = .bound k) ∧
      ((∀ pre w y i, (pre, .var w) ∈ t.leaves → (var w).resolve pre = .free y i →
          ∃ j, (var (f pre w)).resolve pre = .free y j) ↔
        ∀ i, (c.name, i) ∈ t.freeVars → c.index ≤ i → 0 ≤ (i : Int) + δ) ∧
      ∀ pre w i, (pre, .var w) ∈ t.leaves → (var w).resolve pre = .free c.name i → c.index ≤ i →
        (i : Int) + δ < 0 →
          ∃ k, pre[k]? = some c.name ∧ (var (f pre w)).resolve pre = .bound k := by
  refine ⟨shift_fails_iff, fun t' h => ?_⟩
  refine ⟨fun pre w => w.shifted δ c pre, graft_of_shift h, ?_, ?_, ?_⟩
  · intro pre w k hmem hk
    exact resolve_shifted_of_bound h hmem hk
  · constructor
    · intro hkept i hi hle
      obtain ⟨pre, w, hmem, hname, hindex⟩ := mem_freeVars.mp hi
      have hfree : (var w).resolve pre = .free c.name i :=
        Scope.locate_eq_free_iff.mpr ⟨hname.symm, by rw [hname, hindex]⟩
      exact (resolve_shifted_free_iff h hmem hfree).mp (hkept pre w _ i hmem hfree) rfl hle
    · intro hscope pre w y i hmem hfree
      refine (resolve_shifted_free_iff h hmem hfree).mpr fun hy hle => hscope i ?_ hle
      obtain ⟨hname, hindex⟩ := Scope.locate_eq_free_iff.mp hfree
      exact mem_freeVars.mpr ⟨pre, w, hmem, hname.symm.trans hy, by rw [← hy, hname, hindex]⟩
  · intro pre w i hmem hfree hle hδ
    exact resolve_shifted_of_captured h hmem hfree hle hδ

/-- `λ(x : Natural) → x@1`, with the free variable `x`. -/
def escaping : Term := .lam "x" (.const .naturalType) (.nearby "x" 1)

/-- `λ(x : Natural) → x`. -/
def escapingCaptured : Term := .lam "x" (.const .naturalType) (.nearby "x" 0)

/-- The free variable of `λ(x : Natural) → x@1` is captured by a shift down over `x`. -/
theorem shift_keeps_scope_iff_escaping :
    escaping.shift (-1) (.nearest "x") = .ok escapingCaptured ∧
      ∃ f : Scope → Var → Var, escapingCaptured = escaping.graft (fun pre w => .var (f pre w)) ∧
        ∃ k, ["x"][k]? = some "x" ∧
          (var (f ["x"] ⟨"x", 1, by decide⟩)).resolve ["x"] = .bound k := by
  have h : escaping.shift (-1) (.nearest "x") = .ok escapingCaptured := by decide +kernel
  obtain ⟨f, hgraft, -, -, hcaptured⟩ := (shift_keeps_scope_iff escaping (-1) (.nearest "x")).2 _ h
  refine ⟨h, f, hgraft, hcaptured ["x"] ⟨"x", 1, by decide⟩ 0 ?_ ?_ (Nat.le_refl 0) (by decide)⟩
  · decide +kernel
  · rfl

/-- A shift down returns although the free variable `x` would get a negative index, and its
occurrence is bound in the outcome. -/
theorem shift_captures_escaping :
    ("x", 0) ∈ escaping.freeVars ∧ ((0 : Nat) : Int) + (-1) < 0 ∧
      escaping.shift (-1) (.nearest "x") = .ok escapingCaptured ∧
      escapingCaptured.freeVars = [] ∧
      escapingCaptured.resolve [] = .binder .lambda (.const .naturalType) (.bound 0) := by
  have hshift : escaping.shift (-1) (.nearest "x") = .ok escapingCaptured := by decide +kernel
  exact ⟨by decide +kernel, by decide, hshift, by decide +kernel, rfl⟩

end Term

end Trisort
