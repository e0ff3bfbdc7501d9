import Trisort.Proofs.Agreement
import Trisort.Proofs.Conversion

/-!
# Normalization in lockstep

Two terms that correspond to each other, each in a scope of its own, are normalized in lockstep:
with the same fuel, both runs come to an end or neither does, and the normal forms correspond to
each other again (`normalize_agree`). Comparing terms gives the same answer for terms that
correspond to them, because a renaming of variables that keeps them apart does not make terms
convertible (`convertible_agree`). What does change is how large the indices get, so a run that
fails because an index leaves its range is not compared.

The proofs follow the recursion of `Term.normalize`, with one case for the two terms at each level.
-/

namespace Trisort

open Log Logged

/-- Runs are compared unless an index leaves its range. -/
def Halt.tolerance : Tolerance Halt where
  Fault h := ∃ e, h = .fault e
  Same := Eq

/-- Operations on indices either fault or end with a value. -/
theorem agree_lift_index {α β : Type} {R : α → β → Prop} {x : Except IndexFault α}
    {y : Except IndexFault β} (h : ∀ a b, x = .ok a → y = .ok b → R a b) :
    Agree Halt.tolerance R (liftM x : Evaluation α) (liftM y : Evaluation β) := by
  have hfault {α : Type} (x : Except IndexFault α) (e : Halt)
      (hx : x.mapError Halt.fault = .error e) : ∃ e', e = .fault e' := by
    rcases x with e' | a
    · exact ⟨e', (Except.error.inj hx).symm⟩
    · cases hx
  refine .ofExcept (hfault x) (hfault y) ?_
  intro a b ha hb
  exact h a b (mapError_eq_ok_iff.mp ha) (mapError_eq_ok_iff.mp hb)

namespace Term

open Nameless

variable {m : Marking} {ξ : Nat → Nat} {Γ Δ : Scope} {fuel : Nat}

/-! ### Normalization -/

/-- The two computations end with terms that correspond to each other. -/
abbrev SameForm (m : Marking) (ξ : Nat → Nat) (Γ Δ : Scope) (x y : Evaluation Term) : Prop :=
  Agree Halt.tolerance (Corresponds m ξ Γ Δ) x y

/-- An operation whose operands are not two literals stays as it is. -/
theorem reduceArith_of_not_natural {op : Operation} {l r : Term}
    (h : ∀ m n, l = .natural m → r ≠ .natural n) : reduceArith op l r = pure (.arith op l r) := by
  unfold reduceArith
  split
  · exact absurd rfl (h _ _ rfl)
  · rfl

/-- Arithmetic on operands that correspond to each other ends in lockstep. -/
theorem reduceArith_agree {op : Operation} {l l' r r' : Term} (hl : Corresponds m ξ Γ Δ l l')
    (hr : Corresponds m ξ Γ Δ r r') :
    SameForm m ξ Γ Δ (reduceArith op l r) (reduceArith op l' r') := by
  have harith : Corresponds m ξ Γ Δ (.arith op l r) (.arith op l' r') :=
    (Alike.arith hl hr).corresponds
  by_cases hlit : ∃ m n, l = .natural m ∧ r = .natural n
  · obtain ⟨m, n, rfl, rfl⟩ := hlit
    obtain rfl := hl.const_iff.mp rfl
    obtain rfl := hr.const_iff.mp rfl
    rcases heval : op.eval? m n with _ | k
    · simp only [reduceArith, heval]
      exact .bind (.record _ _) fun _ _ _ => .pure harith
    · simp only [reduceArith, heval]
      exact .pure rfl
  · have hleft : ∀ m n, l = .natural m → r ≠ .natural n := by
      intro m n hm hn
      exact hlit ⟨m, n, hm, hn⟩
    have hright : ∀ m n, l' = .natural m → r' ≠ .natural n := by
      intro m n hm hn
      exact hleft m n (hl.const_iff.mpr hm) (hr.const_iff.mpr hn)
    rw [reduceArith_of_not_natural hleft, reduceArith_of_not_natural hright]
    exact .pure harith

/-- Terms that correspond to each other are normalized in lockstep. -/
theorem normalize_agree {t u : Term} (h : Corresponds m ξ Γ Δ t u) :
    SameForm m ξ Γ Δ (t.normalize fuel) (u.normalize fuel) := by
  induction fuel generalizing ξ Γ Δ t u with
  | zero => exact .fail rfl
  | succ fuel ih =>
    cases h.alike with
    | const c => exact .pure h
    | var _ => exact .pure h
    | binder hxy hA hb =>
      simp only [normalize, relay_eq]
      refine .bind (ih hA) fun A A' hA => .bind (ih hb) fun b b' hb => .pure ?_
      exact (Alike.binder hxy hA hb).corresponds
    | app hf ha =>
      simp only [normalize, relay_eq]
      refine .bind (ih hf) fun f f' hf => .bind (ih ha) fun a a' ha => ?_
      have happ : Corresponds m ξ Γ Δ (.app f a) (.app f' a') := (Alike.app hf ha).corresponds
      cases hf.alike with
      | @binder k x y A A' b b' _ hA hb =>
        cases k with
        | lambda =>
          refine .bind (.record _ _) fun _ _ _ => .bind (agree_lift_index ?_) fun c d h => ih h
          intro c d hc hd
          exact hb.instantiate ha hc hd
        | pi => exact .pure happ
      | _ => exact .pure happ
    | annot he _ =>
      simp only [normalize, relay_eq]
      exact ih he
    | arith hl hr =>
      simp only [normalize, relay_eq]
      exact .bind (ih hl) fun l l' hl => .bind (ih hr) fun r r' hr => reduceArith_agree hl hr
    | nil hA =>
      simp only [normalize, relay_eq]
      refine .bind (ih hA) fun A A' hA => .pure ?_
      exact (Alike.nil hA).corresponds
    | list he hes =>
      simp only [normalize, relay_eq]
      refine .bind (ih he) fun e e' he => ?_
      refine .bind (.mapList hes fun e e' he => ih he) fun es es' hes => .pure ?_
      exact (Alike.list he hes).corresponds

/-! ### Comparison -/

/-- Both canonical forms are found, or neither is. -/
theorem canonical_agree {t u : Term} (h : Corresponds m ξ Γ Δ t u) :
    Agree Halt.tolerance (fun _ _ => True) (t.canonical fuel) (u.canonical fuel) := by
  refine .bind (normalize_agree h) fun _ _ _ => agree_lift_index ?_
  intro _ _ _ _
  trivial

/-- Comparing terms gives the same answer for terms that correspond to them. -/
theorem convertible_agree (hξ : Function.Injective ξ) {t t' u u' : Term}
    (ht : Corresponds m ξ Γ Δ t t') (hu : Corresponds m ξ Γ Δ u u') :
    Agree Halt.tolerance Eq (t.convertible fuel u) (t'.convertible fuel u') := by
  have hrun : Agree Halt.tolerance (fun _ _ => True) (t.convertible fuel u)
      (t'.convertible fuel u') :=
    .bind (canonical_agree ht) fun _ _ _ => .bind (canonical_agree hu) fun _ _ _ => .pure trivial
  refine hrun.mono fun r r' hr hr' _ => ?_
  -- Both answers say whether the terms are convertible, which is a matter of nameless forms.
  have hiff := convertible_iff hr' Δ
  rw [ht.resolve, hu.resolve, conv_rename_iff hξ, ← convertible_iff hr Γ] at hiff
  exact (Bool.eq_iff_iff.mpr hiff).symm

end Term

end Trisort
