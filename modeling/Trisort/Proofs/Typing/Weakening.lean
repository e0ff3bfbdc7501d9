import Trisort.Proofs.Typing.Lockstep

/-!
# One more variable in the context

A term that is typed in a context is typed in the context with one more variable, once it is shifted
over that variable. The entries of the context are found one place further on, shifted as well, and
the shifted term corresponds to the term, labels included, so the two inferences run in lockstep.
Since labels count, the type that is found for the shifted term is not just some type that
corresponds to the type of the term: it is the shifted type.
-/

namespace Trisort.Term

open Nameless

/-- The entries of a context are found one place further on when a binder is entered. -/
theorem embeds_enter (m : Marking) {Γ Γ' : Context} {x : Label} {A : Term}
    (h : Γ.enter x A = .ok Γ') : Γ.Embeds m Nat.succ Γ' := by
  rw [Context.Embeds, Context.forms_enter m h]
  exact Assumptions.renames_enter _ _

/-- The type found for the shifted term corresponds to that of the term, labels included. -/
theorem check_shift_agree {Γ Γ' : Context} {x : Label} {A t t' : Term} (fuel maxDepth : Nat)
    (hΓ' : Γ.enter x A = .ok Γ') (ht' : t.shift 1 (.nearest x) = .ok t') :
    SameType .labelled Nat.succ Γ Γ' (t.check fuel maxDepth Γ) (t'.check fuel maxDepth Γ') := by
  refine check_uniform .labelled fuel maxDepth (fun _ _ => Nat.succ.inj) (embeds_enter _ hΓ') ?_
  rw [Context.scope_enter hΓ']
  exact corresponds_shift_nearest .labelled ht'

/-- **Weakening.** Let a binder be entered into any context, and let a term be shifted over it. If
no index leaves its range, a type of the term in the old context, shifted likewise, is the type of
the shifted term in the new one. If the term is rejected, so is the shifted one, for the same kind
of reason. -/
theorem check_weakening {Γ Γ' : Context} {x : Label} {A t t' : Term} {fuel maxDepth : Nat}
    (hΓ' : Γ.enter x A = .ok Γ') (ht' : t.shift 1 (.nearest x) = .ok t')
    (hfault : ¬ Faults (t'.check fuel maxDepth Γ')) :
    (∀ T T', (t.check fuel maxDepth Γ).result = .ok T → T.shift 1 (.nearest x) = .ok T' →
        (t'.check fuel maxDepth Γ').result = .ok T') ∧
      ∀ e, (t.check fuel maxDepth Γ).result = .error (.rejected e) →
        ∃ e', (t'.check fuel maxDepth Γ').result = .error (.rejected e') ∧ e'.kind = e.kind := by
  have hagree := check_shift_agree fuel maxDepth hΓ' ht'
  constructor
  · intro T T' hT hT'
    obtain ⟨U, hU, hcorr⟩ := exists_ok_of_agree hagree hT hfault
    rw [Context.scope_enter hΓ'] at hcorr
    rw [hU, hcorr.unique (corresponds_shift_nearest .labelled hT')]
  · intro e he
    exact exists_rejected_of_agree hagree he hfault

/-- `λ(x : T) → x`. -/
def identityOn (T : Term) : Term := .lam "x" T (.nearby "x" 0)

/-- `λ(x : T) → x + 1`. -/
def successorOn (T : Term) : Term := .lam "x" T (.arith .plus (.nearby "x" 0) (.natural 1))

/-- Two functions, one accepted and one rejected, shifted over a label that hides another. -/
theorem check_weakening_shadowing :
    outer.enter "x" (.nearby "x" 0) = .ok shadowing ∧
      ((identityOn (.nearby "x" 0)).shift 1 (.nearest "x") = .ok (identityOn (.nearby "x" 1)) ∧
        ((identityOn (.nearby "x" 0)).check 8 8 outer).result =
          .ok (.pi "x" (.nearby "x" 0) (.nearby "x" 1)) ∧
        ((identityOn (.nearby "x" 1)).check 8 8 shadowing).result =
          .ok (.pi "x" (.nearby "x" 1) (.nearby "x" 2))) ∧
      (successorOn (.nearby "x" 0)).shift 1 (.nearest "x") = .ok (successorOn (.nearby "x" 1)) ∧
        ((successorOn (.nearby "x" 0)).check 8 8 outer).result = .error (.rejected
          (.mismatch (.const .naturalType) (.nearby "x" 1) (.leftOperand .plus))) ∧
        ∃ e, ((successorOn (.nearby "x" 1)).check 8 8 shadowing).result = .error (.rejected e) ∧
          e.kind = .mismatch (.leftOperand .plus) := by
  have henter : outer.enter "x" (.nearby "x" 0) = .ok shadowing := by decide +kernel
  have hshift : (identityOn (.nearby "x" 0)).shift 1 (.nearest "x") =
      .ok (identityOn (.nearby "x" 1)) := by decide +kernel
  have hcheck : ((identityOn (.nearby "x" 0)).check 8 8 outer).result =
      .ok (.pi "x" (.nearby "x" 0) (.nearby "x" 1)) := by decide +kernel
  have htype : (pi "x" (.nearby "x" 0) (.nearby "x" 1)).shift 1 (.nearest "x") =
      .ok (.pi "x" (.nearby "x" 1) (.nearby "x" 2)) := by decide +kernel
  have hshift' : (successorOn (.nearby "x" 0)).shift 1 (.nearest "x") =
      .ok (successorOn (.nearby "x" 1)) := by decide +kernel
  have hcheck' : ((successorOn (.nearby "x" 0)).check 8 8 outer).result = .error (.rejected
      (.mismatch (.const .naturalType) (.nearby "x" 1) (.leftOperand .plus))) := by decide +kernel
  have hfault : ¬ Faults ((identityOn (.nearby "x" 1)).check 8 8 shadowing) := by
    decide +kernel
  have hfault' : ¬ Faults ((successorOn (.nearby "x" 1)).check 8 8 shadowing) := by
    decide +kernel
  obtain ⟨hok, -⟩ := check_weakening henter hshift hfault
  obtain ⟨-, hrejected⟩ := check_weakening henter hshift' hfault'
  exact ⟨henter, ⟨hshift, hcheck, hok _ _ hcheck htype⟩, hshift', hcheck', hrejected _ hcheck'⟩

end Trisort.Term
