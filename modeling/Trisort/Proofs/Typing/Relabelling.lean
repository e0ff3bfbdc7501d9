import Trisort.Proofs.Typing.Lockstep

/-!
# Labels do not matter to typing

Two terms that differ only in the labels of their binders correspond to each other if labels do not
count. So the two inferences run in lockstep: the terms have the same type up to labels, or are
rejected for the same kind of reason.
-/

namespace Trisort

open Log Logged

namespace Term

/-- The two inferences give types with the same nameless form, or reject for the same kind of
reason, or both need more fuel. -/
def SameVerdict (x y : Inference Term) : Prop :=
  match x.result, y.result with
  | .ok T, .ok U => T.resolve [] = U.resolve []
  | .error (.rejected e), .error (.rejected e') => e.kind = e'.kind
  | .error (.halted .exhausted), .error (.halted .exhausted) => True
  | _, _ => False

/-- Inferences that end alike give the same verdict, unless one of them faults. -/
theorem sameVerdict_of_agree {x y : Inference Term} (hx : ¬ Faults x) (hy : ¬ Faults y)
    (h : SameType .plain id [] [] x y) : SameVerdict x y := by
  unfold SameVerdict
  rcases h with ⟨hxr, hyr, h⟩ | @⟨f, f', hxr, hyr, h⟩ | ⟨hxr, h⟩ | ⟨hyr, h⟩
  · rw [hxr, hyr]
    exact (h.resolve.trans (Nameless.rename_id _)).symm
  · rw [hxr, hyr]
    rcases f with e | e | _
    · rcases f' with e' | e'
      · exact h
      · cases h
    · exact absurd ⟨e, hxr⟩ hx
    · cases h
      trivial
  · obtain ⟨e, rfl⟩ := h
    exact absurd ⟨e, hxr⟩ hx
  · obtain ⟨e, rfl⟩ := h
    exact absurd ⟨e, hyr⟩ hy

/-- Terms with the same nameless form have types with the same nameless form, or are rejected for
the same kind of reason. -/
theorem check_agree {fuel maxDepth : Nat} {a b : Term} (h : a.resolve [] = b.resolve []) :
    SameType .plain id [] [] (a.check fuel maxDepth []) (b.check fuel maxDepth []) := by
  refine check_uniform .plain fuel maxDepth Function.injective_id ?_ (corresponds_of_resolve_eq h)
  intro k A hA
  cases hA

/-- **Checking respects the renaming of bound variables.** Terms with the same nameless form get the
same verdict at every depth and with every amount of fuel, unless an index leaves its range in one
of the two runs; and so do a term and its anonymous form. -/
theorem check_respects_relabelling (fuel maxDepth : Nat) :
    (∀ a b : Term, a.resolve [] = b.resolve [] →
      ¬ Faults (a.check fuel maxDepth []) → ¬ Faults (b.check fuel maxDepth []) →
        SameVerdict (a.check fuel maxDepth []) (b.check fuel maxDepth [])) ∧
    ∀ t t' : Term, t.anonymize = .ok t' →
      ¬ Faults (t.check fuel maxDepth []) → ¬ Faults (t'.check fuel maxDepth []) →
        SameVerdict (t.check fuel maxDepth []) (t'.check fuel maxDepth []) := by
  constructor
  · intro a b h ha hb
    exact sameVerdict_of_agree ha hb (check_agree h)
  · intro t t' h ht ht'
    exact sameVerdict_of_agree ht ht' (check_agree (resolve_anonymize h []).symm)

/-- `λ(x : Type) → λ(x : x) → x`, in which the inner binder hides the outer one. -/
def shadowingIdentity : Term := .lam "x" (.univ .type) (.lam "x" (.nearby "x" 0) (.nearby "x" 0))

/-- `λ(a : Type) → λ(b : a) → b`. -/
def plainIdentity : Term := .lam "a" (.univ .type) (.lam "b" (.nearby "a" 0) (.nearby "b" 0))

/-- `λ(x : Type) → λ(x : x) → x + x@1`, where the left operand has the type `x@1`. -/
def shadowingSum : Term :=
  .lam "x" (.univ .type) (.lam "x" (.nearby "x" 0) (.arith .plus (.nearby "x" 0) (.nearby "x" 1)))

/-- The same without labels. -/
def anonymousSum : Term :=
  .lam "_" (.univ .type) (.lam "_" (.nearby "_" 0) (.arith .plus (.nearby "_" 0) (.nearby "_" 1)))

/-- Two terms in which one label hides another, one accepted and one rejected, with other labels
instead. -/
theorem check_respects_relabelling_shadowing :
    (shadowingIdentity.check 8 8 []).result =
        .ok (.pi "x" (.univ .type) (.pi "x" (.nearby "x" 0) (.nearby "x" 1))) ∧
      SameVerdict (shadowingIdentity.check 8 8 []) (plainIdentity.check 8 8 []) ∧
      (shadowingSum.check 8 8 []).result = .error (.rejected
        (.mismatch (.const .naturalType) (.nearby "x" 1) (.leftOperand .plus))) ∧
      shadowingSum.anonymize = .ok anonymousSum ∧
      SameVerdict (shadowingSum.check 8 8 []) (anonymousSum.check 8 8 []) := by
  have hfault {t : Term} {r : Except Failure Term} (h : (t.check 8 8 []).result = r)
      (hr : ∀ e, r ≠ .error (.halted (.fault e))) : ¬ Faults (t.check 8 8 []) := by
    rintro ⟨e, he⟩
    exact hr e (h.symm.trans he)
  have hshadowing : (shadowingIdentity.check 8 8 []).result =
      .ok (.pi "x" (.univ .type) (.pi "x" (.nearby "x" 0) (.nearby "x" 1))) := by decide +kernel
  have hplain : (plainIdentity.check 8 8 []).result =
      .ok (.pi "a" (.univ .type) (.pi "b" (.nearby "a" 0) (.nearby "a" 0))) := by decide +kernel
  have hsum : (shadowingSum.check 8 8 []).result = .error (.rejected
      (.mismatch (.const .naturalType) (.nearby "x" 1) (.leftOperand .plus))) := by decide +kernel
  have hanonymous : (anonymousSum.check 8 8 []).result = .error (.rejected
      (.mismatch (.const .naturalType) (.nearby "_" 1) (.leftOperand .plus))) := by decide +kernel
  have hanonymize : shadowingSum.anonymize = .ok anonymousSum := by decide +kernel
  obtain ⟨hsame, hanon⟩ := check_respects_relabelling 8 8
  refine ⟨hshadowing, hsame shadowingIdentity plainIdentity ?_ ?_ ?_, hsum, hanonymize,
    hanon shadowingSum anonymousSum hanonymize ?_ ?_⟩
  · rfl
  · exact hfault hshadowing nofun
  · exact hfault hplain nofun
  · exact hfault hsum nofun
  · exact hfault hanonymous nofun

end Term

end Trisort
