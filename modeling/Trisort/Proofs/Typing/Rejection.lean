import Trisort.Proofs.Faults
import Trisort.Proofs.Typing.Regularity

/-!
# Rejections are true

An error that says something about types is raised after a computation on these types. The rules
compare in different ways: two types by convertibility, as they were found, and a normalized type by
its form. What a rule knows when it raises its error is `TypeError.TrueOfTypes`. This mentions
neither the context nor the term, so it is as true where the error arrives as it was deep inside
where it was raised.

Two types that an error calls different are therefore not found convertible when they are compared
again, with whatever fuel, and a type that an error cites as a normal one is its own normal form
(`check_rejects_truly`).
-/

namespace Trisort

open Log

/-- If the failure is a rejection, then what it says about types is true, and the limit that it
names is `limit`. -/
def Failure.Truthful (limit : Nat) : Failure → Prop
  | .rejected (.unbound _) | .halted _ => True
  | .rejected (.tooDeep l) => l = limit
  | .rejected e => e.TrueOfTypes

namespace Term

open Nameless

/-- What a rule says to be wrong with types is true. -/
theorem ruleFailures_truthful (fuel limit : Nat) : RuleFailures fuel (Failure.Truthful limit) := by
  refine .of_halted (fun _ => trivial) fun e he => ?_
  cases e with
  | unbound v => trivial
  | tooDeep l => exact he.elim
  | _ => exact he

/-- What the checker says when it rejects a term is true. -/
theorem check_truthful {fuel maxDepth : Nat} {Γ : Context} {t : Term} {e : TypeError}
    (h : (t.check fuel maxDepth Γ).result = .error (.rejected e)) :
    Failure.Truthful maxDepth (.rejected e) := by
  rw [check_result] at h
  exact (ruleFailures_truthful fuel maxDepth).infer (fun _ => trivial) rfl maxDepth Γ t _ h

/-- Types that are not convertible are not found to be. -/
theorem convertible_ne_true {t u : Term} (h : ¬ Conv (t.resolve []) (u.resolve [])) (n : Nat) :
    (t.convertible n u).result ≠ .ok true :=
  fun htrue => h ((convertible_iff htrue []).mp rfl)

/-- A term without redexes is its own normal form. -/
theorem RedexFree.normalize_eq {t : Term} (h : t.RedexFree) {n : Nat} (hn : t.size ≤ n) :
    (t.normalize n).result = .ok t :=
  (settles_of_redexFree h hn).1

/-- **Rejections are true.** Let a term be rejected, in any context and with any limit. If the error
cites two types that should be the same, comparing them never gives `true`. If it cites a type that
should be that of a function, or a universe, the type is its own normal form, and is neither. If it
cites two universes, there are no functions between them, and if it cites a limit, that is the limit
of the check. -/
theorem check_rejects_truly {fuel maxDepth : Nat} {Γ : Context} {t : Term} {e : TypeError}
    (h : (t.check fuel maxDepth Γ).result = .error (.rejected e)) :
    (∀ expected actual role, e = .mismatch expected actual role →
      ∀ n, (expected.convertible n actual).result ≠ .ok true) ∧
    (∀ declared inferred, e = .misannotated declared inferred →
      ∀ n, (declared.convertible n inferred).result ≠ .ok true) ∧
    (∀ first offending, e = .mixedList first offending →
      ∀ n, (first.convertible n offending).result ≠ .ok true) ∧
    (∀ actual, e = .notFunction actual →
      (∀ n, actual.size ≤ n → (actual.normalize n).result = .ok actual) ∧
        ∀ x A B, actual ≠ .pi x A B) ∧
    (∀ actual role, e = .notUniverse actual role →
      (∀ n, actual.size ≤ n → (actual.normalize n).result = .ok actual) ∧
        ∀ u, actual ≠ .univ u) ∧
    (∀ domain codomain, e = .noFunctionSpace domain codomain →
      domain.function? codomain = none) ∧
    ∀ limit, e = .tooDeep limit → limit = maxDepth := by
  have htrue := check_truthful h
  refine ⟨?_, ?_, ?_, ?_, ?_, ?_, ?_⟩
  · rintro expected actual role rfl
    exact convertible_ne_true htrue
  · rintro declared inferred rfl
    exact convertible_ne_true htrue
  · rintro first offending rfl
    exact convertible_ne_true htrue
  · rintro actual rfl
    obtain ⟨hfree, hpi⟩ := htrue
    exact ⟨fun _ => hfree.normalize_eq, hpi⟩
  · rintro actual role rfl
    obtain ⟨hfree, huniv⟩ := htrue
    exact ⟨fun _ => hfree.normalize_eq, huniv⟩
  · rintro domain codomain rfl
    exact htrue
  · rintro limit rfl
    exact htrue

/-- `λ(y : Bool) → (λ(x : Natural) → x) y`. -/
def misapplied : Term :=
  .lam "y" (.const .boolType) (.app (constant (.nearest "x")) (.nearby "y" 0))

/-- `[1, True : Natural]`. -/
def misdeclared : Term :=
  .list (.natural 1) [.annot (.const (.bool true)) (.const .naturalType)]

/-- Terms that are rejected for different reasons, and what the errors say about types. -/
theorem check_rejects_truly_samples :
    ((misapplied.check 8 8 []).result =
        .error (.rejected (.mismatch (.const .naturalType) (.const .boolType) .argument)) ∧
      ∀ n, ((const .naturalType).convertible n (.const .boolType)).result ≠ .ok true) ∧
    ((misdeclared.check 8 8 []).result =
        .error (.rejected (.misannotated (.const .naturalType) (.const .boolType))) ∧
      ∀ n, ((const .naturalType).convertible n (.const .boolType)).result ≠ .ok true) ∧
    (((list (.nearby "f" 0) [.const (.bool true)]).check 8 8 [⟨"f", unreduced⟩]).result =
        .error (.rejected (.mixedList unreduced (.const .boolType))) ∧
      ∀ n, (unreduced.convertible n (.const .boolType)).result ≠ .ok true) ∧
    (((app (.nearby "f" 0) (.natural 1)).check 8 8 [⟨"f", unreduced⟩]).result =
        .error (.rejected (.notFunction (.const .naturalType))) ∧
      ((const .naturalType).normalize 1).result = .ok (.const .naturalType) ∧
      ∀ x A B, const .naturalType ≠ .pi x A B) ∧
    (((pi "x" (.natural 1) (.const .naturalType)).check 8 8 []).result =
        .error (.rejected (.notUniverse (.const .naturalType) .domain)) ∧
      ∀ u, const .naturalType ≠ .univ u) ∧
    (((pi "x" (.const .naturalType) (.univ .type)).check 8 8 []).result =
        .error (.rejected (.noFunctionSpace .type .kind)) ∧
      Universe.function? .type .kind = none) ∧
    ∃ limit, (misapplied.check 8 2 []).result = .error (.rejected (.tooDeep limit)) ∧
      limit = 2 := by
  have hmismatch : (misapplied.check 8 8 []).result =
      .error (.rejected (.mismatch (.const .naturalType) (.const .boolType) .argument)) := by
    decide +kernel
  have hdeclared : (misdeclared.check 8 8 []).result =
      .error (.rejected (.misannotated (.const .naturalType) (.const .boolType))) := by
    decide +kernel
  have hmixed :
      ((list (.nearby "f" 0) [.const (.bool true)]).check 8 8 [⟨"f", unreduced⟩]).result =
        .error (.rejected (.mixedList unreduced (.const .boolType))) := by decide +kernel
  have hfunction : ((app (.nearby "f" 0) (.natural 1)).check 8 8 [⟨"f", unreduced⟩]).result =
      .error (.rejected (.notFunction (.const .naturalType))) := by decide +kernel
  have huniverse : ((pi "x" (.natural 1) (.const .naturalType)).check 8 8 []).result =
      .error (.rejected (.notUniverse (.const .naturalType) .domain)) := by decide +kernel
  have hspace : ((pi "x" (.const .naturalType) (.univ .type)).check 8 8 []).result =
      .error (.rejected (.noFunctionSpace .type .kind)) := by decide +kernel
  have hdeep : (misapplied.check 8 2 []).result = .error (.rejected (.tooDeep 2)) := by
    decide +kernel
  refine ⟨⟨hmismatch, ?_⟩, ⟨hdeclared, ?_⟩, ⟨hmixed, ?_⟩, ⟨hfunction, ?_⟩, ⟨huniverse, ?_⟩,
    ⟨hspace, ?_⟩, ⟨2, hdeep, ?_⟩⟩
  · exact (check_rejects_truly hmismatch).1 _ _ _ rfl
  · exact (check_rejects_truly hdeclared).2.1 _ _ rfl
  · exact (check_rejects_truly hmixed).2.2.1 _ _ rfl
  · obtain ⟨hnormal, hpi⟩ := (check_rejects_truly hfunction).2.2.2.1 _ rfl
    exact ⟨hnormal 1 (Nat.le_refl 1), hpi⟩
  · exact ((check_rejects_truly huniverse).2.2.2.2.1 _ _ rfl).2
  · exact (check_rejects_truly hspace).2.2.2.2.2.1 _ _ rfl
  · exact (check_rejects_truly hdeep).2.2.2.2.2.2 _ rfl

end Term

end Trisort
