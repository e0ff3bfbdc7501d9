import Trisort.Proofs.Instantiation
import Trisort.Proofs.NormalForm
import Trisort.Proofs.Typing.Checking

/-!
# Which faults occur

Shifting a term down is the one operation that can move an index below zero. It is used in two
places, where a binder is filled and where one is relabelled, and in both nothing refers any more to
the binder over which the term is shifted. So no index leaves its range at the lower end, on any
term, typed or not: every fault of normalization, comparison and inference is that of an index which
is as large as it can be and would have to grow (`IndexFault.AtTop`).

`FailsOnly P x` says that whatever makes the computation `x` fail has the property `P`. The property
passes through sequences of computations, so each operation inherits it from those that it calls.
-/

namespace Trisort

open Log
open Var (indexBound)

/-! ### Computations and their failures -/

/-- Every failure of the computation has the property `P`. -/
def FailsOnly {ε α : Type} (P : ε → Prop) (x : Except ε α) : Prop := ∀ e, x = .error e → P e

namespace FailsOnly

variable {ε ε' ω α β : Type} {P : ε → Prop}

/-- A computation that only returns a value does not fail. -/
protected theorem pure (a : α) : FailsOnly P (pure a : Except ε α) := by
  intro e h
  exact absurd h pure_ne_error

/-- A computation that fails with `e` has the property if `e` does. -/
protected theorem error {e : ε} (h : P e) : FailsOnly P (.error e : Except ε α) := by
  rintro _ ⟨⟩
  exact h

/-- A sequence fails only as its parts do. -/
protected theorem bind {x : Except ε α} {f : α → Except ε β} (hx : FailsOnly P x)
    (hf : ∀ a, x = .ok a → FailsOnly P (f a)) : FailsOnly P (x >>= f) := by
  intro e h
  rcases bind_eq_error_iff.mp h with h | ⟨a, ha, h⟩
  · exact hx e h
  · exact hf a ha e h

/-- The property is carried along when failures are renamed. -/
theorem mapError {P' : ε' → Prop} {x : Except ε α} {k : ε → ε'} (hx : FailsOnly P x)
    (hk : ∀ e, P e → P' (k e)) : FailsOnly P' (x.mapError k) := by
  rcases x with e | a
  · exact .error (hk e (hx e rfl))
  · exact .pure a

/-- A map over a list fails only as it does at the elements. -/
theorem mapM {f : α → Except ε β} {as : List α} (h : ∀ a ∈ as, FailsOnly P (f a)) :
    FailsOnly P (as.mapM f) := by
  intro e he
  obtain ⟨a, ha, herror⟩ := exists_mem_of_mapM_error he
  exact h a ha e herror

/-- A sequence that records events fails only as its parts do, the second on the value of the
first. -/
theorem logged_bind_of_ok {x : Logged ω ε α} {f : α → Logged ω ε β} (hx : FailsOnly P x.result)
    (hf : ∀ a, x.result = .ok a → FailsOnly P (f a).result) : FailsOnly P (x >>= f).result := by
  rw [Logged.result_bind]
  exact .bind hx hf

/-- The same, if the second part has the property on any value. -/
theorem logged_bind {x : Logged ω ε α} {f : α → Logged ω ε β} (hx : FailsOnly P x.result)
    (hf : ∀ a, FailsOnly P (f a).result) : FailsOnly P (x >>= f).result :=
  logged_bind_of_ok hx fun a _ => hf a

/-- A map over a list that records events fails only as it does at the elements. -/
theorem mapList {f : α → Logged ω ε β} (h : ∀ a, FailsOnly P (f a).result) (as : List α) :
    FailsOnly P (Logged.mapList f as).result := by
  induction as with
  | nil => exact .pure _
  | cons a as ih => exact .logged_bind (h a) fun b => .logged_bind ih fun bs => .pure _

/-- A loop over a list fails only as its body does at the elements. -/
theorem forM {f : α → Logged ω ε PUnit} {as : List α} (h : ∀ a ∈ as, FailsOnly P (f a).result) :
    FailsOnly P (as.forM f).result := by
  induction as with
  | nil => exact .pure _
  | cons a as ih => exact .logged_bind (h a (by simp)) fun _ => ih fun b hb => h b (by simp [hb])

end FailsOnly

/-! ### Faults at the upper end of the range -/

/-- The fault is that an index would exceed the largest one: that of a variable which is moved up by
one, or that of a variable which is carried under one more binder of its name. -/
def IndexFault.AtTop (e : IndexFault) : Prop :=
  e = .overflow ∨ ∃ v : Var, e = .outOfScope v 1 ∧ v.index + 1 = indexBound

/-- If the computation ended with a fault, it is one at the upper end. -/
def Halt.AtTop : Halt → Prop
  | .fault e => e.AtTop
  | .exhausted => True

/-- If the inference ended with a fault, it is one at the upper end. -/
def Failure.AtTop : Failure → Prop
  | .rejected _ => True
  | .halted h => h.AtTop

/-- Faults at the upper end remain so when an operation on indices is a step of a computation. -/
theorem lift_index_atTop {α : Type} {x : Except IndexFault α} (h : FailsOnly IndexFault.AtTop x) :
    FailsOnly Halt.AtTop (liftM x : Evaluation α).result :=
  h.mapError fun _ he => he

/-- Faults at the upper end remain so when a computation on terms is a step of an inference. -/
theorem lift_evaluation_atTop {α : Type} {x : Evaluation α} (h : FailsOnly Halt.AtTop x.result) :
    FailsOnly Failure.AtTop (liftM x : Inference α).result :=
  h.mapError fun _ he => he

/-- Faults at the upper end remain so when an operation on indices is a step of an inference. -/
theorem inference_lift_index_atTop {α : Type} {x : Except IndexFault α}
    (h : FailsOnly IndexFault.AtTop x) :
    FailsOnly Failure.AtTop (liftM x : Inference α).result := by
  rcases x with e | a
  · exact .error (h e rfl)
  · exact .pure a

/-- The error is neither that a variable is unknown nor that a term is nested too deeply, but says
something about types, and what it says is true of them. -/
def TypeError.TrueOfTypes : TypeError → Prop
  | .unbound _ | .tooDeep _ => False
  | .noUniverseAbove => True
  | .mismatch t u _ | .mixedList t u | .misannotated t u =>
    ¬ Nameless.Conv (t.resolve []) (u.resolve [])
  | .notFunction T => T.RedexFree ∧ ∀ x A B, T ≠ .pi x A B
  | .notUniverse T _ => T.RedexFree ∧ ∀ u, T ≠ .univ u
  | .noFunctionSpace u v => u.function? v = none

namespace Term

open Nameless (insertion)

/-! ### Operations on indices -/

/-- A shift up by one fails at the upper end only. -/
theorem shift_up_atTop (t : Term) (c : Var) : FailsOnly IndexFault.AtTop (t.shift 1 c) := by
  intro e h
  obtain ⟨pre, ℓ, -, ⟨he, -⟩ | ⟨v, -, -, -, he, hrange⟩⟩ := shift_eq_error h
  · exact .inl he
  · have hlt := v.index_lt
    exact .inr ⟨v, he, by omega⟩

/-- A shift down over a binder that nothing refers to fails at the upper end only. -/
theorem shift_down_atTop (pre : Scope) {post : Scope} {t : Term} {c : Var} {u : Nameless}
    (hc : c.index = pre.count c.name)
    (hunused : t.resolve (pre ++ c.name :: post) = u.rename (insertion pre.length)) :
    FailsOnly IndexFault.AtTop (t.shift (-1) c) := by
  intro e h
  exact .inl (shift_down_eq_error pre hc hunused h).1

/-- A variable is carried under a binder, or fails at the upper end. -/
theorem under_atTop (v : Var) (x : Label) : FailsOnly IndexFault.AtTop (v.under x) := by
  intro e h
  exact .inl (Var.under_eq_error_iff.mp h).1

/-- A replacement is carried under binders by shifting its value up. -/
theorem carry_subst_atTop (s : Replacement) (pre : Scope) :
    FailsOnly IndexFault.AtTop (Traversal.subst.carry s pre) := by
  induction pre with
  | nil => exact .pure s
  | cons x pre ih =>
    rw [Traversal.carry_cons]
    refine .bind ih fun d _ => ?_
    exact .bind (shift_up_atTop d.value _) fun value _ =>
      .bind (under_atTop d.var x) fun var _ => .pure _

/-- Substitution only shifts up, so it fails at the upper end only. -/
theorem subst_atTop (t : Term) (v : Var) (value : Term) :
    FailsOnly IndexFault.AtTop (t.subst v value) := by
  intro e h
  obtain ⟨pre, ℓ, hmem, hvisit⟩ := failsAtLeaf_of_traverse h
  rw [Traversal.visit, bind_eq_error_iff] at hvisit
  rcases hvisit with hcarry | ⟨s, -, hleaf⟩
  · exact carry_subst_atTop _ pre e hcarry
  · -- At the leaf itself nothing can fail.
    rcases leaf_cases hmem with ⟨k, rfl⟩ | ⟨w, rfl⟩
    · cases hleaf
    · change subst (.var w) s.var s.value = _ at hleaf
      rw [subst_var] at hleaf
      split at hleaf <;> exact absurd hleaf pure_ne_error

/-- Filling a binder fails at the upper end only: once filled, nothing refers to the binder that is
shifted down over. -/
theorem instantiate_atTop (b : Term) (x : Label) (a : Term) :
    FailsOnly IndexFault.AtTop (b.instantiate x a) := by
  refine .bind (shift_up_atTop a _) fun a' ha => .bind (subst_atTop b _ a') fun b' hb => ?_
  have hunused : b'.resolve [x] = ((b.resolve [x]).instantiate (a.resolve [])).weaken :=
    resolve_subst_nearest ha hb
  exact shift_down_atTop (c := .nearest x) [] rfl hunused

/-- Relabelling a binder fails at the upper end only. -/
theorem relabelBody_atTop (x : Label) (b : Term) :
    FailsOnly IndexFault.AtTop (relabelBody x b) := by
  unfold relabelBody
  split
  case isTrue => exact .pure b
  case isFalse hx =>
    rw [Label.isAnonymous_iff] at hx
    refine .bind (shift_up_atTop b _) fun b₁ h₁ => .bind (subst_atTop b₁ _ _) fun b₂ h₂ => ?_
    have hcount : (Var.nearest x).index = [Label.anonymous].count x := by
      simp [Ne.symm hx]
    have hunused : b₂.resolve [.anonymous, x] = (b.resolve [x]).rename (insertion 1) :=
      resolve_rename_to_anonymous hx h₁ h₂
    exact shift_down_atTop [.anonymous] hcount hunused

/-- Making a term anonymous fails at the upper end only. -/
theorem anonymize_atTop (t : Term) : FailsOnly IndexFault.AtTop t.anonymize := by
  induction t using inductSize with
  | const c =>
    rw [anonymize_const]
    exact .pure _
  | var v =>
    rw [anonymize_var]
    exact .pure _
  | binder k x A b ihA ihb =>
    rw [anonymize_binder]
    exact .bind ihA fun A' _ => .bind (relabelBody_atTop x b) fun b₁ hb₁ =>
      .bind (ihb b₁ (size_relabelBody hb₁)) fun b' _ => .pure _
  | app f a ihf iha =>
    rw [anonymize_app]
    exact .bind ihf fun f' _ => .bind iha fun a' _ => .pure _
  | annot e A ihe ihA =>
    rw [anonymize_annot]
    exact .bind ihe fun e' _ => .bind ihA fun A' _ => .pure _
  | arith op l r ihl ihr =>
    rw [anonymize_arith]
    exact .bind ihl fun l' _ => .bind ihr fun r' _ => .pure _
  | nil A ihA =>
    rw [anonymize_nil]
    exact .bind ihA fun A' _ => .pure _
  | list e es ihe ihes =>
    rw [anonymize_list, anonymizeAll_eq_mapM]
    exact .bind ihe fun e' _ => .bind (.mapM ihes) fun es' _ => .pure _

end Term

/-- Entering a binder into a context fails at the upper end only. -/
theorem Context.enter_atTop (Γ : Context) (x : Label) (A : Term) :
    FailsOnly IndexFault.AtTop (Γ.enter x A) := by
  unfold enter mapTypesM
  induction Γ.insert x A with
  | nil => exact .pure _
  | cons b Γ ih =>
    rw [List.foldrM_cons]
    exact .bind ih fun Γ' _ => .bind (b.type.shift_up_atTop _) fun B _ => .pure _

/-! ### Computations on terms -/

namespace Term

/-- Arithmetic on normal operands does not fail. -/
theorem reduceArith_atTop (op : Operation) (l r : Term) :
    FailsOnly Halt.AtTop (reduceArith op l r).result := by
  unfold reduceArith
  split
  · split
    · exact .pure _
    · exact .logged_bind (.pure _) fun _ => .pure _
  · exact .pure _

/-- Every fault of normalization is one at the upper end. -/
theorem normalize_atTop (fuel : Nat) (t : Term) :
    FailsOnly Halt.AtTop (t.normalize fuel).result := by
  induction fuel generalizing t with
  | zero => exact .error trivial
  | succ fuel ih =>
    cases t with
    | const c => exact .pure _
    | var v => exact .pure _
    | binder k x A b =>
      simp only [normalize, relay_eq]
      exact .logged_bind (ih A) fun A' => .logged_bind (ih b) fun b' => .pure _
    | app f a =>
      simp only [normalize, relay_eq]
      refine .logged_bind (ih f) fun f' => .logged_bind (ih a) fun a' => ?_
      split
      case h_1 x A b =>
        exact .logged_bind (.pure _) fun _ =>
          .logged_bind (lift_index_atTop (instantiate_atTop b x a')) fun c => ih c
      case h_2 => exact .pure _
    | annot e A =>
      simp only [normalize, relay_eq]
      exact ih e
    | arith op l r =>
      simp only [normalize, relay_eq]
      exact .logged_bind (ih l) fun l' => .logged_bind (ih r) fun r' => reduceArith_atTop op l' r'
    | nil A =>
      simp only [normalize, relay_eq]
      exact .logged_bind (ih A) fun A' => .pure _
    | list e es =>
      simp only [normalize, relay_eq]
      exact .logged_bind (ih e) fun e' => .logged_bind (.mapList ih es) fun es' => .pure _

/-- Every fault on the way to the canonical form is one at the upper end. -/
theorem canonical_atTop (fuel : Nat) (t : Term) :
    FailsOnly Halt.AtTop (t.canonical fuel).result :=
  .logged_bind (normalize_atTop fuel t) fun u => lift_index_atTop (anonymize_atTop u)

/-- Every fault of a comparison is one at the upper end. -/
theorem convertible_atTop (fuel : Nat) (t u : Term) :
    FailsOnly Halt.AtTop (t.convertible fuel u).result :=
  .logged_bind (canonical_atTop fuel t) fun _ =>
    .logged_bind (canonical_atTop fuel u) fun _ => .pure _

/-! ### Inference -/

variable {fuel : Nat} {P : Failure → Prop}

/-- What makes a rule fail has the property `P`, where it depends on the types of the parts of a
term: the faults of the computations on these types, and the rejections that say what is wrong with
them. -/
structure RuleFailures (fuel : Nat) (P : Failure → Prop) : Prop where
  normalize (t : Term) : FailsOnly P (liftM (t.normalize fuel) : Inference Term).result
  convertible (t u : Term) : FailsOnly P (liftM (t.convertible fuel u) : Inference Bool).result
  enter (Γ : Context) (x : Label) (A : Term) :
    FailsOnly P (liftM (Γ.enter x A) : Inference Context).result
  instantiate (b : Term) (x : Label) (a : Term) :
    FailsOnly P (liftM (b.instantiate x a) : Inference Term).result
  rejected {e : TypeError} (he : e.TrueOfTypes) : P (.rejected e)

namespace RuleFailures

/-- A property of every computation that is halted does not depend on how that comes about. -/
theorem of_halted (hhalted : ∀ h, P (.halted h))
    (hrejected : ∀ e, e.TrueOfTypes → P (.rejected e)) : RuleFailures fuel P := by
  have hevaluation {α : Type} (x : Evaluation α) :
      FailsOnly P (liftM x : Inference α).result :=
    FailsOnly.mapError (P := fun _ => True) (fun _ _ => trivial) fun h _ => hhalted h
  have hindex {α : Type} (x : Except IndexFault α) :
      FailsOnly P (liftM x : Inference α).result := by
    rw [result_lift_index]
    exact FailsOnly.mapError (P := fun _ => True) (fun _ _ => trivial) fun e _ => hhalted (.fault e)
  exact ⟨fun _ => hevaluation _, fun _ _ => hevaluation _, fun _ _ _ => hindex _,
    fun _ _ _ => hindex _, fun he => hrejected _ he⟩

/-- A rejection that is true of types has the property. -/
theorem reject {α : Type} (h : RuleFailures fuel P) {e : TypeError} (he : e.TrueOfTypes) :
    FailsOnly P (Inference.reject e : Inference α).result :=
  .error (h.rejected he)

/-- The test for a universe fails only with the property. -/
theorem expectUniverse (h : RuleFailures fuel P) (role : Role) (K : Term) :
    FailsOnly P (expectUniverse fuel role K).result := by
  refine .logged_bind_of_ok (h.normalize K) fun K' hK' => ?_
  rw [result_lift_evaluation, mapError_eq_ok_iff] at hK'
  split
  case h_1 => exact .pure _
  case h_2 hnone =>
    refine h.reject ⟨redexFree_of_normalize hK', ?_⟩
    rintro u rfl
    cases hnone

/-- The comparison with a constant fails only with the property. -/
theorem expectConstant (h : RuleFailures fuel P) (role : Role) (c : Constant) (K : Term) :
    FailsOnly P (expectConstant fuel role c K).result := by
  refine .logged_bind_of_ok (h.normalize K) fun K' hK' => ?_
  rw [result_lift_evaluation, mapError_eq_ok_iff] at hK'
  split
  case isTrue => exact .pure _
  case isFalse hne =>
    -- A normal form that is convertible with a constant is the constant.
    refine h.reject fun hconv => hne ?_
    exact normalize_eq_const hK' ((normalize_sound hK' []).1.conv.trans hconv.symm)

/-- The comparison of two types fails only with the property, if the rejection is true of types that
are not convertible. -/
theorem expectConvertible (h : RuleFailures fuel P) (t u : Term) {e : TypeError}
    (he : ¬ Nameless.Conv (t.resolve []) (u.resolve []) → e.TrueOfTypes) :
    FailsOnly P (expectConvertible fuel t u e).result := by
  refine .logged_bind_of_ok (h.convertible t u) fun r hr => ?_
  rw [result_lift_evaluation, mapError_eq_ok_iff] at hr
  split
  case isTrue => exact .pure _
  case isFalse hfalse => exact h.reject (he fun hconv => hfalse ((convertible_iff hr []).mpr hconv))

/-- The rule for a constant fails only with the property. -/
theorem infer_const (h : RuleFailures fuel P) (c : Constant) : FailsOnly P c.infer.result := by
  unfold Constant.infer
  split
  · split
    · exact .pure _
    · exact h.reject trivial
  all_goals exact .pure _

/-- The universe of a function type is found, or the rejection of the type has the property. -/
theorem function (h : RuleFailures fuel P) (u v : Universe) :
    FailsOnly P (match u.function v with
      | .ok w => Pure.pure (.univ w)
      | .error e => Inference.reject e : Inference Term).result := by
  unfold Universe.function
  split
  case h_1 => exact .pure _
  case h_2 e he =>
    split at he
    case h_1 => cases he
    case h_2 hnone =>
      cases he
      exact h.reject hnone

/-- A rule fails only as it must or as the inference fails that it calls. -/
theorem applyRule (h : RuleFailures fuel P) (hunbound : ∀ v, P (.rejected (.unbound v)))
    {typeOf : Context → Term → Inference Term}
    (htypeOf : ∀ Γ t, FailsOnly P (typeOf Γ t).result) (Γ : Context) (t : Term) :
    FailsOnly P (applyRule fuel typeOf Γ t).result := by
  cases t with
  | const c => exact h.infer_const c
  | var v =>
    simp only [Term.applyRule]
    split
    · exact .pure _
    · exact .error (hunbound v)
  | binder k x A b =>
    cases k with
    | lambda =>
      exact .logged_bind (htypeOf Γ A) fun _ => .logged_bind (h.normalize A) fun A' =>
        .logged_bind (h.enter Γ x A') fun Γ' => .logged_bind (htypeOf Γ' b) fun B =>
        .logged_bind (htypeOf Γ _) fun _ => .pure _
    | pi =>
      refine .logged_bind (htypeOf Γ A) fun K => .logged_bind (h.expectUniverse _ K) fun u =>
        .logged_bind (h.normalize A) fun A' => .logged_bind (h.enter Γ x A') fun Γ' =>
        .logged_bind (htypeOf Γ' b) fun K' => .logged_bind (h.expectUniverse _ K') fun u' => ?_
      exact h.function u u'
  | app f a =>
    refine .logged_bind (htypeOf Γ f) fun F => ?_
    refine .logged_bind_of_ok (h.normalize F) fun F' hF' => ?_
    rw [result_lift_evaluation, mapError_eq_ok_iff] at hF'
    split
    case h_1 x A B =>
      exact .logged_bind (htypeOf Γ a) fun A' => .logged_bind (h.expectConvertible _ _ id)
        fun _ => h.instantiate B x a
    case h_2 hpi => exact h.reject ⟨redexFree_of_normalize hF', hpi⟩
  | annot e A =>
    exact .logged_bind (htypeOf Γ A) fun _ => .logged_bind (htypeOf Γ e) fun A' =>
      .logged_bind (h.expectConvertible _ _ id) fun _ => .pure _
  | arith op l r =>
    exact .logged_bind (htypeOf Γ l) fun L => .logged_bind (h.expectConstant _ _ L) fun _ =>
      .logged_bind (htypeOf Γ r) fun R => .logged_bind (h.expectConstant _ _ R) fun _ => .pure _
  | nil A =>
    exact .logged_bind (htypeOf Γ A) fun K => .logged_bind (h.expectConstant _ _ K) fun _ =>
      .pure _
  | list e es =>
    exact .logged_bind (htypeOf Γ e) fun A => .logged_bind (htypeOf Γ A) fun K =>
      .logged_bind (h.expectConstant _ _ K) fun _ =>
      .logged_bind (.forM fun e' _ => .logged_bind (htypeOf Γ e') fun A' =>
        h.expectConvertible _ _ id) fun _ => .pure _

/-- Inference fails as the rules do, or for the depth of the term. -/
theorem infer (h : RuleFailures fuel P) (hunbound : ∀ v, P (.rejected (.unbound v))) {limit : Nat}
    (hdeep : P (.rejected (.tooDeep limit))) (depth : Nat) (Γ : Context) (t : Term) :
    FailsOnly P (infer limit fuel depth Γ t).result := by
  induction depth generalizing Γ t with
  | zero => exact .error hdeep
  | succ depth ih =>
    simp only [Term.infer, relay_eq]
    exact .logged_bind (.pure _) fun _ => h.applyRule hunbound ih Γ t

end RuleFailures

/-- The rules have no faults of another kind than those at the upper end. -/
theorem ruleFailures_atTop (fuel : Nat) : RuleFailures fuel Failure.AtTop where
  normalize t := lift_evaluation_atTop (normalize_atTop fuel t)
  convertible t u := lift_evaluation_atTop (convertible_atTop fuel t u)
  enter Γ x A := inference_lift_index_atTop (Γ.enter_atTop x A)
  instantiate b x a := inference_lift_index_atTop (instantiate_atTop b x a)
  rejected _ := trivial

/-- **Only an overflow is a fault.** Filling a binder, normalizing, relabelling, comparing, entering
a binder and checking never move an index below zero, whatever the terms, the context and the
bounds: if one of them ends with a fault, some index was the largest one and would have had to grow,
by a shift of one or under one more binder of its name. -/
theorem faults_only_at_top :
    (∀ (b : Term) (x : Label) (a : Term) (e : IndexFault),
      b.instantiate x a = .error e → e.AtTop) ∧
    (∀ (fuel : Nat) (t : Term) (e : IndexFault),
      (t.normalize fuel).result = .error (.fault e) → e.AtTop) ∧
    (∀ (t : Term) (e : IndexFault), t.anonymize = .error e → e.AtTop) ∧
    (∀ (fuel : Nat) (t u : Term) (e : IndexFault),
      (t.convertible fuel u).result = .error (.fault e) → e.AtTop) ∧
    (∀ (Γ : Context) (x : Label) (A : Term) (e : IndexFault),
      Γ.enter x A = .error e → e.AtTop) ∧
    ∀ (fuel maxDepth : Nat) (Γ : Context) (t : Term) (e : IndexFault),
      (t.check fuel maxDepth Γ).result = .error (.halted (.fault e)) → e.AtTop := by
  refine ⟨instantiate_atTop, ?_, anonymize_atTop, ?_, Context.enter_atTop, ?_⟩
  · intro fuel t e h
    exact normalize_atTop fuel t _ h
  · intro fuel t u e h
    exact convertible_atTop fuel t u _ h
  · intro fuel maxDepth Γ t e h
    rw [check_result] at h
    exact (ruleFailures_atTop fuel).infer (fun _ => trivial) trivial maxDepth Γ t _ h

theorem pred_indexBound_lt : indexBound - 1 < indexBound := by decide

/-- The variable `x` with the largest index. -/
def farthest (x : Label) : Var := ⟨x, indexBound - 1, pred_indexBound_lt⟩

/-- The fault of moving it up. -/
def farther (x : Label) : IndexFault := .outOfScope (farthest x) 1

/-- `λ(x : Natural) → v`. -/
def constant (v : Var) : Term := .lam "x" (.const .naturalType) (.var v)

/-- The largest index has to grow when a binder is filled, when a term is normalized, when it is
made anonymous, when it is compared and when it is checked. -/
theorem faults_only_at_top_farthest :
    ((constant (.nearest "y")).instantiate "y" (.var (farthest "x")) = .error (farther "x") ∧
      (farther "x").AtTop) ∧
    (((app (constant (.nearest "x")) (.var (farthest "x"))).normalize 4).result =
        .error (.fault (farther "x")) ∧ (farther "x").AtTop) ∧
    ((constant (farthest "_")).anonymize = .error (farther "_") ∧ (farther "_").AtTop) ∧
    (((constant (farthest "_")).convertible 4 (.const .naturalType)).result =
        .error (.fault (farther "_")) ∧ (farther "_").AtTop) ∧
    (Context.enter [] "x" (.var (farthest "x")) = .error (farther "x") ∧ (farther "x").AtTop) ∧
    (((constant (.nearest "x")).check 4 4 [⟨"y", .var (farthest "x")⟩]).result =
        .error (.halted (.fault (farther "x"))) ∧ (farther "x").AtTop) := by
  have hfill : (constant (.nearest "y")).instantiate "y" (.var (farthest "x")) =
      .error (farther "x") := by decide +kernel
  have hnormalize : ((app (constant (.nearest "x")) (.var (farthest "x"))).normalize 4).result =
      .error (.fault (farther "x")) := by decide +kernel
  have hrelabel : (constant (farthest "_")).anonymize = .error (farther "_") := by decide +kernel
  have hcompare : ((constant (farthest "_")).convertible 4 (.const .naturalType)).result =
      .error (.fault (farther "_")) := by decide +kernel
  have henter : Context.enter [] "x" (.var (farthest "x")) = .error (farther "x") := by
    decide +kernel
  have hcheck : ((constant (.nearest "x")).check 4 4 [⟨"y", .var (farthest "x")⟩]).result =
      .error (.halted (.fault (farther "x"))) := by decide +kernel
  obtain ⟨h₁, h₂, h₃, h₄, h₅, h₆⟩ := faults_only_at_top
  exact ⟨⟨hfill, h₁ _ _ _ _ hfill⟩, ⟨hnormalize, h₂ _ _ _ hnormalize⟩, ⟨hrelabel, h₃ _ _ hrelabel⟩,
    ⟨hcompare, h₄ _ _ _ _ hcompare⟩, ⟨henter, h₅ _ _ _ _ henter⟩, ⟨hcheck, h₆ _ _ _ _ _ hcheck⟩⟩

end Term

end Trisort
