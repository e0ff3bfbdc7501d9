import Trisort.Typing.Inference
import Trisort.Proofs.Conversion

/-!
# What a rule has asked for

A typing rule asks for the types of parts of a term, normalizes some of them and compares others,
and finds the type of the term once none of this has failed. `Rule` lists the answers that each rule
must have had, and `rule_of_applyRule` is the only place where the computation of a type is taken
apart. Whatever is known about accepted terms goes through it: `infer_induction` is the induction
over the levels of inference, with one case for each rule, and `rule_of_check` is the outermost
step.
-/

namespace Trisort

open Log

/-! ### Steps of an inference -/

/-- A computation on terms has the same result as a step of an inference. -/
@[simp] theorem result_lift_evaluation {α : Type} (x : Evaluation α) :
    (liftM x : Inference α).result = x.result.mapError .halted := rfl

/-- An operation on indices has the same result as a step of an inference. -/
@[simp] theorem result_lift_index {α : Type} (x : Except IndexFault α) :
    (liftM x : Inference α).result = x.mapError fun e => .halted (.fault e) := by
  cases x <;> rfl

/-- A function type is not rejected exactly if the table has a row for it. -/
theorem Universe.function_eq_ok_iff {u v w : Universe} :
    u.function v = .ok w ↔ u.function? v = some w := by
  unfold Universe.function
  split <;> simp_all

namespace Term

variable {fuel : Nat} {Γ : Context}

/-- A type is found to belong to a universe only if its own type normalizes to the universe. -/
theorem normalize_of_expectUniverse {role : Role} {K : Term} {u : Universe}
    (h : (expectUniverse fuel role K).result = .ok u) :
    (K.normalize fuel).result = .ok (.univ u) := by
  simp only [expectUniverse, Logged.bind_result_eq_ok_iff, result_lift_evaluation,
    mapError_eq_ok_iff] at h
  obtain ⟨K', hK', h⟩ := h
  split at h
  case h_1 v hv =>
    rw [Logged.result_pure, Except.ok.injEq] at h
    rw [hK', univ?_eq_some_iff.mp hv, h]
  case h_2 => cases h

/-- A type passes the comparison with a constant only if it normalizes to the constant. -/
theorem normalize_of_expectConstant {role : Role} {c : Constant} {K : Term}
    (h : (expectConstant fuel role c K).result = .ok ()) :
    (K.normalize fuel).result = .ok (.const c) := by
  simp only [expectConstant, Logged.bind_result_eq_ok_iff, result_lift_evaluation,
    mapError_eq_ok_iff] at h
  obtain ⟨K', hK', h⟩ := h
  split at h
  case isTrue heq => rw [hK', heq]
  case isFalse => cases h

/-- Two types pass the comparison only if they are found convertible. -/
theorem convertible_of_expectConvertible {t u : Term} {e : TypeError}
    (h : (expectConvertible fuel t u e).result = .ok ()) :
    (t.convertible fuel u).result = .ok true := by
  simp only [expectConvertible, Logged.bind_result_eq_ok_iff, result_lift_evaluation,
    mapError_eq_ok_iff] at h
  obtain ⟨r, hr, h⟩ := h
  split at h
  case isTrue htrue => rw [hr, htrue]
  case isFalse => cases h

/-- A loop over a list goes through only if it goes through for each element. -/
theorem forM_result_eq_ok {ω ε α : Type} {f : α → Logged ω ε PUnit} {as : List α}
    (h : (as.forM f).result = .ok ()) : ∀ a ∈ as, (f a).result = .ok () := by
  induction as with
  | nil => simp
  | cons a as ih =>
    obtain ⟨_, ha, has⟩ := Logged.bind_result_eq_ok_iff.mp h
    rintro b (_ | ⟨_, hb⟩)
    · exact ha
    · exact ih has b hb

/-! ### The answers of a rule -/

/-- The rule for the term finds the type, given how the types of other terms are found. -/
inductive Rule (fuel : Nat) (typeOf : Context → Term → Inference Term) (Γ : Context) :
    Term → Term → Prop where
  | const {c : Constant} {T : Term} (h : c.infer.result = .ok T) : Rule fuel typeOf Γ (.const c) T
  | var {v : Var} {A : Term} (h : Γ.lookup v.name v.index = some A) : Rule fuel typeOf Γ (.var v) A
  | lam {x : Label} {A K A' b B W : Term} {Γ' : Context} (hA : (typeOf Γ A).result = .ok K)
      (hA' : (A.normalize fuel).result = .ok A') (hΓ' : Γ.enter x A' = .ok Γ')
      (hb : (typeOf Γ' b).result = .ok B) (hpi : (typeOf Γ (.pi x A' B)).result = .ok W) :
      Rule fuel typeOf Γ (.lam x A b) (.pi x A' B)
  | pi {x : Label} {A K A' B K' : Term} {Γ' : Context} {u v w : Universe}
      (hA : (typeOf Γ A).result = .ok K) (hK : (K.normalize fuel).result = .ok (.univ u))
      (hA' : (A.normalize fuel).result = .ok A') (hΓ' : Γ.enter x A' = .ok Γ')
      (hB : (typeOf Γ' B).result = .ok K') (hK' : (K'.normalize fuel).result = .ok (.univ v))
      (hw : u.function? v = some w) : Rule fuel typeOf Γ (.pi x A B) (.univ w)
  | app {x : Label} {f a F A A' B T : Term} (hf : (typeOf Γ f).result = .ok F)
      (hF : (F.normalize fuel).result = .ok (.pi x A B)) (ha : (typeOf Γ a).result = .ok A')
      (hA : (A.convertible fuel A').result = .ok true) (hT : B.instantiate x a = .ok T) :
      Rule fuel typeOf Γ (.app f a) T
  | annot {e A K A' : Term} (hA : (typeOf Γ A).result = .ok K) (he : (typeOf Γ e).result = .ok A')
      (h : (A.convertible fuel A').result = .ok true) : Rule fuel typeOf Γ (.annot e A) A
  | arith (op : Operation) {l r L R : Term} (hl : (typeOf Γ l).result = .ok L)
      (hL : (L.normalize fuel).result = .ok (.const .naturalType))
      (hr : (typeOf Γ r).result = .ok R)
      (hR : (R.normalize fuel).result = .ok (.const .naturalType)) :
      Rule fuel typeOf Γ (.arith op l r) (.const .naturalType)
  | nil {A K : Term} (hA : (typeOf Γ A).result = .ok K)
      (hK : (K.normalize fuel).result = .ok (.univ .type)) : Rule fuel typeOf Γ (.nil A) (listOf A)
  | list {e A K : Term} {es : List Term} (he : (typeOf Γ e).result = .ok A)
      (hA : (typeOf Γ A).result = .ok K) (hK : (K.normalize fuel).result = .ok (.univ .type))
      (hes : ∀ e' ∈ es, ∃ A', (typeOf Γ e').result = .ok A' ∧
        (A.convertible fuel A').result = .ok true) : Rule fuel typeOf Γ (.list e es) (listOf A)

variable {typeOf : Context → Term → Inference Term}

/-- A rule that has found a type has had all its answers. -/
theorem rule_of_applyRule {t T : Term} (h : (applyRule fuel typeOf Γ t).result = .ok T) :
    Rule fuel typeOf Γ t T := by
  cases t with
  | const c => exact .const h
  | var v =>
    simp only [applyRule] at h
    split at h
    case h_1 A hlookup =>
      rw [Logged.result_pure, Except.ok.injEq] at h
      exact .var (h ▸ hlookup)
    case h_2 => cases h
  | binder k x A b =>
    cases k with
    | lambda =>
      simp only [applyRule, Logged.bind_result_eq_ok_iff, result_lift_evaluation,
        result_lift_index, mapError_eq_ok_iff, Logged.result_pure, Except.ok.injEq] at h
      obtain ⟨K, hA, A', hA', Γ', hΓ', B, hb, W, hpi, rfl⟩ := h
      exact .lam hA hA' hΓ' hb hpi
    | pi =>
      simp only [applyRule, Logged.bind_result_eq_ok_iff, result_lift_evaluation,
        result_lift_index, mapError_eq_ok_iff] at h
      obtain ⟨K, hA, u, hu, A', hA', Γ', hΓ', K', hB, v, hv, h⟩ := h
      split at h
      case h_1 w hw =>
        rw [Logged.result_pure, Except.ok.injEq] at h
        subst h
        exact .pi hA (normalize_of_expectUniverse hu) hA' hΓ' hB (normalize_of_expectUniverse hv)
          (Universe.function_eq_ok_iff.mp hw)
      case h_2 => cases h
  | app f a =>
    simp only [applyRule, Logged.bind_result_eq_ok_iff, result_lift_evaluation,
      mapError_eq_ok_iff] at h
    obtain ⟨F, hf, F', hF, h⟩ := h
    split at h
    case h_1 x A B =>
      simp only [Logged.bind_result_eq_ok_iff, result_lift_index, mapError_eq_ok_iff] at h
      obtain ⟨A', ha, _, hA, hT⟩ := h
      exact .app hf hF ha (convertible_of_expectConvertible hA) hT
    case h_2 => cases h
  | annot e A =>
    simp only [applyRule, Logged.bind_result_eq_ok_iff, Logged.result_pure, Except.ok.injEq] at h
    obtain ⟨K, hA, A', he, _, hconv, rfl⟩ := h
    exact .annot hA he (convertible_of_expectConvertible hconv)
  | arith op l r =>
    simp only [applyRule, Logged.bind_result_eq_ok_iff, Logged.result_pure, Except.ok.injEq] at h
    obtain ⟨L, hl, _, hL, R, hr, _, hR, rfl⟩ := h
    exact .arith op hl (normalize_of_expectConstant hL) hr (normalize_of_expectConstant hR)
  | nil A =>
    simp only [applyRule, Logged.bind_result_eq_ok_iff, Logged.result_pure, Except.ok.injEq] at h
    obtain ⟨K, hA, _, hK, rfl⟩ := h
    exact .nil hA (normalize_of_expectConstant hK)
  | list e es =>
    simp only [applyRule, Logged.bind_result_eq_ok_iff, Logged.result_pure, Except.ok.injEq] at h
    obtain ⟨A, he, K, hA, _, hK, _, hes, rfl⟩ := h
    refine .list he hA (normalize_of_expectConstant hK) fun e' he' => ?_
    obtain ⟨A', hA', hconv⟩ := Logged.bind_result_eq_ok_iff.mp (forM_result_eq_ok hes e' he')
    exact ⟨A', hA', convertible_of_expectConvertible hconv⟩

/-! ### Inference level by level -/

variable {limit depth : Nat} {t T : Term}

/-- A type that is found has been found by a rule, from types found one level further in. -/
theorem rule_of_infer (h : (infer limit fuel (depth + 1) Γ t).result = .ok T) :
    Rule fuel (infer limit fuel depth) Γ t T := by
  simp only [infer, relay_eq, Logged.bind_result_eq_ok_iff] at h
  obtain ⟨_, -, hrule⟩ := h
  exact rule_of_applyRule hrule

/-- A property of accepted terms and their types holds if the rules preserve it: it holds of what a
rule finds, if it holds of whatever is accepted one level further in. -/
theorem infer_induction {motive : Nat → Context → Term → Term → Prop}
    (step : ∀ {depth Γ t T},
      (∀ {Γ t T}, (infer limit fuel depth Γ t).result = .ok T → motive depth Γ t T) →
        Rule fuel (infer limit fuel depth) Γ t T → motive (depth + 1) Γ t T)
    (h : (infer limit fuel depth Γ t).result = .ok T) : motive depth Γ t T := by
  induction depth generalizing Γ t T with
  | zero => cases h
  | succ depth ih => exact step ih (rule_of_infer h)

/-- Recording the rejection of a term does not change the outcome. -/
theorem check_result (fuel maxDepth : Nat) (Γ : Context) (t : Term) :
    (t.check fuel maxDepth Γ).result = (t.infer maxDepth fuel maxDepth Γ).result := by
  simp only [check]
  split <;> rfl

/-- A term that is accepted is accepted by a rule, at the outermost level. -/
theorem rule_of_check {maxDepth : Nat} (h : (t.check fuel maxDepth Γ).result = .ok T) :
    ∃ depth, Rule fuel (infer maxDepth fuel depth) Γ t T := by
  rw [check_result] at h
  cases maxDepth with
  | zero => cases h
  | succ depth => exact ⟨depth, rule_of_infer h⟩

end Term

end Trisort
