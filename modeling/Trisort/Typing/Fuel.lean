import Trisort.Normalization.Fuel
import Trisort.Typing.Inference

/-!
# More fuel changes no type

An inference that ends without exhausting its fuel ends in the same way, with the same events, for
every larger amount (`Term.check_of_le`).
-/

namespace Trisort.Term

open Log

variable {m n : Nat}

/-- The test for a universe does not depend on the fuel, once there is enough. -/
theorem expectUniverse_approximates (h : m ≤ n) (role : Role) (kind : Term) :
    (expectUniverse m role kind).Approximates (.halted .exhausted)
      (expectUniverse n role kind) :=
  .bind (.mapFailure (normalize_approximates h kind)) fun _ => .refl _

/-- The comparison with a constant does not depend on the fuel, once there is enough. -/
theorem expectConstant_approximates (h : m ≤ n) (role : Role) (expected : Constant)
    (actual : Term) :
    (expectConstant m role expected actual).Approximates (.halted .exhausted)
      (expectConstant n role expected actual) :=
  .bind (.mapFailure (normalize_approximates h actual)) fun _ => .refl _

/-- The comparison of two types does not depend on the fuel, once there is enough. -/
theorem expectConvertible_approximates (h : m ≤ n) (t u : Term) (error : TypeError) :
    (expectConvertible m t u error).Approximates (.halted .exhausted)
      (expectConvertible n t u error) :=
  .bind (.mapFailure (convertible_approximates h t u)) fun _ => .refl _

/-- A rule does not depend on the fuel, once there is enough, if the inference it calls does not. -/
theorem applyRule_approximates (h : m ≤ n) {typeOf typeOf' : Context → Term → Inference Term}
    (htypeOf : ∀ Γ t, (typeOf Γ t).Approximates (.halted .exhausted) (typeOf' Γ t))
    (Γ : Context) (t : Term) :
    (applyRule m typeOf Γ t).Approximates (.halted .exhausted) (applyRule n typeOf' Γ t) := by
  have hnormalize (t : Term) : Logged.Approximates (.halted .exhausted)
      (liftM (t.normalize m) : Inference Term) (liftM (t.normalize n)) :=
    .mapFailure (normalize_approximates h t)
  cases t with
  | const c => exact .refl _
  | var v => exact .refl _
  | binder k x A b =>
    cases k with
    | lambda =>
      exact .bind (htypeOf Γ A) fun _ => .bind (hnormalize A) fun A' => .bind (.refl _) fun Γ' =>
        .bind (htypeOf Γ' b) fun B => .bind (htypeOf Γ _) fun _ => .refl _
    | pi =>
      exact .bind (htypeOf Γ A) fun K => .bind (expectUniverse_approximates h _ K) fun u =>
        .bind (hnormalize A) fun A' => .bind (.refl _) fun Γ' => .bind (htypeOf Γ' b) fun K' =>
        .bind (expectUniverse_approximates h _ K') fun u' => .refl _
  | app f a =>
    refine .bind (htypeOf Γ f) fun F => .bind (hnormalize F) fun F' => ?_
    split
    · exact .bind (htypeOf Γ a) fun A' => .bind (expectConvertible_approximates h _ _ _) fun _ =>
        .refl _
    · exact .refl _
  | annot e A =>
    exact .bind (htypeOf Γ A) fun _ => .bind (htypeOf Γ e) fun A' =>
      .bind (expectConvertible_approximates h _ _ _) fun _ => .refl _
  | arith op l r =>
    exact .bind (htypeOf Γ l) fun L => .bind (expectConstant_approximates h _ _ L) fun _ =>
      .bind (htypeOf Γ r) fun R => .bind (expectConstant_approximates h _ _ R) fun _ => .refl _
  | nil A =>
    exact .bind (htypeOf Γ A) fun K => .bind (expectConstant_approximates h _ _ K) fun _ =>
      .refl _
  | list e es =>
    exact .bind (htypeOf Γ e) fun A => .bind (htypeOf Γ A) fun K =>
      .bind (expectConstant_approximates h _ _ K) fun _ =>
      .bind (.forM (fun e' => .bind (htypeOf Γ e') fun A' =>
        expectConvertible_approximates h _ _ _) es) fun _ => .refl _

/-- More fuel for inference changes only the answer that there was too little. -/
theorem infer_approximates (h : m ≤ n) (limit depth : Nat) (Γ : Context) (t : Term) :
    (infer limit m depth Γ t).Approximates (.halted .exhausted) (infer limit n depth Γ t) := by
  induction depth generalizing Γ t with
  | zero => exact .refl _
  | succ depth ih =>
    simp only [infer, relay_eq]
    exact .bind (.refl _) fun _ => applyRule_approximates h ih Γ t

/-- A check that ends does not depend on how much fuel is left over. -/
theorem check_of_le (h : m ≤ n) {maxDepth : Nat} {Γ : Context} {t : Term}
    (hm : (t.check m maxDepth Γ).result ≠ .error (.halted .exhausted)) :
    t.check n maxDepth Γ = t.check m maxDepth Γ := by
  have hinfer : (t.infer maxDepth m maxDepth Γ).result ≠ .error (.halted .exhausted) := by
    intro he
    apply hm
    simp only [check, he]
  simp only [check, infer_approximates h maxDepth maxDepth Γ t hinfer]

end Trisort.Term
