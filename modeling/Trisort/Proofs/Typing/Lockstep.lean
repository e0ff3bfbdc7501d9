import Trisort.Proofs.Lockstep
import Trisort.Proofs.Typing.Checking

/-!
# Inference in lockstep

Let a context have all the entries of another one, perhaps in other places and with further entries
in between (`Context.Embeds`), and let two terms correspond to each other in the scopes of these
contexts. Then the two inferences run in lockstep. They find types that correspond to each other, or
reject the terms for the same kind of reason. Under binders the contexts differ more and more, since
each run shifts the entries over its own labels; what they have in common is kept by entering a
binder (`Context.enter_agree`). Each rule keeps the correspondence (`applyRule_uniform`), so the
whole inference does (`infer_uniform`). Nothing is assumed of the contexts: their entries need not
have types.
-/

namespace Trisort

open Log Logged

/-! ### Kinds of rejection -/

/-- A reason for which a term has no type, without the terms and the variable that it names. -/
inductive TypeError.Kind where
  | unbound
  | noUniverseAbove
  | mismatch (role : Role)
  | notFunction
  | notUniverse (role : Role)
  | mixedList
  | noFunctionSpace (domain codomain : Universe)
  | misannotated
  | tooDeep (limit : Nat)
deriving DecidableEq

/-- The kind of a reason. -/
def TypeError.kind : TypeError → Kind
  | unbound _ => .unbound
  | noUniverseAbove => .noUniverseAbove
  | mismatch _ _ role => .mismatch role
  | notFunction _ => .notFunction
  | notUniverse _ role => .notUniverse role
  | mixedList _ _ => .mixedList
  | noFunctionSpace domain codomain => .noFunctionSpace domain codomain
  | misannotated _ _ => .misannotated
  | tooDeep limit => .tooDeep limit

/-- Inferences are compared unless an index leaves its range. Rejections are the same if they are of
the same kind. -/
def Failure.tolerance : Tolerance Failure where
  Fault f := ∃ e, f = .halted (.fault e)
  Same
    | .rejected e, .rejected e' => e.kind = e'.kind
    | f, f' => f = f'

/-- The two inferences end alike, with values related by `R`. -/
abbrev Inference.Agree {α β : Type} (R : α → β → Prop) (x : Inference α) (y : Inference β) : Prop :=
  Logged.Agree Failure.tolerance R x y

namespace Log.Logged.Agree

variable {α β : Type} {R : α → β → Prop}

/-- Rejections for reasons of one kind end alike. -/
theorem reject {e e' : TypeError} (h : e.kind = e'.kind) :
    Inference.Agree R (Inference.reject e : Inference α) (Inference.reject e' : Inference β) :=
  .fail h

/-- Evaluations that end alike do so as parts of an inference. -/
theorem lift_evaluation {x : Evaluation α} {y : Evaluation β}
    (h : Agree Halt.tolerance R x y) :
    Inference.Agree R (liftM x : Inference α) (liftM y : Inference β) := by
  refine h.mapFailure ?_ ?_
  · rintro _ ⟨e, rfl⟩
    exact ⟨e, rfl⟩
  · rintro h _ rfl
    rfl

/-- Operations on indices end alike if their results are related. Their failures are not
compared. -/
theorem lift_index {x : Except IndexFault α} {y : Except IndexFault β}
    (h : ∀ a b, x = .ok a → y = .ok b → R a b) :
    Inference.Agree R (liftM x : Inference α) (liftM y : Inference β) :=
  lift_evaluation (agree_lift_index h)

end Log.Logged.Agree

open Inference (Agree)

/-! ### Contexts -/

namespace Context

variable {m : Marking} {ξ : Nat → Nat} {Γ Δ : Context}

/-- The entries of `Γ` are found in `Δ` at the places to which `ξ` takes them. -/
abbrev Embeds (m : Marking) (ξ : Nat → Nat) (Γ Δ : Context) : Prop :=
  Nameless.Assumptions.Renames ξ (Γ.forms m) (Δ.forms m)

/-- Variables that correspond to each other are both unbound, or have types that correspond to each
other. -/
theorem lookup_corresponds (hΓ : Embeds m ξ Γ Δ) {v w : Var}
    (h : Δ.scope.locate w.name w.index = (Γ.scope.locate v.name v.index).rename ξ) :
    (Γ.lookup v.name v.index = none ∧ Δ.lookup w.name w.index = none) ∨
      ∃ A B, Γ.lookup v.name v.index = some A ∧ Δ.lookup w.name w.index = some B ∧
        Term.Corresponds m ξ Γ.scope Δ.scope A B := by
  rcases Γ.lookup_locate v.name v.index with ⟨k, b, hk, hb, hv⟩ | ⟨y, j, hfree, hv⟩
  · rcases Δ.lookup_locate w.name w.index with ⟨k', b', hk', hb', hw⟩ | ⟨y, j, hfree, hw⟩
    · right
      refine ⟨b.type, b'.type, hv, hw, ?_⟩
      rw [hk, hk'] at h
      obtain rfl := Nameless.bound.inj h
      have htype := hΓ k (b.type.form m Γ.scope) (by simp [forms, hb])
      simpa [Term.Corresponds, forms, hb'] using htype
    · rw [hk, hfree] at h
      cases h
  · rcases Δ.lookup_locate w.name w.index with ⟨k', b', hk', hb', hw⟩ | ⟨y', j', -, hw⟩
    · rw [hfree, hk'] at h
      cases h
    · exact .inl ⟨hv, hw⟩

/-- Contexts under binders of which the types correspond to each other. -/
theorem enter_agree (hΓ : Embeds m ξ Γ Δ) {x y : Label} {A B : Term}
    (hA : Term.Corresponds m ξ Γ.scope Δ.scope A B) :
    Agree (fun Γ' Δ' : Context => Embeds m (Nameless.liftRenaming ξ) Γ' Δ' ∧
        Γ'.scope = x :: Γ.scope ∧ Δ'.scope = y :: Δ.scope)
      (liftM (Γ.enter x A) : Inference Context) (liftM (Δ.enter y B) : Inference Context) := by
  refine .lift_index fun Γ' Δ' hΓ' hΔ' => ⟨?_, scope_enter hΓ', scope_enter hΔ'⟩
  rw [Embeds, forms_enter m hΓ', forms_enter m hΔ', hA]
  exact hΓ.enter _

end Context

/-! ### The rules -/

namespace Term

open Nameless (liftRenaming liftRenaming_injective)

section

variable {m : Marking} {ξ : Nat → Nat} {Γ Δ : Scope} {fuel : Nat}

/-- Within an inference, terms that correspond to each other have normal forms that do. -/
theorem lift_normalize_agree {t u : Term} (h : Corresponds m ξ Γ Δ t u) :
    Agree (Corresponds m ξ Γ Δ)
      (liftM (t.normalize fuel) : Inference Term) (liftM (u.normalize fuel) : Inference Term) :=
  .lift_evaluation (normalize_agree h)

/-- Of two terms that correspond to each other, both are the same universe or neither is one. -/
theorem Corresponds.univ?_eq {t u : Term} (h : Corresponds m ξ Γ Δ t u) : t.univ? = u.univ? := by
  refine Option.ext fun w => ?_
  rw [univ?_eq_some_iff, univ?_eq_some_iff]
  exact h.const_iff

/-- Types that correspond to each other are found to be the same universe, or rejected alike. -/
theorem expectUniverse_agree {role : Role} {t u : Term} (h : Corresponds m ξ Γ Δ t u) :
    Agree Eq (expectUniverse fuel role t) (expectUniverse fuel role u) := by
  refine .bind (lift_normalize_agree h) fun t u h => ?_
  rw [h.univ?_eq]
  cases u.univ? with
  | none => exact .reject rfl
  | some w => exact .pure rfl

/-- Types that correspond to each other pass for the expected constant or are rejected alike. -/
theorem expectConstant_agree {role : Role} {c : Constant} {t u : Term}
    (h : Corresponds m ξ Γ Δ t u) :
    Agree Eq (expectConstant fuel role c t) (expectConstant fuel role c u) := by
  refine .bind (lift_normalize_agree h) fun t u h => ?_
  by_cases ht : t = .const c
  · rw [if_pos ht, if_pos (h.const_iff.mp ht)]
    exact .pure rfl
  · rw [if_neg ht, if_neg fun hu => ht (h.const_iff.mpr hu)]
    exact .reject rfl

/-- Pairs of types that correspond to each other pass the comparison or are rejected alike. -/
theorem expectConvertible_agree (hξ : Function.Injective ξ) {t t' u u' : Term} {e e' : TypeError}
    (ht : Corresponds m ξ Γ Δ t t') (hu : Corresponds m ξ Γ Δ u u') (he : e.kind = e'.kind) :
    Agree Eq (expectConvertible fuel t u e) (expectConvertible fuel t' u' e') := by
  refine .bind (.lift_evaluation (convertible_agree hξ ht hu)) ?_
  rintro r _ rfl
  cases r with
  | true => exact .pure rfl
  | false => exact .reject he

end

variable {m : Marking} {ξ : Nat → Nat} {Γ Δ : Context} {fuel : Nat}
  {typeOf : Context → Term → Inference Term}

/-- The two inferences end with types that correspond to each other, `x` in the context `Γ` and `y`
in the context `Δ`. -/
abbrev SameType (m : Marking) (ξ : Nat → Nat) (Γ Δ : Context) (x y : Inference Term) : Prop :=
  Agree (Corresponds m ξ Γ.scope Δ.scope) x y

/-- The inference does not depend on where the variables are: if the entries of a context are found
in another one, terms that correspond to each other have types that do. -/
def Uniform (m : Marking) (typeOf : Context → Term → Inference Term) : Prop :=
  ∀ {ξ : Nat → Nat} {Γ Δ : Context} {t u : Term}, Function.Injective ξ → Γ.Embeds m ξ Δ →
    Corresponds m ξ Γ.scope Δ.scope t u → SameType m ξ Γ Δ (typeOf Γ t) (typeOf Δ u)

/-- The type of a constant does not depend on the context. -/
theorem infer_const_agree (c : Constant) : SameType m ξ Γ Δ c.infer c.infer := by
  cases c with
  | univ u =>
    cases u with
    | sort => exact .reject rfl
    | _ => exact .pure rfl
  | listType =>
    have huniv {ξ : Nat → Nat} {Γ Δ : Scope} :
        Corresponds m ξ Γ Δ (.univ .type) (.univ .type) := rfl
    exact .pure (Alike.binder (m.admits_refl _) huniv huniv).corresponds
  | _ => exact .pure rfl

/-- The rule for functions keeps the correspondence. -/
theorem applyRule_lam_uniform (huniform : Uniform m typeOf) (hξ : Function.Injective ξ)
    (hΓ : Γ.Embeds m ξ Δ) {x y : Label} {A A' b b' : Term} (hxy : m.Admits x y)
    (hA : Corresponds m ξ Γ.scope Δ.scope A A')
    (hb : Corresponds m (liftRenaming ξ) (x :: Γ.scope) (y :: Δ.scope) b b') :
    SameType m ξ Γ Δ (applyRule fuel typeOf Γ (.lam x A b))
      (applyRule fuel typeOf Δ (.lam y A' b')) := by
  refine .bind (huniform hξ hΓ hA) fun _ _ _ => .bind (lift_normalize_agree hA) fun A A' hA => ?_
  refine .bind (Context.enter_agree hΓ hA) ?_
  rintro Γ' Δ' ⟨hΓ', hscope, hscope'⟩
  rw [← hscope, ← hscope'] at hb
  refine .bind (huniform (liftRenaming_injective hξ) hΓ' hb) fun B B' hB => ?_
  rw [hscope, hscope'] at hB
  -- The function type that was found is looked at once more, in the outer contexts.
  have hpi : Corresponds m ξ Γ.scope Δ.scope (.pi x A B) (.pi y A' B') :=
    (Alike.binder hxy hA hB).corresponds
  exact .bind (huniform hξ hΓ hpi) fun _ _ _ => .pure hpi

/-- The rule for function types keeps the correspondence. -/
theorem applyRule_pi_uniform (huniform : Uniform m typeOf) (hξ : Function.Injective ξ)
    (hΓ : Γ.Embeds m ξ Δ) {x y : Label} {A A' B B' : Term}
    (hA : Corresponds m ξ Γ.scope Δ.scope A A')
    (hB : Corresponds m (liftRenaming ξ) (x :: Γ.scope) (y :: Δ.scope) B B') :
    SameType m ξ Γ Δ (applyRule fuel typeOf Γ (.pi x A B))
      (applyRule fuel typeOf Δ (.pi y A' B')) := by
  refine .bind (huniform hξ hΓ hA) fun K K' hK => .bind (expectUniverse_agree hK) ?_
  rintro u _ rfl
  refine .bind (lift_normalize_agree hA) fun A A' hA => .bind (Context.enter_agree hΓ hA) ?_
  rintro Γ' Δ' ⟨hΓ', hscope, hscope'⟩
  rw [← hscope, ← hscope'] at hB
  refine .bind (huniform (liftRenaming_injective hξ) hΓ' hB) fun K K' hK => ?_
  refine .bind (expectUniverse_agree hK) ?_
  rintro u' _ rfl
  rcases u.function u' with e | w
  · exact .reject rfl
  · exact .pure rfl

/-- The rule for applications keeps the correspondence. -/
theorem applyRule_app_uniform (huniform : Uniform m typeOf) (hξ : Function.Injective ξ)
    (hΓ : Γ.Embeds m ξ Δ) {f f' a a' : Term} (hf : Corresponds m ξ Γ.scope Δ.scope f f')
    (ha : Corresponds m ξ Γ.scope Δ.scope a a') :
    SameType m ξ Γ Δ (applyRule fuel typeOf Γ (.app f a))
      (applyRule fuel typeOf Δ (.app f' a')) := by
  refine .bind (huniform hξ hΓ hf) fun F F' hF => .bind (lift_normalize_agree hF) fun F F' hF => ?_
  cases hF.alike with
  | @binder k x y A A' B B' _ hA hB =>
    cases k with
    | lambda => exact .reject rfl
    | pi =>
      refine .bind (huniform hξ hΓ ha) fun C C' hC => ?_
      refine .bind (expectConvertible_agree hξ hA hC rfl) fun _ _ _ => .lift_index ?_
      intro T T' hT hT'
      exact hB.instantiate ha hT hT'
  | _ => exact .reject rfl

/-- The list types of types that correspond to each other do so. -/
theorem corresponds_listOf {A A' : Term} (hA : Corresponds m ξ Γ.scope Δ.scope A A') :
    Corresponds m ξ Γ.scope Δ.scope (listOf A) (listOf A') :=
  (Alike.app (Alike.const _).corresponds hA).corresponds

/-- The rule for list literals keeps the correspondence. -/
theorem applyRule_list_uniform (huniform : Uniform m typeOf) (hξ : Function.Injective ξ)
    (hΓ : Γ.Embeds m ξ Δ) {e e' : Term} {es es' : List Term}
    (he : Corresponds m ξ Γ.scope Δ.scope e e')
    (hes : List.Forall₂ (Corresponds m ξ Γ.scope Δ.scope) es es') :
    SameType m ξ Γ Δ (applyRule fuel typeOf Γ (.list e es))
      (applyRule fuel typeOf Δ (.list e' es')) := by
  refine .bind (huniform hξ hΓ he) fun A A' hA => .bind (huniform hξ hΓ hA) fun K K' hK => ?_
  refine .bind (expectConstant_agree hK) fun _ _ _ => ?_
  refine .bind (.forM hes fun d d' hd => ?_) fun _ _ _ => .pure (corresponds_listOf hA)
  exact .bind (huniform hξ hΓ hd) fun B B' hB => expectConvertible_agree hξ hA hB rfl

/-- The rules are uniform if the inference that they call is. -/
theorem applyRule_uniform (huniform : Uniform m typeOf) : Uniform m (applyRule fuel typeOf) := by
  intro ξ Γ Δ t u hξ hΓ h
  cases h.alike with
  | const c => exact infer_const_agree c
  | @var v w h =>
    simp only [applyRule]
    rcases Context.lookup_corresponds hΓ h with ⟨hv, hw⟩ | ⟨A, B, hv, hw, hAB⟩
    · rw [hv, hw]
      exact .reject rfl
    · rw [hv, hw]
      exact .pure hAB
  | @binder k _ _ _ _ _ _ hxy hA hb =>
    cases k with
    | lambda => exact applyRule_lam_uniform huniform hξ hΓ hxy hA hb
    | pi => exact applyRule_pi_uniform huniform hξ hΓ hA hb
  | app hf ha => exact applyRule_app_uniform huniform hξ hΓ hf ha
  | annot he hA =>
    refine .bind (huniform hξ hΓ hA) fun _ _ _ => .bind (huniform hξ hΓ he) fun B B' hB => ?_
    exact .bind (expectConvertible_agree hξ hA hB rfl) fun _ _ _ => .pure hA
  | arith hl hr =>
    refine .bind (huniform hξ hΓ hl) fun L L' hL => .bind (expectConstant_agree hL) fun _ _ _ => ?_
    refine .bind (huniform hξ hΓ hr) fun R R' hR => .bind (expectConstant_agree hR) fun _ _ _ => ?_
    exact .pure rfl
  | nil hA =>
    refine .bind (huniform hξ hΓ hA) fun K K' hK => .bind (expectConstant_agree hK) fun _ _ _ => ?_
    exact .pure (corresponds_listOf hA)
  | list he hes => exact applyRule_list_uniform huniform hξ hΓ he hes

/-- The inference is uniform. -/
theorem infer_uniform (m : Marking) (limit fuel depth : Nat) :
    Uniform m (infer limit fuel depth) := by
  induction depth with
  | zero =>
    intro ξ Γ Δ t u _ _ _
    exact .reject rfl
  | succ depth ih =>
    intro ξ Γ Δ t u hξ hΓ h
    simp only [infer, relay_eq]
    exact .bind (.record _ _) fun _ _ _ => applyRule_uniform ih hξ hΓ h

/-- The checker does not depend on where the variables are. -/
theorem check_uniform (m : Marking) (fuel maxDepth : Nat) : Uniform m (check fuel maxDepth) := by
  intro ξ Γ Δ t u hξ hΓ h
  have hinfer := infer_uniform m maxDepth fuel maxDepth hξ hΓ h
  exact hinfer.of_result_eq (check_result fuel maxDepth Γ t) (check_result fuel maxDepth Δ u)

/-! ### Verdicts -/

/-- An index left its range. -/
def Faults (x : Inference Term) : Prop := ∃ e, x.result = .error (.halted (.fault e))

/-- Whether an inference faults can be read off from its result. -/
instance (x : Inference Term) : Decidable (Faults x) :=
  match h : x.result with
  | .error (.halted (.fault e)) => .isTrue ⟨e, h⟩
  | .error (.halted .exhausted) => .isFalse fun ⟨_, h'⟩ => nomatch h.symm.trans h'
  | .error (.rejected _) => .isFalse fun ⟨_, h'⟩ => nomatch h.symm.trans h'
  | .ok _ => .isFalse fun ⟨_, h'⟩ => nomatch h.symm.trans h'

/-- If the first inference finds a type, so does the second, unless it faults. -/
theorem exists_ok_of_agree {R : Term → Term → Prop} {x y : Inference Term} {T : Term}
    (h : Agree R x y) (hx : x.result = .ok T) (hy : ¬ Faults y) :
    ∃ U, y.result = .ok U ∧ R T U := by
  rcases h with ⟨hxr, hyr, h⟩ | ⟨hxr, -, -⟩ | ⟨hxr, -⟩ | ⟨hyr, h⟩
  · obtain rfl := Except.ok.inj (hx.symm.trans hxr)
    exact ⟨_, hyr, h⟩
  · cases hx.symm.trans hxr
  · cases hx.symm.trans hxr
  · obtain ⟨e, rfl⟩ := h
    exact absurd ⟨e, hyr⟩ hy

/-- If the first inference rejects, so does the second for the same kind of reason, unless it
faults. -/
theorem exists_rejected_of_agree {R : Term → Term → Prop} {x y : Inference Term} {e : TypeError}
    (h : Agree R x y) (hx : x.result = .error (.rejected e)) (hy : ¬ Faults y) :
    ∃ e', y.result = .error (.rejected e') ∧ e'.kind = e.kind := by
  rcases h with ⟨hxr, -, -⟩ | @⟨f, f', hxr, hyr, h⟩ | ⟨hxr, h⟩ | ⟨hyr, h⟩
  · cases hx.symm.trans hxr
  · obtain rfl := Except.error.inj (hx.symm.trans hxr)
    rcases f' with e' | e'
    · exact ⟨e', hyr, Eq.symm h⟩
    · cases h
  · obtain ⟨e', rfl⟩ := h
    cases hx.symm.trans hxr
  · obtain ⟨e', rfl⟩ := h
    exact absurd ⟨e', hyr⟩ hy

end Term

end Trisort
