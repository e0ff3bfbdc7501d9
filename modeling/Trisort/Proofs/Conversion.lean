import Trisort.Normalization
import Trisort.Proofs.AlphaEquivalence
import Trisort.Proofs.Reduction

/-!
# Comparing terms decides convertibility

A normal form that `Term.normalize` finds is a reduct of the term in which no step can be made
(`normalize_sound`). By confluence a term has no other normal reduct, so two terms are convertible
exactly if their normal forms stand for the same nameless term, which is what comparing anonymous
forms finds out.

All statements are about terms in a scope. Which one does not matter to the computation, and the
rules of typing need them in the scope of a context.
-/

namespace Trisort

open Log

namespace Log.Logged

variable {ω ε α β : Type}

/-- A sequence ends with a value exactly if its first part does and the second does on the value of
the first. -/
theorem bind_result_eq_ok_iff {x : Logged ω ε α} {f : α → Logged ω ε β} {b : β} :
    (x >>= f).result = .ok b ↔ ∃ a, x.result = .ok a ∧ (f a).result = .ok b := by
  rw [result_bind, bind_eq_ok_iff]

/-- A property of single outcomes holds of all outcomes of a map over a list. -/
theorem forall₂_of_mapList {f : α → Logged ω ε β} {P : α → β → Prop} {as : List α}
    {bs : List β} (h : (mapList f as).result = .ok bs)
    (hP : ∀ a ∈ as, ∀ b, (f a).result = .ok b → P a b) : List.Forall₂ P as bs := by
  induction as generalizing bs with
  | nil =>
    rw [mapList, result_value, Except.ok.injEq] at h
    rw [← h]
    exact .nil
  | cons a as ih =>
    simp only [mapList, bind_result_eq_ok_iff, result_pure, Except.ok.injEq] at h
    obtain ⟨b, hb, bs, hbs, rfl⟩ := h
    exact .cons (hP a (by simp) b hb) (ih hbs fun a₁ h₁ => hP a₁ (by simp [h₁]))

end Log.Logged

/-- An operation on indices succeeds as a step of a computation exactly if it succeeds. -/
@[simp] theorem liftM_result_eq_ok_iff {α : Type} {x : Except IndexFault α} {a : α} :
    (liftM x : Evaluation α).result = .ok a ↔ x = .ok a :=
  mapError_eq_ok_iff

namespace Term

/-! ### Reading off the form of a term -/

/-- Only a constant has a constant for its nameless form. -/
theorem eq_const_of_resolve {Γ : Scope} {t : Term} {c : Constant}
    (h : t.resolve Γ = .const c) : t = .const c := by
  cases t with
  | const c' => exact congrArg _ (Nameless.const.inj h)
  | var v => exact absurd h (Scope.locate_ne (by simp) (by simp))
  | _ => cases h

/-- Only a binder has a binder for its nameless form, and its parts have the parts of that form. -/
theorem eq_binder_of_resolve {Γ : Scope} {t : Term} {k : Binder} {A b : Nameless}
    (h : t.resolve Γ = .binder k A b) :
    ∃ x A' b', t = .binder k x A' b' ∧ A'.resolve Γ = A ∧ b'.resolve (x :: Γ) = b := by
  cases t with
  | binder k' x A' b' =>
    obtain ⟨rfl, hA, hb⟩ := Nameless.binder.inj h
    exact ⟨x, A', b', rfl, hA, hb⟩
  | var v => exact absurd h (Scope.locate_ne (by simp) (by simp))
  | _ => cases h

end Term

/-! ### Normal forms of compound terms -/

namespace Nameless.Normal

/-- A constant makes no step. -/
theorem const (c : Constant) : (const c).Normal := by
  intro u h
  cases h

/-- A bound variable makes no step. -/
theorem bound (k : Nat) : (bound k).Normal := by
  intro u h
  cases h

/-- A free variable makes no step. -/
theorem free (x : Label) (i : Nat) : (free x i).Normal := by
  intro u h
  cases h

/-- A binder makes no step if its parts do not. -/
theorem binder {k : Binder} {A b : Nameless} (hA : A.Normal) (hb : b.Normal) :
    (Nameless.binder k A b).Normal := by
  intro u h
  cases h with
  | binderType _ _ h => exact hA _ h
  | binderBody _ _ h => exact hb _ h

/-- An application makes no step if its parts do not and the function is no abstraction. -/
theorem app {f a : Nameless} (hf : f.Normal) (ha : a.Normal) (hlam : ∀ A b, f ≠ .lam A b) :
    (Nameless.app f a).Normal := by
  intro u h
  cases h with
  | beta A b _ => exact hlam A b rfl
  | appFunction _ h => exact hf _ h
  | appArgument _ h => exact ha _ h

/-- An operation makes no step if its operands do not and are no two literals with a result. -/
theorem arith {op : Operation} {l r : Nameless} (hl : l.Normal) (hr : r.Normal)
    (hstuck : ∀ m n, l = .natural m → r = .natural n → op.eval? m n = none) :
    (Nameless.arith op l r).Normal := by
  intro u h
  cases h with
  | compute h =>
    rw [hstuck _ _ rfl rfl] at h
    cases h
  | arithLeft _ _ h => exact hl _ h
  | arithRight _ _ h => exact hr _ h

/-- An empty list makes no step if its element type does not. -/
theorem nil {A : Nameless} (hA : A.Normal) : (Nameless.nil A).Normal := by
  intro u h
  cases h with
  | nilType h => exact hA _ h

/-- A list literal makes no step if its elements do not. -/
theorem list {e : Nameless} {es : List Nameless} (he : e.Normal) (hes : ∀ e' ∈ es, e'.Normal) :
    (Nameless.list e es).Normal := by
  intro u h
  cases h with
  | listHead _ h => exact he _ h
  | listTail _ before after h => exact hes _ (by simp) _ h

end Nameless.Normal

/-! ### Normalization -/

namespace Term

open Nameless

/-- Arithmetic on normal operands makes at most one step, and none is left. -/
theorem reduceArith_sound {op : Operation} {l r u : Term}
    (h : (reduceArith op l r).result = .ok u) {Γ : Scope} (hl : (l.resolve Γ).Normal)
    (hr : (r.resolve Γ).Normal) :
    Reduces (.arith op (l.resolve Γ) (r.resolve Γ)) (u.resolve Γ) ∧ (u.resolve Γ).Normal := by
  unfold reduceArith at h
  split at h
  case h_1 m n =>
    split at h
    case h_1 k hk =>
      rw [Logged.result_pure, Except.ok.injEq] at h
      subst h
      exact ⟨.single (.compute hk), .const _⟩
    case h_2 hnone =>
      simp only [Logged.bind_result_eq_ok_iff, Logged.result_pure, Except.ok.injEq] at h
      obtain ⟨-, -, rfl⟩ := h
      refine ⟨.refl, hl.arith hr ?_⟩
      intro m' n' hm hn
      obtain rfl := Constant.natural.inj (Nameless.const.inj hm)
      obtain rfl := Constant.natural.inj (Nameless.const.inj hn)
      exact hnone
  case h_2 hlit =>
    rw [Logged.result_pure, Except.ok.injEq] at h
    subst h
    refine ⟨.refl, hl.arith hr ?_⟩
    intro m n hm hn
    exact absurd (eq_const_of_resolve hn) (hlit m n (eq_const_of_resolve hm))

/-- A normal form is a reduct in which no step can be made. -/
theorem normalize_sound {fuel : Nat} {t u : Term} (h : (t.normalize fuel).result = .ok u)
    (Γ : Scope) : Reduces (t.resolve Γ) (u.resolve Γ) ∧ (u.resolve Γ).Normal := by
  induction fuel generalizing t u Γ with
  | zero => cases h
  | succ fuel ih =>
    cases t with
    | const c =>
      rw [normalize, Logged.result_pure, Except.ok.injEq] at h
      subst h
      exact ⟨.refl, .const c⟩
    | var v =>
      rw [normalize, Logged.result_pure, Except.ok.injEq] at h
      subst h
      refine ⟨.refl, ?_⟩
      rcases Γ.locate_eq_bound_or_free v.name v.index with ⟨k, hk⟩ | ⟨x, i, hi⟩
      · rw [resolve, hk]
        exact .bound k
      · rw [resolve, hi]
        exact .free x i
    | binder k x A b =>
      simp only [normalize, relay_eq, Logged.bind_result_eq_ok_iff, Logged.result_pure,
        Except.ok.injEq] at h
      obtain ⟨A', hA, b', hb, rfl⟩ := h
      obtain ⟨hA, hA'⟩ := ih hA Γ
      obtain ⟨hb, hb'⟩ := ih hb (x :: Γ)
      exact ⟨.binder k hA hb, hA'.binder hb'⟩
    | app f a =>
      simp only [normalize, relay_eq, Logged.bind_result_eq_ok_iff] at h
      obtain ⟨f', hf, a', ha, h⟩ := h
      obtain ⟨hf, hf'⟩ := ih hf Γ
      obtain ⟨ha, ha'⟩ := ih ha Γ
      have happ : Reduces (.app (f.resolve Γ) (a.resolve Γ))
          (.app (f'.resolve Γ) (a'.resolve Γ)) := .app hf ha
      split at h
      case h_1 x A b =>
        simp only [Logged.bind_result_eq_ok_iff, liftM_result_eq_ok_iff] at h
        obtain ⟨-, -, c, hc, h⟩ := h
        obtain ⟨hred, hnormal⟩ := ih h Γ
        rw [resolve_instantiate hc] at hred
        exact ⟨(happ.tail (.beta _ _ _)).trans hred, hnormal⟩
      case h_2 hlam =>
        rw [Logged.result_pure, Except.ok.injEq] at h
        subst h
        refine ⟨happ, hf'.app ha' ?_⟩
        intro A b heq
        obtain ⟨x, A', b', rfl, -, -⟩ := eq_binder_of_resolve heq
        exact hlam x A' b' rfl
    | annot e A =>
      rw [normalize, relay_eq] at h
      obtain ⟨he, he'⟩ := ih h Γ
      exact ⟨.head (.erase _ _) he, he'⟩
    | arith op l r =>
      simp only [normalize, relay_eq, Logged.bind_result_eq_ok_iff] at h
      obtain ⟨l', hl, r', hr, h⟩ := h
      obtain ⟨hl, hl'⟩ := ih hl Γ
      obtain ⟨hr, hr'⟩ := ih hr Γ
      obtain ⟨hred, hnormal⟩ := reduceArith_sound h hl' hr'
      exact ⟨(Reduces.arith op hl hr).trans hred, hnormal⟩
    | nil A =>
      simp only [normalize, relay_eq, Logged.bind_result_eq_ok_iff, Logged.result_pure,
        Except.ok.injEq] at h
      obtain ⟨A', hA, rfl⟩ := h
      obtain ⟨hA, hA'⟩ := ih hA Γ
      exact ⟨.nil hA, hA'.nil⟩
    | list e es =>
      simp only [normalize, relay_eq, Logged.bind_result_eq_ok_iff, Logged.result_pure,
        Except.ok.injEq] at h
      obtain ⟨e', he, es', hes, rfl⟩ := h
      obtain ⟨he, he'⟩ := ih he Γ
      have hall := Logged.forall₂_of_mapList hes fun e _ e' h => ih h Γ
      simp only [resolve, resolveAll_eq_map]
      refine ⟨.list he ?_, he'.list ?_⟩
      · rw [List.forall₂_map_left_iff, List.forall₂_map_right_iff]
        exact hall.imp fun _ _ h => h.1
      · intro w hw
        obtain ⟨e', he', rfl⟩ := List.mem_map.mp hw
        exact forall_mem_of_forall₂ hall (fun _ _ h => h.2) e' he'

/-! ### Comparison -/

/-- The form by which a term is compared stands for a normal reduct of it. -/
theorem canonical_sound {fuel : Nat} {t u : Term} (h : (t.canonical fuel).result = .ok u)
    (Γ : Scope) : Reduces (t.resolve Γ) (u.resolve Γ) ∧ (u.resolve Γ).Normal ∧ u.Anonymous := by
  simp only [canonical, Logged.bind_result_eq_ok_iff, liftM_result_eq_ok_iff] at h
  obtain ⟨v, hv, hu⟩ := h
  obtain ⟨hred, hnormal⟩ := normalize_sound hv Γ
  rw [resolve_anonymize hu]
  exact ⟨hred, hnormal, anonymous_anonymize hu⟩

/-- An answer to the comparison of two terms says whether they are convertible. -/
theorem convertible_iff {fuel : Nat} {t u : Term} {r : Bool}
    (h : (t.convertible fuel u).result = .ok r) (Γ : Scope) :
    r = true ↔ Conv (t.resolve Γ) (u.resolve Γ) := by
  simp only [convertible, Logged.bind_result_eq_ok_iff, Logged.result_pure, Except.ok.injEq] at h
  obtain ⟨t', ht, u', hu, rfl⟩ := h
  obtain ⟨ht, htnormal, htlabels⟩ := canonical_sound ht Γ
  obtain ⟨hu, hunormal, hulabels⟩ := canonical_sound hu Γ
  rw [same_iff]
  constructor
  · rintro rfl
    exact conv_iff_join.mpr ⟨_, ht, hu⟩
  · intro hconv
    have hforms : Conv (t'.resolve Γ) (u'.resolve Γ) :=
      (ht.conv.symm).trans (hconv.trans hu.conv)
    exact eq_of_resolve_eq htlabels hulabels (hforms.eq_of_normal htnormal hunormal)

/-- Comparing terms decides convertibility. Whenever the comparison of two terms ends, with whatever
fuel, it answers `true` if and only if their nameless forms are convertible. -/
theorem convertible_decides_conv (fuel : Nat) (a b : Term) (r : Bool)
    (h : (a.convertible fuel b).result = .ok r) :
    r = true ↔ Conv (a.resolve []) (b.resolve []) :=
  convertible_iff h []

/-- `(λ(x : Natural) → λ(y : Natural) → x) (y : Natural)`, whose contraction must not capture
`y`. -/
def capturing : Term :=
  .app (.lam "x" (.const .naturalType) (.lam "y" (.const .naturalType) (.nearby "x" 0)))
    (.annot (.nearby "y" 0) (.const .naturalType))

/-- `λ(z : Natural) → y`. -/
def constantly : Term := .lam "z" (.const .naturalType) (.nearby "y" 0)

/-- `λ(y : Natural) → y`, the outcome of a capture. -/
def captured : Term := .lam "y" (.const .naturalType) (.nearby "y" 0)

/-- Terms that differ in labels only are found convertible, and the outcome of a capture is not. -/
theorem convertible_decides_conv_capturing :
    (capturing.convertible 8 constantly).result = .ok true ∧
      (capturing.convertible 8 captured).result = .ok false ∧
      Conv (capturing.resolve []) (constantly.resolve []) ∧
      ¬ Conv (capturing.resolve []) (captured.resolve []) := by
  have hyes : (capturing.convertible 8 constantly).result = .ok true := by decide +kernel
  have hno : (capturing.convertible 8 captured).result = .ok false := by decide +kernel
  refine ⟨hyes, hno, (convertible_decides_conv 8 _ _ true hyes).mp rfl, ?_⟩
  intro h
  exact absurd ((convertible_decides_conv 8 _ _ false hno).mpr h) (by decide)

end Term

end Trisort
