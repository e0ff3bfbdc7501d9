import Trisort.Normalization.Fuel
import Trisort.Proofs.Faults
import Trisort.Proofs.Termination.Soundness

/-!
# Normalization of accepted terms ends

To normalize a term is to normalize its parts and, if these make a redex, what the redex contracts
to, which is a reduct of the term. No sequence of these two moves goes on forever from a terminating
term (`Terminating.acc_smaller`), so some amount of fuel suffices (`Term.converges_normalize`).

The terms that are accepted in a context have a type there, and typed terms terminate if some terms
realize values of the variables. In a context that is entered binder by binder, such terms are found
one after the other (`Context.Accepted.models`). So `Term.check_normalizes`: the normalization of an
accepted term ends with a normal form, unless an index overflows on the way.
-/

namespace Trisort

open Log

/-! ### Computations that need only so much fuel -/

namespace Log.Logged

variable {ω ε α β : Type} {e : ε}

/-- From some amount of fuel on the computation is always the same, and it does not fail with
`e`. -/
def Converges (e : ε) (F : Nat → Logged ω ε α) : Prop :=
  ∃ x : Logged ω ε α, x.result ≠ .error e ∧ ∃ n, ∀ m, n ≤ m → F m = x

/-- A computation that does not depend on the fuel converges, unless it fails with `e`. -/
theorem Converges.of_ne {x : Logged ω ε α} (h : x.result ≠ .error e) : Converges e fun _ => x :=
  ⟨x, h, 0, fun _ _ => rfl⟩

/-- A computation that only returns a value converges. -/
theorem Converges.pure (e : ε) (a : α) : Converges e fun _ => (Pure.pure a : Logged ω ε α) :=
  .of_ne (by simp)

/-- It is enough to converge once one unit of fuel has been spent. -/
theorem Converges.of_succ {F : Nat → Logged ω ε α} (h : Converges e fun n => F (n + 1)) :
    Converges e F := by
  obtain ⟨x, hx, n, hn⟩ := h
  refine ⟨x, hx, n + 1, fun m hm => ?_⟩
  obtain ⟨m, rfl⟩ : ∃ k, m = k + 1 := ⟨m - 1, by omega⟩
  exact hn m (Nat.le_of_succ_le_succ hm)

/-- What a computation goes on with matters only at the value it ends with. -/
theorem bind_congr_of_ok {x : Logged ω ε α} {f g : α → Logged ω ε β}
    (h : ∀ a, x.result = .ok a → f a = g a) : x >>= f = x >>= g := by
  rcases x with ⟨j, e | a⟩
  · rfl
  · change andThen ⟨j, .ok a⟩ f = andThen ⟨j, .ok a⟩ g
    simp only [andThen, h a rfl]

/-- A sequence converges if its parts do. -/
theorem Converges.bind {F : Nat → Logged ω ε α} {G : Nat → α → Logged ω ε β}
    (hF : Converges e F) (hG : ∀ n a, (F n).result = .ok a → Converges e fun m => G m a) :
    Converges e fun n => F n >>= G n := by
  obtain ⟨x, hx, n, hn⟩ := hF
  cases hresult : x.result with
  | error e' =>
    -- The computation has failed already, and not with `e`.
    refine ⟨x >>= G n, ?_, n, fun m hm => ?_⟩
    · rw [hresult] at hx
      rw [result_bind, hresult]
      exact fun h => hx (congrArg Except.error (Except.error.inj h))
    · show F m >>= G m = x >>= G n
      rw [hn m hm]
      exact bind_congr_of_ok fun a ha => by simp [hresult] at ha
  | ok a =>
    obtain ⟨y, hy, n', hn'⟩ := hG n a (by rw [hn n (Nat.le_refl n), hresult])
    refine ⟨x >>= fun _ => y, ?_, max n n', fun m hm => ?_⟩
    · rw [result_bind, hresult]
      exact hy
    · show F m >>= G m = x >>= fun _ => y
      rw [hn m (Nat.le_trans (Nat.le_max_left n n') hm)]
      refine bind_congr_of_ok fun b hb => ?_
      obtain rfl : a = b := Except.ok.inj (hresult.symm.trans hb)
      exact hn' m (Nat.le_trans (Nat.le_max_right n n') hm)

/-- A map over a list converges if it does at the elements. -/
theorem Converges.mapList {G : Nat → α → Logged ω ε β} {as : List α}
    (h : ∀ a ∈ as, Converges e fun n => G n a) : Converges e fun n => Logged.mapList (G n) as := by
  induction as with
  | nil => exact .pure e []
  | cons a as ih =>
    simp only [Logged.mapList]
    refine .bind (h a List.mem_cons_self) fun _ b _ => .bind ?_ fun _ bs _ => .pure e (b :: bs)
    exact ih fun a' ha' => h a' (List.mem_cons_of_mem a ha')

end Log.Logged

/-! ### Normalization -/

namespace Term

open Nameless

/-- Arithmetic on normal operands needs no fuel. -/
theorem reduceArith_ne_exhausted (op : Operation) (l r : Term) :
    (reduceArith op l r).result ≠ .error .exhausted := by
  unfold reduceArith
  split
  · split <;> nofun
  · nofun

/-- Operations on indices need no fuel. -/
theorem lift_index_ne_exhausted {α : Type} (x : Except IndexFault α) :
    (liftM x : Evaluation α).result ≠ .error .exhausted := by
  cases x <;> nofun

/-- The contractum that an application is normalized by is a reduct of it, by way of the normal
forms of its parts. -/
theorem smaller_contractum (Γ : Scope) {f a A b a' c : Term} {x : Label} {m n : Nat}
    (hf : (f.normalize m).result = .ok (.lam x A b)) (ha : (a.normalize n).result = .ok a')
    (hc : b.instantiate x a' = .ok c) :
    Relation.TransGen Smaller (c.resolve Γ) ((app f a).resolve Γ) := by
  have hred : Reduces (.app (f.resolve Γ) (a.resolve Γ))
      (.app ((lam x A b).resolve Γ) (a'.resolve Γ)) :=
    .app (normalize_sound hf Γ).1 (normalize_sound ha Γ).1
  rw [resolve_instantiate hc]
  exact smaller_of_reduces hred (.beta _ _ _)

/-- Enough fuel lets the normalization of a terminating term end. -/
theorem converges_normalize {Γ : Scope} {t : Term} (h : Terminating (t.resolve Γ)) :
    Logged.Converges .exhausted fun n => t.normalize n := by
  -- The recursion goes to parts and to contracta of reducts. Both are smaller, in several steps.
  have hacc := h.acc_smaller.transGen
  clear h
  generalize hs : t.resolve Γ = s at hacc
  induction hacc generalizing t Γ with
  | intro s _ ih =>
    subst hs
    have hpart : ∀ {Δ : Scope} {u : Term}, HasPart (t.resolve Γ) (u.resolve Δ) →
        Logged.Converges .exhausted fun n => u.normalize n :=
      fun hu => ih _ (.single (.inr hu)) rfl
    apply Logged.Converges.of_succ
    cases t with
    | const c => exact .pure _ _
    | var v => exact .pure _ _
    | binder k x A b =>
      simp only [normalize, relay_eq]
      exact .bind (hpart (.binderType k _ _)) fun _ _ _ =>
        .bind (hpart (.binderBody k _ _)) fun _ _ _ => .pure _ _
    | app f a =>
      simp only [normalize, relay_eq]
      refine .bind (hpart (.appFunction _ _)) fun _ f' hf =>
        .bind (hpart (.appArgument _ _)) fun _ a' ha => ?_
      split
      case h_1 x A b =>
        refine .bind (.of_ne (by simp)) fun _ _ _ =>
          .bind (.of_ne (lift_index_ne_exhausted _)) fun _ c hc => ?_
        exact ih _ (smaller_contractum Γ hf ha (liftM_result_eq_ok_iff.mp hc)) rfl
      case h_2 => exact .pure _ _
    | annot e A =>
      simp only [normalize, relay_eq]
      exact hpart (.annotTerm _ _)
    | arith op l r =>
      simp only [normalize, relay_eq]
      exact .bind (hpart (.arithLeft op _ _)) fun _ l' _ =>
        .bind (hpart (.arithRight op _ _)) fun _ r' _ => .of_ne (reduceArith_ne_exhausted op l' r')
    | nil A =>
      simp only [normalize, relay_eq]
      exact .bind (hpart (.nilType _)) fun _ _ _ => .pure _ _
    | list e es =>
      simp only [normalize, relay_eq]
      refine .bind (hpart (.listHead _ _)) fun _ _ _ =>
        .bind (.mapList fun e' he' => ?_) fun _ _ _ => .pure _ _
      refine hpart (Δ := Γ) (.listTail _ ?_)
      rw [resolveAll_eq_map]
      exact List.mem_map_of_mem he'

end Term

/-! ### Accepted terms -/

open Nameless

/-- Values and realizers of the variables of an accepted context are found one after the other. -/
theorem Context.Accepted.models {Γ : Context} (h : Γ.Accepted) :
    ∃ ρ σ, Models Γ.assumptions ρ σ := by
  induction h with
  | empty => exact ⟨fun _ => ∅, .bound, nofun⟩
  | enter hΓ hA hK henter ih =>
    obtain ⟨ρ, σ, hρ⟩ := ih
    have hAu := Term.sorted_univ hΓ.wellFormed (Term.check_sound hΓ.wellFormed hA) hK
    have hinterpreted := (hAu.valid hρ).interpreted hAu
    obtain ⟨x, hx⟩ := hinterpreted.isType.nonempty
    obtain ⟨a, ha⟩ := Value.mem_elements.mp hx
    rw [Context.assumptions_enter henter]
    exact ⟨_, _, hρ.enter hinterpreted ha⟩

namespace Term

/-- **Accepted terms have normal forms.** If a term is accepted, then no sequence of steps from it
goes on forever, and the normalization of the term ends: from some amount of fuel on, it always does
the same, and either a normal form is found or an index was the largest one and would have had to
grow. -/
theorem check_normalizes {Γ : Context} (hΓ : Γ.Accepted) {fuel maxDepth : Nat} {t T : Term}
    (h : (t.check fuel maxDepth Γ).result = .ok T) :
    Terminating (t.resolve Γ.scope) ∧
      ∃ n, (∀ m, n ≤ m → t.normalize m = t.normalize n) ∧
        ((∃ u, (t.normalize n).result = .ok u) ∨
          ∃ e, (t.normalize n).result = .error (.fault e) ∧ e.AtTop) := by
  obtain ⟨ρ, σ, hρ⟩ := hΓ.models
  have hterm : Terminating (t.resolve Γ.scope) := (check_sound hΓ.wellFormed h).terminating hρ
  refine ⟨hterm, ?_⟩
  obtain ⟨x, hx, n, hn⟩ := converges_normalize hterm
  refine ⟨n, fun m hm => (hn m hm).trans (hn n (Nat.le_refl n)).symm, ?_⟩
  rw [← hn n (Nat.le_refl n)] at hx
  cases hresult : (t.normalize n).result with
  | ok u => exact .inl ⟨u, rfl⟩
  | error e =>
    cases e with
    | fault e => exact .inr ⟨e, rfl, normalize_atTop n t _ hresult⟩
    | exhausted => exact absurd hresult hx

/-- `λ(a : Type) → λ(x : a) → x`. -/
def identity : Term := .lam "a" (.univ .type) (.lam "x" (.nearby "a" 0) (.nearby "x" 0))

/-- `∀(a : Type) → ∀(x : a) → a`. -/
def identityType : Term := .pi "a" (.univ .type) (.pi "x" (.nearby "a" 0) (.nearby "a" 0))

/-- The identity at its own type, applied to itself. -/
def selfApplied : Term := .app (.app identity identityType) identity

/-- The polymorphic identity, applied to itself, has a normal form. -/
theorem check_normalizes_selfApplied :
    Context.Accepted [] ∧
      (selfApplied.check 8 8 []).result = .ok identityType ∧
      Terminating (selfApplied.resolve []) ∧
      ∃ n, (∀ m, n ≤ m → selfApplied.normalize m = selfApplied.normalize n) ∧
        (selfApplied.normalize n).result = .ok identity := by
  have hcheck : (selfApplied.check 8 8 []).result = .ok identityType := by decide +kernel
  have hresult : (selfApplied.normalize 8).result = .ok identity := by decide +kernel
  obtain ⟨hterm, n, hn, -⟩ := check_normalizes .empty hcheck
  refine ⟨.empty, hcheck, hterm, n, hn, ?_⟩
  have hmax : selfApplied.normalize (max n 8) = selfApplied.normalize 8 :=
    normalize_of_le (Nat.le_max_right n 8) (by simp [hresult])
  rw [← hn _ (Nat.le_max_left n 8), hmax, hresult]

end Term

end Trisort
