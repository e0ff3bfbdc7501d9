import Trisort.Proofs.Typing.Checking

/-!
# Checked terms keep their types

Contracting a redex anywhere in a term is a step of its nameless form (`Contracts.step`), and so is
each contraction that normalization makes. Reduction keeps types, and the checker implements the
typing judgement, so whatever an accepted term reduces to is accepted, too, and the type found for
it is convertible with that of the term. The two types need not be the same syntactically: a
function is given a type with a normal domain, and an annotated term the type as it is written.
-/

namespace Trisort.Term

open Nameless

/-- The second term comes from the first one by contracting one redex anywhere in it. -/
inductive Contracts : Term → Term → Prop where
  | beta {x : Label} {A b a c : Term} (h : b.instantiate x a = .ok c) :
      Contracts (.app (.lam x A b) a) c
  | erase (e A : Term) : Contracts (.annot e A) e
  | compute {op : Operation} {m n r : UInt64} (h : op.eval? m n = some r) :
      Contracts (.arith op (.natural m) (.natural n)) (.natural r)
  | binderType (k : Binder) (x : Label) {A A' : Term} (b : Term) (h : Contracts A A') :
      Contracts (.binder k x A b) (.binder k x A' b)
  | binderBody (k : Binder) (x : Label) (A : Term) {b b' : Term} (h : Contracts b b') :
      Contracts (.binder k x A b) (.binder k x A b')
  | appFunction {f f' : Term} (a : Term) (h : Contracts f f') : Contracts (.app f a) (.app f' a)
  | appArgument (f : Term) {a a' : Term} (h : Contracts a a') : Contracts (.app f a) (.app f a')
  | annotTerm {e e' : Term} (A : Term) (h : Contracts e e') :
      Contracts (.annot e A) (.annot e' A)
  | annotType (e : Term) {A A' : Term} (h : Contracts A A') :
      Contracts (.annot e A) (.annot e A')
  | arithLeft (op : Operation) {l l' : Term} (r : Term) (h : Contracts l l') :
      Contracts (.arith op l r) (.arith op l' r)
  | arithRight (op : Operation) (l : Term) {r r' : Term} (h : Contracts r r') :
      Contracts (.arith op l r) (.arith op l r')
  | nilType {A A' : Term} (h : Contracts A A') : Contracts (.nil A) (.nil A')
  | listHead {e e' : Term} (es : List Term) (h : Contracts e e') :
      Contracts (.list e es) (.list e' es)
  | listTail (e : Term) (before : List Term) {f f' : Term} (after : List Term)
      (h : Contracts f f') :
      Contracts (.list e (before ++ f :: after)) (.list e (before ++ f' :: after))

/-- Contracting a redex is a step of the nameless form. -/
theorem Contracts.step {t t' : Term} (h : Contracts t t') (Γ : Scope) :
    Step (t.resolve Γ) (t'.resolve Γ) := by
  induction h generalizing Γ with
  | beta h =>
    rw [resolve_instantiate h]
    exact .beta _ _ _
  | erase e A => exact .erase _ _
  | compute h => exact .compute h
  | binderType k x b _ ih => exact .binderType k _ (ih Γ)
  | binderBody k x A _ ih => exact .binderBody k _ (ih (x :: Γ))
  | appFunction a _ ih => exact .appFunction _ (ih Γ)
  | appArgument f _ ih => exact .appArgument _ (ih Γ)
  | annotTerm A _ ih => exact .annotTerm _ (ih Γ)
  | annotType e _ ih => exact .annotType _ (ih Γ)
  | arithLeft op r _ ih => exact .arithLeft op _ (ih Γ)
  | arithRight op l _ ih => exact .arithRight op _ (ih Γ)
  | nilType _ ih => exact .nilType (ih Γ)
  | listHead es _ ih => exact .listHead _ (ih Γ)
  | listTail e before after _ ih =>
    simp only [resolve, resolveAll_eq_map, List.map_append, List.map_cons]
    exact .listTail _ _ _ (ih Γ)

/-- What an accepted term reduces to is rejected only for its depth, and a type found for it is
convertible with the type of the term. -/
theorem check_reduct {Γ : Context} (hΓ : Γ.Accepted) {fuel maxDepth : Nat}
    {t t' T : Term} (h : (t.check fuel maxDepth Γ).result = .ok T)
    (hred : Reduces (t.resolve Γ.scope) (t'.resolve Γ.scope)) (fuel' maxDepth' : Nat) :
    NeverRejects maxDepth' (t'.check fuel' maxDepth' Γ) ∧
      ∀ T', (t'.check fuel' maxDepth' Γ).result = .ok T' →
        Conv (T.resolve Γ.scope) (T'.resolve Γ.scope) := by
  have hwf := hΓ.wellFormed
  have ht' := (check_sound hwf h).reduces hwf hred
  refine ⟨check_complete hwf ht', ?_⟩
  intro T' hT'
  exact ht'.unique (check_sound hwf hT')

/-- Subject reduction. Contract a redex of an accepted closed term, or normalize the term. What
comes of it is rejected, at any depth, only for being nested too deeply. If a type is found for it,
that type is convertible with the type of the term, and comparing the two does not end with
`false`. -/
theorem check_subject_reduction {fuel maxDepth : Nat} {t t' T : Term}
    (ht : (t.check fuel maxDepth []).result = .ok T)
    (ht' : Contracts t t' ∨ ∃ n, (t.normalize n).result = .ok t') (fuel' maxDepth' : Nat) :
    (∀ e, (t'.check fuel' maxDepth' []).result = .error (.rejected e) → e = .tooDeep maxDepth') ∧
      ∀ T', (t'.check fuel' maxDepth' []).result = .ok T' →
        Conv (T.resolve []) (T'.resolve []) ∧
          ∀ n r, (T.convertible n T').result = .ok r → r = true := by
  have hred : Reduces (t.resolve []) (t'.resolve []) := by
    rcases ht' with hcontracts | ⟨n, hn⟩
    · exact .single (hcontracts.step [])
    · exact (normalize_sound hn []).1
  obtain ⟨hrejects, hconv⟩ := check_reduct .empty ht hred fuel' maxDepth'
  refine ⟨hrejects, fun T' hT' => ⟨hconv T' hT', ?_⟩⟩
  intro n r hr
  exact (convertible_iff hr []).mpr (hconv T' hT')

/-- `λ(y : Natural) → (λ(x : Natural) → λ(y : Natural) → (x : (Natural : Type))) y`. -/
def reducible : Term :=
  .lam "y" (.const .naturalType)
    (.app
      (.lam "x" (.const .naturalType)
        (.lam "y" (.const .naturalType)
          (.annot (.nearby "x" 0) (.annot (.const .naturalType) (.univ .type)))))
      (.nearby "y" 0))

/-- `λ(y : Natural) → λ(y : Natural) → (y@1 : (Natural : Type))`. -/
def contracted : Term :=
  .lam "y" (.const .naturalType)
    (.lam "y" (.const .naturalType)
      (.annot (.nearby "y" 1) (.annot (.const .naturalType) (.univ .type))))

/-- `λ(y : Natural) → λ(y : Natural) → y@1`. -/
def normalized : Term :=
  .lam "y" (.const .naturalType)
    (.lam "y" (.const .naturalType) (.nearby "y" 1))

/-- `∀(y : Natural) → ∀(y : Natural) → T`. -/
def binary (T : Term) : Term :=
  .pi "y" (.const .naturalType) (.pi "y" (.const .naturalType) T)

/-- `(Natural : Type)`. -/
def annotated : Term := .annot (.const .naturalType) (.univ .type)

/-- A term whose type is written differently once it is contracted under a binder of the same
label. -/
theorem check_subject_reduction_annotated :
    (reducible.check 8 8 []).result = .ok (binary (.const .naturalType)) ∧
      (Contracts reducible contracted ∧
        (contracted.check 8 8 []).result = .ok (binary annotated) ∧
        ((binary (.const .naturalType)).convertible 8 (binary annotated)).result = .ok true ∧
        Conv ((binary (.const .naturalType)).resolve []) ((binary annotated).resolve [])) ∧
      (reducible.normalize 8).result = .ok normalized ∧
        (normalized.check 8 2 []).result = .error (.rejected (.tooDeep 2)) ∧
        ∀ e, (normalized.check 8 2 []).result = .error (.rejected e) → e = .tooDeep 2 := by
  have ht : (reducible.check 8 8 []).result = .ok (binary (.const .naturalType)) := by
    decide +kernel
  have hcontracts : Contracts reducible contracted := .binderBody _ _ _ (.beta (by decide +kernel))
  have hcontracted : (contracted.check 8 8 []).result = .ok (binary annotated) := by decide +kernel
  have hequal : ((binary (.const .naturalType)).convertible 8 (binary annotated)).result =
      .ok true := by decide +kernel
  have hnormalized : (reducible.normalize 8).result = .ok normalized := by decide +kernel
  have hdeep : (normalized.check 8 2 []).result = .error (.rejected (.tooDeep 2)) := by
    decide +kernel
  obtain ⟨-, hkept⟩ := check_subject_reduction ht (.inl hcontracts) 8 8
  obtain ⟨hrejects, -⟩ := check_subject_reduction ht (.inr ⟨8, hnormalized⟩) 8 2
  exact ⟨ht, ⟨hcontracts, hcontracted, hequal, (hkept _ hcontracted).1⟩, hnormalized, hdeep,
    hrejects⟩

end Trisort.Term
