import Trisort.Proofs.NormalForm
import Trisort.Proofs.Typing.Checking

/-!
# What closed programs compute

A closed term in normal form has the shape that its type asks for. Types fall into kinds, told apart
by their heads: a type is convertible with a constant, with a function type or with a list type, and
never with two of these (`HasHead.unique`). For each head there are few closed normal terms
(`Canonical`), which the induction over the term finds out: in a closed application that is normal
the function can only be `List`, and arithmetic that is left over has an operation in it whose exact
result does not fit into sixty-four bits.

With subject reduction this says what normalizing an accepted closed term can give
(`Term.check_canonical`).
-/

namespace Trisort

/-! ### Heads of types -/

namespace Nameless

/-- A list type reduces to list types only. -/
theorem Reduces.of_listOf {A t : Nameless} (h : Reduces (listOf A) t) : ∃ A', t = listOf A' := by
  induction h with
  | refl => exact ⟨A, rfl⟩
  | tail _ hstep ih =>
    obtain ⟨A', rfl⟩ := ih
    cases hstep with
    | appFunction _ h => cases h
    | appArgument _ _ => exact ⟨_, rfl⟩

/-- A constant is not convertible with a binder. -/
theorem not_conv_const_binder {c : Constant} {k : Binder} {A b : Nameless} :
    ¬ Conv (.const c) (.binder k A b) := by
  intro h
  obtain ⟨A', b', hred, -, -⟩ := h.reduces_binder
  cases hred.of_const

/-- A list type is not convertible with a constant. -/
theorem not_conv_listOf_const {A : Nameless} {c : Constant} : ¬ Conv (listOf A) (.const c) := by
  intro h
  obtain ⟨A', hA'⟩ := h.reduces_const.of_listOf
  cases hA'

/-- A list type is not convertible with a binder. -/
theorem not_conv_listOf_binder {A B b : Nameless} {k : Binder} :
    ¬ Conv (listOf A) (.binder k B b) := by
  intro h
  obtain ⟨B', b', hred, -, -⟩ := h.reduces_binder
  obtain ⟨A', hA'⟩ := hred.of_listOf
  cases hA'

end Nameless

/-- What a type is at the outside. -/
inductive Head where
  | const (c : Constant)
  | pi
  | list

open Nameless

/-- The type is convertible with one that has the head. -/
def HasHead (T : Nameless) : Head → Prop
  | .const c => Conv T (.const c)
  | .pi => ∃ A B, Conv T (.pi A B)
  | .list => ∃ A, Conv T (Nameless.listOf A)

namespace HasHead

variable {T T' : Nameless} {h h' : Head}

/-- Convertible types have the same head. -/
theorem conv (hT : HasHead T h) (hconv : Conv T' T) : HasHead T' h := by
  cases h with
  | const c => exact hconv.trans hT
  | pi =>
    obtain ⟨A, B, hT⟩ := hT
    exact ⟨A, B, hconv.trans hT⟩
  | list =>
    obtain ⟨A, hT⟩ := hT
    exact ⟨A, hconv.trans hT⟩

/-- A type has only one head. -/
theorem unique (hT : HasHead T h) (hT' : HasHead T h') : h = h' := by
  cases h with
  | const c =>
    cases h' with
    | const c' => exact congrArg _ (hT.symm.trans hT').const_inj
    | pi =>
      obtain ⟨A, B, hT'⟩ := hT'
      exact absurd (hT.symm.trans hT') not_conv_const_binder
    | list =>
      obtain ⟨A, hT'⟩ := hT'
      exact absurd (hT'.symm.trans hT) not_conv_listOf_const
  | pi =>
    obtain ⟨A, B, hT⟩ := hT
    cases h' with
    | const c => exact absurd (hT'.symm.trans hT) not_conv_const_binder
    | pi => rfl
    | list =>
      obtain ⟨A', hT'⟩ := hT'
      exact absurd (hT'.symm.trans hT) not_conv_listOf_binder
  | list =>
    obtain ⟨A, hT⟩ := hT
    cases h' with
    | const c => exact absurd (hT.symm.trans hT') not_conv_listOf_const
    | pi =>
      obtain ⟨A', B', hT'⟩ := hT'
      exact absurd (hT.symm.trans hT') not_conv_listOf_binder
    | list => rfl

end HasHead

/-! ### Canonical forms -/

namespace Term

/-- Whether the term is built from natural literals by the operations alone. -/
def isArithmetic : Term → Bool
  | .natural _ => true
  | .arith _ l r => l.isArithmetic && r.isArithmetic
  | _ => false

/-- Somewhere in the term two literals meet in an operation whose exact result does not fit into
sixty-four bits. -/
def Overflows (t : Term) : Prop :=
  ∃ op m n, .arith op (.natural m) (.natural n) ∈ t.subterms ∧
    UInt64.size ≤ op.onNat m.toNat n.toNat

/-- An operation overflows somewhere if its left operand does. -/
theorem Overflows.left {l : Term} (h : l.Overflows) (op : Operation) (r : Term) :
    (arith op l r).Overflows := by
  obtain ⟨op', m, n, hmem, hlarge⟩ := h
  exact ⟨op', m, n, by simp [hmem], hlarge⟩

/-- An operation overflows somewhere if its right operand does. -/
theorem Overflows.right {r : Term} (h : r.Overflows) (op : Operation) (l : Term) :
    (arith op l r).Overflows := by
  obtain ⟨op', m, n, hmem, hlarge⟩ := h
  exact ⟨op', m, n, by simp [hmem], hlarge⟩

/-- The closed normal terms whose types have the given head. -/
inductive Canonical : Term → Head → Prop where
  | const {c C : Constant} (h : ConstantType c (.const C)) : Canonical (.const c) (.const C)
  | listType : Canonical (.const .listType) .pi
  | lam (x : Label) (A b : Term) : Canonical (.lam x A b) .pi
  | pi (x : Label) (A B : Term) (u : Universe) : Canonical (.pi x A B) (.const (.univ u))
  | listOf (A : Term) : Canonical (listOf A) (.const (.univ .type))
  | arith (op : Operation) {l r : Term} (hl : l.isArithmetic) (hr : r.isArithmetic)
      (h : (Term.arith op l r).Overflows) : Canonical (.arith op l r) (.const .naturalType)
  | nil (A : Term) : Canonical (.nil A) .list
  | list (e : Term) (es : List Term) : Canonical (.list e es) .list

namespace Canonical

variable {t : Term}

/-- The closed normal terms of type `Bool` are the two literals. -/
theorem bool (h : Canonical t (.const .boolType)) : ∃ b, t = .const (.bool b) := by
  cases h with
  | const h =>
    cases h
    exact ⟨_, rfl⟩

/-- The closed normal terms of type `Integer` are the literals. -/
theorem integer (h : Canonical t (.const .integerType)) : ∃ i, t = .const (.integer i) := by
  cases h with
  | const h =>
    cases h
    exact ⟨_, rfl⟩

/-- The closed normal terms of type `Double` are the literals. -/
theorem double (h : Canonical t (.const .doubleType)) : ∃ x, t = .const (.double x) := by
  cases h with
  | const h =>
    cases h
    exact ⟨_, rfl⟩

/-- The closed normal terms of type `Natural` are the literals and the arithmetic that overflows. -/
theorem natural (h : Canonical t (.const .naturalType)) :
    (∃ n, t = .natural n) ∨ (t.isArithmetic ∧ t.Overflows) := by
  cases h with
  | const h =>
    cases h
    exact .inl ⟨_, rfl⟩
  | arith op hl hr h => exact .inr ⟨by simp [isArithmetic, hl, hr], h⟩

/-- The closed normal functions are the `λ`s and `List`. -/
theorem function (h : Canonical t .pi) : (∃ x A b, t = .lam x A b) ∨ t = .const .listType := by
  cases h with
  | listType => exact .inr rfl
  | lam x A b => exact .inl ⟨x, A, b, rfl⟩

/-- The closed normal lists are the empty ones and the list literals. -/
theorem elements (h : Canonical t .list) : (∃ A, t = .nil A) ∨ ∃ e es, t = .list e es := by
  cases h with
  | nil A => exact .inl ⟨A, rfl⟩
  | list e es => exact .inr ⟨e, es, rfl⟩

/-- An operation on canonical operands to which no step applies is stuck for its size, or one of the
operands is. -/
theorem operation {op : Operation} {l r : Term} (hl : Canonical l (.const .naturalType))
    (hr : Canonical r (.const .naturalType)) (h : ¬ (Term.arith op l r).isRedex) :
    Canonical (.arith op l r) (.const .naturalType) := by
  have harith {t : Term} (ht : Canonical t (.const .naturalType)) : t.isArithmetic := by
    rcases ht.natural with ⟨n, rfl⟩ | ⟨ht, -⟩
    · rfl
    · exact ht
  refine .arith op (harith hl) (harith hr) ?_
  rcases hl.natural with ⟨m, rfl⟩ | ⟨-, hl⟩
  · rcases hr.natural with ⟨n, rfl⟩ | ⟨-, hr⟩
    · have hlarge : UInt64.size ≤ op.onNat m.toNat n.toNat := by
        simpa [isRedex, UInt64.size] using h
      exact ⟨op, m, n, by simp, hlarge⟩
    · exact hr.right op _
  · exact hl.left op r

end Canonical

/-- A closed normal term is canonical for the head of its type. -/
theorem canonical_of_normal {t : Term} {T : Nameless} (h : SortedTyping [] (t.resolve []) T)
    (hnormal : (t.resolve []).Normal) : ∃ head, HasHead T head ∧ Canonical t head := by
  induction t generalizing T with
  | const c =>
    obtain ⟨C, hC, hconv⟩ := h.generated
    cases hC with
    | listType => exact ⟨.pi, ⟨_, _, hconv.symm⟩, .listType⟩
    | _ => exact ⟨.const _, hconv.symm, .const (by constructor)⟩
  | var v => exact h.generated.elim
  | binder k x A b _ _ =>
    cases k with
    | lambda =>
      obtain ⟨B, w, -, -, hconv⟩ := h.generated
      exact ⟨.pi, ⟨_, _, hconv.symm⟩, .lam x A b⟩
    | pi =>
      obtain ⟨u, v, w, -, -, -, hconv⟩ := h.generated
      exact ⟨.const (.univ w), hconv.symm, .pi x A b w⟩
  | app f a ihf _ =>
    obtain ⟨A, B, hf, -, hconv⟩ := h.generated
    obtain ⟨head, hhead, hcanonical⟩ := ihf hf fun u hu => hnormal _ (.appFunction _ hu)
    obtain rfl : head = .pi := hhead.unique ⟨A, B, .refl _⟩
    rcases hcanonical.function with ⟨x, A', b, rfl⟩ | rfl
    · -- An applied function is not normal.
      exact absurd (.beta _ _ _) (hnormal _)
    · obtain ⟨C, hC, hpi⟩ := hf.generated
      cases hC
      have hB : Conv (B.instantiate (a.resolve [])) (.univ .type) :=
        hpi.binder_inj.2.symm.instantiate (.refl _)
      exact ⟨.const (.univ .type), hconv.symm.trans hB, .listOf a⟩
  | annot e A _ _ => exact absurd (.erase _ _) (hnormal _)
  | arith op l r ihl ihr =>
    obtain ⟨hl, hr, hconv⟩ := h.generated
    obtain ⟨headl, hheadl, hcanl⟩ := ihl hl fun u hu => hnormal _ (.arithLeft op _ hu)
    obtain ⟨headr, hheadr, hcanr⟩ := ihr hr fun u hu => hnormal _ (.arithRight op _ hu)
    obtain rfl : headl = .const .naturalType := hheadl.unique (.refl _)
    obtain rfl : headr = .const .naturalType := hheadr.unique (.refl _)
    exact ⟨.const .naturalType, hconv.symm, hcanl.operation hcanr (not_isRedex_of_normal hnormal)⟩
  | nil A _ =>
    obtain ⟨-, hconv⟩ := h.generated
    exact ⟨.list, ⟨_, hconv.symm⟩, .nil A⟩
  | list e es _ _ =>
    obtain ⟨A, -, -, -, hconv⟩ := h.generated
    exact ⟨.list, ⟨_, hconv.symm⟩, .list e es⟩

/-- The normal form of an accepted closed term is canonical for the head of its type. -/
theorem canonical_of_check {fuel maxDepth n : Nat} {t T u : Term} {head : Head}
    (ht : (t.check fuel maxDepth []).result = .ok T) (hu : (t.normalize n).result = .ok u)
    (hT : HasHead (T.resolve []) head) : Canonical u head := by
  have hwf := Assumptions.wellFormed_nil
  obtain ⟨hred, hnormal⟩ := normalize_sound hu []
  obtain ⟨head', hhead', hcanonical⟩ :=
    canonical_of_normal ((check_sound (Γ := []) hwf ht).reduces hwf hred) hnormal
  rwa [hT.unique hhead']

/-- **Canonicity.** Let a closed term be accepted, and let the term and its type have normal forms
`u` and `N`. If `N` is `Bool`, `Integer` or `Double`, then `u` is a literal of that type. If it is
`Natural`, then `u` is a literal, or arithmetic on literals that is left over because an exact
result does not fit into sixty-four bits. If it is a list type, `u` is a list literal; if it is a
function type, `u` is a function or the constant `List`. -/
theorem check_canonical {fuel maxDepth n n' : Nat} {t T u N : Term}
    (ht : (t.check fuel maxDepth []).result = .ok T) (hu : (t.normalize n).result = .ok u)
    (hN : (T.normalize n').result = .ok N) :
    (N = .const .boolType → ∃ b, u = .const (.bool b)) ∧
    (N = .const .integerType → ∃ i, u = .const (.integer i)) ∧
    (N = .const .doubleType → ∃ x, u = .const (.double x)) ∧
    (N = .const .naturalType → (∃ m, u = .natural m) ∨
      (u.isArithmetic ∧ ∃ op k m, .arith op (.natural k) (.natural m) ∈ u.subterms ∧
        UInt64.size ≤ op.onNat k.toNat m.toNat)) ∧
    (∀ A, N = listOf A → (∃ A', u = .nil A') ∨ ∃ e es, u = .list e es) ∧
    ∀ x A B, N = .pi x A B → (∃ y C b, u = .lam y C b) ∨ u = .const .listType := by
  have hconv : Conv (T.resolve []) (N.resolve []) := (normalize_sound hN []).1.conv
  have hcanonical (head : Head) (h : HasHead (N.resolve []) head) : Canonical u head :=
    canonical_of_check ht hu (h.conv hconv)
  refine ⟨?_, ?_, ?_, ?_, ?_, ?_⟩
  · rintro rfl
    exact (hcanonical (.const .boolType) (Conv.refl _)).bool
  · rintro rfl
    exact (hcanonical (.const .integerType) (Conv.refl _)).integer
  · rintro rfl
    exact (hcanonical (.const .doubleType) (Conv.refl _)).double
  · rintro rfl
    exact (hcanonical (.const .naturalType) (Conv.refl _)).natural
  · rintro A rfl
    exact (hcanonical .list ⟨_, Conv.refl _⟩).elements
  · rintro x A B rfl
    exact (hcanonical .pi ⟨_, _, Conv.refl _⟩).function

/-- `(λ(x : Natural) → 2 * (x + 1)) (18446744073709551615 : Natural)`. -/
def excessive : Term :=
  .app
    (.lam "x" (.const .naturalType)
      (.arith .times (.natural 2) (.arith .plus (.nearby "x" 0) (.natural 1))))
    (.annot (.natural 18446744073709551615) (.const .naturalType))

/-- `2 * (18446744073709551615 + 1)`. -/
def stuck : Term :=
  .arith .times (.natural 2) (.arith .plus (.natural 18446744073709551615) (.natural 1))

/-- `(λ(f : Type → Type) → f) List`. -/
def typeOperator : Term :=
  .app (.lam "f" (.pi "_" (.univ .type) (.univ .type)) (.nearby "f" 0)) (.const .listType)

/-- Arithmetic that overflows is left over, and a function may turn out to be `List`. -/
theorem check_canonical_excessive :
    ((excessive.check 8 8 []).result = .ok (.const .naturalType) ∧
      (excessive.normalize 8).result = .ok stuck ∧
      ((const .naturalType).normalize 8).result = .ok (.const .naturalType) ∧
      ((∃ m, stuck = .natural m) ∨
        (stuck.isArithmetic ∧ ∃ op k m, .arith op (.natural k) (.natural m) ∈ stuck.subterms ∧
          UInt64.size ≤ op.onNat k.toNat m.toNat))) ∧
    ((typeOperator.check 8 8 []).result = .ok (.pi "_" (.univ .type) (.univ .type)) ∧
      (typeOperator.normalize 8).result = .ok (.const .listType) ∧
      ((pi "_" (.univ .type) (.univ .type)).normalize 8).result =
        .ok (.pi "_" (.univ .type) (.univ .type)) ∧
      ((∃ y C b, const .listType = .lam y C b) ∨ const .listType = .const .listType)) := by
  have ht : (excessive.check 8 8 []).result = .ok (.const .naturalType) := by decide +kernel
  have hu : (excessive.normalize 8).result = .ok stuck := by decide +kernel
  have hN : ((const .naturalType).normalize 8).result = .ok (.const .naturalType) := by
    decide +kernel
  have ht' : (typeOperator.check 8 8 []).result = .ok (.pi "_" (.univ .type) (.univ .type)) := by
    decide +kernel
  have hu' : (typeOperator.normalize 8).result = .ok (.const .listType) := by decide +kernel
  have hN' : ((pi "_" (.univ .type) (.univ .type)).normalize 8).result =
      .ok (.pi "_" (.univ .type) (.univ .type)) := by decide +kernel
  obtain ⟨-, -, -, hnatural, -, -⟩ := check_canonical ht hu hN
  obtain ⟨-, -, -, -, -, hfunction⟩ := check_canonical ht' hu' hN'
  exact ⟨⟨ht, hu, hN, hnatural rfl⟩, ht', hu', hN', hfunction _ _ _ rfl⟩

end Term

end Trisort
