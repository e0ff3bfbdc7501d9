import Trisort.Normalization

/-!
# Type inference

`Term.infer` finds the type of a term in a context, by one rule for each form of term. The rules are
applied from the outside in, and each application is recorded. The number of levels that may be
entered is bounded; a term that is nested deeper is rejected. `Term.check` is inference from the
outermost level, and records the rejection of a term.
-/

namespace Trisort

open Log

/-- Why a term was not given a type. -/
inductive Failure where
  /-- The term has no type. -/
  | rejected (e : TypeError)
  /-- The question was not decided. -/
  | halted (h : Halt)
deriving DecidableEq

/-- A computation that may reject a term. -/
abbrev Inference (α : Type) := Logged Event Failure α

/-- Computations on terms are steps of an inference. -/
instance : MonadLift (Logged Event Halt) (Logged Event Failure) where
  monadLift x := x.mapFailure .halted

/-- Operations on indices are steps of an inference. -/
instance : MonadLift (Except IndexFault) (Logged Event Failure) where
  monadLift x := .ofExcept (x.mapError fun e => .halted (.fault e))

namespace Inference

/-- Rejects the term at hand. -/
def reject {α : Type} (e : TypeError) : Inference α := .fail (.rejected e)

end Inference

open Inference

namespace Universe

/-- The universe of a function type, or the rejection of the type. -/
def function (domain codomain : Universe) : Except TypeError Universe :=
  match function? domain codomain with
  | some u => .ok u
  | none => .error (.noFunctionSpace domain codomain)

end Universe

namespace Constant

/-- The type of a constant. -/
def infer : Constant → Inference Term
  | univ u =>
    match u.above? with
    | some u' => return .univ u'
    | none => reject .noUniverseAbove
  | doubleType | boolType | naturalType | integerType => return .univ .type
  | double _ => return .const .doubleType
  | bool _ => return .const .boolType
  | natural _ => return .const .naturalType
  | integer _ => return .const .integerType
  | listType => return .pi .anonymous (.univ .type) (.univ .type)

end Constant

namespace Term

/-- The universe that a type belongs to, given the type of that type. -/
def expectUniverse (fuel : Nat) (role : Role) (kind : Term) : Inference Universe := do
  let kind ← kind.normalize fuel
  match kind.univ? with
  | some u => return u
  | none => reject (.notUniverse kind role)

/-- Makes sure that the type `actual` of a part normalizes to the constant `expected`. -/
def expectConstant (fuel : Nat) (role : Role) (expected : Constant) (actual : Term) :
    Inference Unit := do
  let actual ← actual.normalize fuel
  if actual = .const expected then return () else reject (.mismatch (.const expected) actual role)

/-- Makes sure that two types are convertible. -/
def expectConvertible (fuel : Nat) (t u : Term) (error : TypeError) : Inference Unit := do
  if ← t.convertible fuel u then return () else reject error

/-- The typing rules: the type of a term in a context, given how to find the types of other terms.
The rules for a function and for a list literal also ask for the type of the type they find. -/
def applyRule (fuel : Nat) (typeOf : Context → Term → Inference Term) (Γ : Context) :
    Term → Inference Term
  | .const c => c.infer
  | .var v =>
    match Γ.lookup v.name v.index with
    | some A => return A
    | none => reject (.unbound v)
  | .lam x A b => do
    let _ ← typeOf Γ A
    let A' ← A.normalize fuel
    let Γ' ← Γ.enter x A'
    let B ← typeOf Γ' b
    -- Whether `A'` and `B` belong to universes is left to the rule for function types.
    let _ ← typeOf Γ (.pi x A' B)
    return .pi x A' B
  | .pi x A B => do
    let u ← expectUniverse fuel .domain (← typeOf Γ A)
    let A' ← A.normalize fuel
    let Γ' ← Γ.enter x A'
    let u' ← expectUniverse fuel .codomain (← typeOf Γ' B)
    match u.function u' with
    | .ok w => return .univ w
    | .error e => reject e
  | .app f a => do
    let F ← (← typeOf Γ f).normalize fuel
    match F with
    | .pi x A B => do
      let A' ← typeOf Γ a
      expectConvertible fuel A A' (.mismatch A A' .argument)
      B.instantiate x a
    | F => reject (.notFunction F)
  | .annot e A => do
    -- Having a type is all that is asked of an annotation; which one does not matter.
    let _ ← typeOf Γ A
    let A' ← typeOf Γ e
    expectConvertible fuel A A' (.misannotated A A')
    return A
  | .arith op l r => do
    expectConstant fuel (.leftOperand op) .naturalType (← typeOf Γ l)
    expectConstant fuel (.rightOperand op) .naturalType (← typeOf Γ r)
    return .const .naturalType
  | .nil A => do
    expectConstant fuel .elementType (.univ .type) (← typeOf Γ A)
    return listOf A
  | .list e es => do
    let A ← typeOf Γ e
    expectConstant fuel .elementType (.univ .type) (← typeOf Γ A)
    es.forM fun e' => do
      let A' ← typeOf Γ e'
      expectConvertible fuel A A' (.mixedList A A')
    return listOf A

/-- The type of a term in a context, found within the given number of levels. The number `limit` is
the one named when a term is nested too deeply, and `fuel` bounds each normalization. -/
def infer (limit fuel : Nat) : Nat → Context → Term → Inference Term
  | 0, _, _ => reject (.tooDeep limit)
  | n + 1, Γ, t => do
    Logged.record (.judged Γ t)
    applyRule fuel (fun Γ t => relay n fun _ => infer limit fuel n Γ t) Γ t

/-- The type of a term in a context, for a term nested at most `maxDepth` levels deep. -/
def check (fuel maxDepth : Nat) (Γ : Context) (t : Term) : Inference Term :=
  let outcome := t.infer maxDepth fuel maxDepth Γ
  match outcome.result with
  | .error (.rejected e) => ⟨outcome.journal.append (.entry (.rejected t e)), outcome.result⟩
  | _ => outcome

end Term

end Trisort
