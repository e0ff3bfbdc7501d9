import Trisort.Term.Anonymous
import Trisort.Log.Event
import Trisort.Log.Journal

/-!
# Normal forms and convertibility

`Term.normalize` contracts every application of a function to an argument, erases annotations, and
computes arithmetic on literals as long as the result is a literal. Subterms are normalized from
left to right, a function and its argument before they are contracted.

Not every term has a normal form, so the computation is bounded by `fuel`, the number of levels it
may go down, and `Halt.exhausted` says that the bound was too small. More fuel never changes any
other answer.

`Term.convertible` compares two terms by the anonymous forms of their normal forms.
-/

namespace Trisort

open Log

/-- Why a computation on terms ends without a value. -/
inductive Halt where
  /-- An index left its range. -/
  | fault (e : IndexFault)
  /-- The fuel did not suffice. -/
  | exhausted
deriving DecidableEq

/-- A computation on terms. -/
abbrev Evaluation (α : Type) := Logged Event Halt α

/-- Operations on indices are steps of a computation on terms. -/
instance : MonadLift (Except IndexFault) (Logged Event Halt) where
  monadLift x := .ofExcept (x.mapError .fault)

namespace Term

/-- What becomes of an arithmetic operation once its operands are normal. -/
def reduceArith (op : Operation) : Term → Term → Evaluation Term
  | .natural m, .natural n =>
    match op.eval? m n with
    | some r => return .natural r
    | none => do
      Logged.record (.overflowed op m n)
      return .arith op (.natural m) (.natural n)
  | l, r => return .arith op l r

/-- The normal form of a term. -/
def normalize : Nat → Term → Evaluation Term
  | 0, _ => .fail .exhausted
  | _ + 1, .const c => return .const c
  | _ + 1, .var v => return .var v
  | fuel + 1, .binder k x A b => do
    let A' ← relay fuel fun _ => normalize fuel A
    let b' ← relay fuel fun _ => normalize fuel b
    return .binder k x A' b'
  | fuel + 1, .app f a => do
    let f' ← relay fuel fun _ => normalize fuel f
    let a' ← relay fuel fun _ => normalize fuel a
    match f' with
    | .lam x _ b => do
      Logged.record (.contracted x)
      let c ← b.instantiate x a'
      -- The filled body may have new redexes.
      relay fuel fun _ => normalize fuel c
    | f' => return .app f' a'
  | fuel + 1, .annot e _ => relay fuel fun _ => normalize fuel e
  | fuel + 1, .arith op l r => do
    let l' ← relay fuel fun _ => normalize fuel l
    let r' ← relay fuel fun _ => normalize fuel r
    reduceArith op l' r'
  | fuel + 1, .nil A => do
    let A' ← relay fuel fun _ => normalize fuel A
    return .nil A'
  | fuel + 1, .list e es => do
    let e' ← relay fuel fun _ => normalize fuel e
    let es' ← Logged.mapList (fun e => relay fuel fun _ => normalize fuel e) es
    return .list e' es'

/-- The form by which terms are compared: normal, with every binder labelled `_`. -/
def canonical (fuel : Nat) (t : Term) : Evaluation Term := do
  let t ← t.normalize fuel
  t.anonymize

/-- Whether two terms have the same normal form up to the labels of binders. Terms carry no identity
here, so the shortcut for two references to one and the same term is left out: it only answers
`true`, on a term and itself, and any term is convertible with itself. -/
def convertible (fuel : Nat) (t u : Term) : Evaluation Bool := do
  let t ← t.canonical fuel
  let u ← u.canonical fuel
  return t.same u

end Term

end Trisort
