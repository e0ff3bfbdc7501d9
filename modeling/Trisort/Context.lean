import Trisort.Term.Substitution
import Trisort.Term.Display
import Trisort.Term.Inspection

/-!
# Typing contexts

A context lists the variables in scope with their types, the innermost first. The variable `x@i` is
the `i`-th entry named `x`. All types of a context are stated in the scope of the whole context, so
entering a binder shifts each of them over the new label.
-/

namespace Trisort

/-- A variable in scope and its type. -/
structure Binding where
  name : Label
  type : Term
deriving DecidableEq

/-- The variables in scope, innermost first. -/
abbrev Context := List Binding

namespace Context

/-- The type of the `i`-th entry named `x`. -/
def lookup : Context → Label → Nat → Option Term
  | [], _, _ => none
  | b :: Γ, x, i =>
    if b.name = x then
      match i with
      | 0 => some b.type
      | i + 1 => lookup Γ x i
    else lookup Γ x i

/-- The context with one more entry, whose type is taken as it stands. -/
def insert (Γ : Context) (x : Label) (A : Term) : Context := ⟨x, A⟩ :: Γ

/-- The context with every type replaced, the outermost first. -/
def mapTypesM {m : Type → Type} [Monad m] (f : Term → m Term) (Γ : Context) : m Context :=
  Γ.foldrM (fun b Γ => do return ⟨b.name, ← f b.type⟩ :: Γ) []

/-- The context under a binder labelled `x` of type `A`. The type `A` is stated outside the binder,
as the others are, and shifted with them. -/
def enter (Γ : Context) (x : Label) (A : Term) : Except IndexFault Context :=
  (Γ.insert x A).mapTypesM (·.shift 1 (.nearest x))

/-- The context on one line, outermost entry first. -/
def summary (Γ : Context) : String :=
  Γ.foldr (fun b text => text ++ ", " ++ b.name ++ " : " ++ b.type.display) "·" ++ " ⊦"

/-- The inspection form of a context: each entry around those outside it. -/
def inspect (Γ : Context) : String :=
  Γ.foldr (fun b outer => "Var \x7b parent: " ++ outer ++ ", name: " ++
    String.ofList b.name.inspect ++ ", ty: " ++ String.ofList b.type.inspect ++ " \x7d") "Nil"

/-- The types of the entries named `x`, innermost first. -/
def typesOf (Γ : Context) (x : Label) : List Term :=
  (Γ.filter (·.name = x)).map (·.type)

/-- Looking up a variable counts the entries of its name. -/
theorem lookup_eq (Γ : Context) (x : Label) (i : Nat) : Γ.lookup x i = (Γ.typesOf x)[i]? := by
  induction Γ generalizing i with
  | nil => simp [lookup, typesOf]
  | cons b Γ ih =>
    unfold lookup
    split
    case isTrue h => cases i <;> simp_all [typesOf]
    case isFalse h => simp_all [typesOf]

end Context

end Trisort
