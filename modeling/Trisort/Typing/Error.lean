import Trisort.Term.Display

/-!
# Why a term is rejected
-/

namespace Trisort

/-- The part that a term plays in the construct whose rule found it wanting. -/
inductive Role where
  | argument
  | leftOperand (op : Operation)
  | rightOperand (op : Operation)
  | elementType
  | domain
  | codomain
deriving DecidableEq

/-- A reason for which a term has no type. -/
inductive TypeError where
  /-- No entry of the context is meant. -/
  | unbound (v : Var)
  /-- The highest universe belongs to none. -/
  | noUniverseAbove
  /-- A part has another type than the rule asks for. -/
  | mismatch (expected actual : Term) (role : Role)
  /-- Something of type `actual` is applied. -/
  | notFunction (actual : Term)
  /-- The type of a part should be a universe and is `actual`. -/
  | notUniverse (actual : Term) (role : Role)
  /-- The first element of a list and another one have different types. -/
  | mixedList (first offending : Term)
  /-- There are no functions between these universes. -/
  | noFunctionSpace (domain codomain : Universe)
  /-- The type written for a term is not its type. -/
  | misannotated (declared inferred : Term)
  /-- The term is nested deeper than `limit` levels. -/
  | tooDeep (limit : Nat)
deriving DecidableEq

namespace Role

/-- The part in words. -/
def describe : Role → String
  | argument => "function argument"
  | leftOperand op => "left operand of `" ++ op.sign ++ "`"
  | rightOperand op => "right operand of `" ++ op.sign ++ "`"
  | elementType => "list element type"
  | domain => "domain of a function type"
  | codomain => "codomain of a function type"

end Role

namespace TypeError

/-- A term in backquotes. -/
def cite (t : Term) : String := "`" ++ t.display ++ "`"

/-- The reason in words. -/
def message : TypeError → String
  | unbound v => "unbound variable `" ++ v.display ++ "`"
  | noUniverseAbove => "Sort has no type"
  | mismatch expected actual role =>
    "type mismatch in " ++ role.describe ++ ": expected " ++ cite expected ++ ", found " ++
      cite actual
  | notFunction actual => "expected a function type, found " ++ cite actual
  | notUniverse actual role =>
    "the " ++ role.describe ++ " has type " ++ cite actual ++ ", which is not a universe"
  | mixedList first offending =>
    "all list elements must have the same type, but " ++ cite first ++ " and " ++ cite offending ++
      " differ"
  | noFunctionSpace domain codomain =>
    "no function type from " ++ domain.display ++ " to " ++ codomain.display
  | misannotated declared inferred =>
    "annotation mismatch: inferred type " ++ cite inferred ++ " but annotated " ++ cite declared
  | tooDeep limit => "term is nested more than " ++ toString limit ++ " levels deep"

end TypeError

end Trisort
