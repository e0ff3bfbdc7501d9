import Trisort.Term.Basic
import Trisort.Text.Lexemes

/-!
# The inspection form of terms

A term as the tree of its constructors, on one line, with every part named and every label quoted.
It shows what the reading form hides.
-/

namespace Trisort

namespace Universe

/-- The name of the universe. -/
def inspect (u : Universe) : String := u.display

end Universe

namespace Label

/-- The label in quotes. -/
def inspect (x : Label) : List Char := Text.quoted x

end Label

namespace Var

/-- A variable with its two parts. -/
def inspect (v : Var) : List Char :=
  "V \x7b name: ".toList ++ v.name.inspect ++ ", index: ".toList ++ (toString v.index).toList ++
    " \x7d".toList

end Var

namespace Constant

/-- Doubles in the inspection form. -/
def inspectedDoubleStyle : Double.Style := ⟨"NaN", "inf", ""⟩

/-- A constant with its kind. -/
def inspect : Constant → List Char
  | univ u => "Universe(".toList ++ u.inspect.toList ++ [')']
  | doubleType => "DoubleType".toList
  | double x => "DoubleLit(Double(".toList ++ x.render inspectedDoubleStyle ++ [')', ')']
  | boolType => "BoolType".toList
  | bool b => "BoolLit(".toList ++ (if b then "true" else "false").toList ++ [')']
  | naturalType => "NaturalType".toList
  | natural n => "NaturalLit(".toList ++ (toString n.toNat).toList ++ [')']
  | integerType => "IntegerType".toList
  | integer i => "IntegerLit(".toList ++ (toString i.toInt).toList ++ [')']
  | listType => "ListType".toList

end Constant

namespace Binder

/-- The name of the form, of its type part and of its body. -/
def partNames : Binder → String × String × String
  | lambda => ("Lambda", "param_type", "body")
  | pi => ("Pi", "domain", "codomain")

end Binder

namespace Operation

/-- The name of the operation. -/
def inspect : Operation → String
  | plus => "NaturalPlus"
  | times => "NaturalTimes"

end Operation

namespace Term

/-- The start of a construct with named parts, up to its first part. -/
def openParts (name first : String) : List Char :=
  name.toList ++ " \x7b ".toList ++ first.toList ++ [':', ' ']

/-- What stands between a part and the part called `name`. -/
def nextPart (name : String) : List Char := ',' :: ' ' :: name.toList ++ [':', ' ']

/-- The end of a construct with named parts, followed by `rest`. -/
def closeParts (rest : List Char) : List Char := ' ' :: '\x7d' :: rest

mutual

/-- The inspection form of a term met at nesting depth `d`, followed by more text. -/
def inspectFrom (d : Nat) : Term → List Char → List Char
  | .const c, rest => c.inspect ++ rest
  | .var v, rest => "Var(".toList ++ v.inspect ++ ')' :: rest
  | .binder k x A b, rest =>
    openParts k.partNames.1 "label" ++ x.inspect ++ nextPart k.partNames.2.1 ++
      relay d fun _ => inspectFrom (d + 1) A (nextPart k.partNames.2.2 ++
        relay d fun _ => inspectFrom (d + 1) b (closeParts rest))
  | .app f a, rest =>
    openParts "App" "func" ++ relay d fun _ => inspectFrom (d + 1) f (nextPart "arg" ++
      relay d fun _ => inspectFrom (d + 1) a (closeParts rest))
  | .annot e A, rest =>
    openParts "Annot" "expr" ++ relay d fun _ => inspectFrom (d + 1) e (nextPart "ty" ++
      relay d fun _ => inspectFrom (d + 1) A (closeParts rest))
  | .arith op l r, rest =>
    openParts op.inspect "left" ++ relay d fun _ => inspectFrom (d + 1) l (nextPart "right" ++
      relay d fun _ => inspectFrom (d + 1) r (closeParts rest))
  | .nil A, rest =>
    openParts "EmptyList" "elem_type" ++ relay d fun _ => inspectFrom (d + 1) A (closeParts rest)
  | .list e es, rest =>
    openParts "NonEmptyList" "head" ++ relay d fun _ => inspectFrom (d + 1) e
      (nextPart "tail" ++ '[' :: relay d fun _ => inspectAllFrom (d + 1) es
        (']' :: closeParts rest))

/-- The inspection forms of some terms met at nesting depth `d`, followed by more text. -/
def inspectAllFrom (d : Nat) : List Term → List Char → List Char
  | [], rest => rest
  | e :: es, rest =>
    relay d fun _ => inspectFrom (d + 1) e
      (if es.isEmpty then rest else
        ',' :: ' ' :: relay d fun _ => inspectAllFrom (d + 1) es rest)

end

/-- The inspection form of a term. -/
def inspect (t : Term) : List Char := inspectFrom 0 t []

end Term

end Trisort
