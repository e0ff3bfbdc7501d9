import Trisort.Term.Basic

/-!
# The reading form of terms

Terms are written with as few parentheses as their precedences allow. A binder reaches as far to the
right as it can; a function type with an anonymous binder is written as an arrow; applications and
the two arithmetic operations lean to the left.

`Term.write allowed t rest` is the text of `t`, in a place that takes terms up to the precedence
`allowed`, followed by `rest`.
-/

namespace Trisort

/-- How loosely a construct holds together, from the tightest to the loosest. -/
inductive Precedence where
  | enclosed
  | application
  | product
  | sum
  | ascription
  | function
deriving DecidableEq

namespace Precedence

/-- The place of a precedence in the order. -/
def rank : Precedence → Nat
  | enclosed => 0
  | application => 1
  | product => 2
  | sum => 3
  | ascription => 4
  | function => 5

end Precedence

namespace Constant

/-- Doubles in the reading form: a mantissa always has a fractional part. -/
def doubleStyle : Double.Style := ⟨"NaN", "Infinity", ".0"⟩

/-- The text of a constant. Integers always have a sign, naturals never. -/
def display : Constant → List Char
  | univ u => u.display.toList
  | doubleType => "Double".toList
  | double x => x.render doubleStyle
  | boolType => "Bool".toList
  | bool b => if b then "True".toList else "False".toList
  | naturalType => "Natural".toList
  | natural n => (toString n.toNat).toList
  | integerType => "Integer".toList
  | integer i => if 0 ≤ i.toInt then '+' :: (toString i.toInt).toList else (toString i.toInt).toList
  | listType => "List".toList

end Constant

namespace Operation

/-- The precedence of an operation. -/
def precedence : Operation → Precedence
  | plus => .sum
  | times => .product

/-- What an operation takes on its right without parentheses: one step tighter than itself. -/
def rightPrecedence : Operation → Precedence
  | plus => .product
  | times => .application

end Operation

namespace Term

/-- The precedence of a term. -/
def precedence : Term → Precedence
  | .const _ | .var _ | .list _ _ => .enclosed
  | .app _ _ => .application
  | .arith op _ _ => op.precedence
  | .annot _ _ | .nil _ => .ascription
  | .binder _ _ _ _ => .function

/-- A text and what follows it, with parentheses around the text if they are needed. -/
def parenthesize (needed : Bool) (text : List Char → List Char) (rest : List Char) : List Char :=
  if needed then '(' :: text (')' :: rest) else text rest

/-- Whether a construct of precedence `own` needs parentheses where `allowed` is the loosest. -/
def needsParentheses (own allowed : Precedence) : Bool := allowed.rank < own.rank

mutual

/-- `Term.write` for a term met at nesting depth `d`. -/
def writeFrom (d : Nat) (allowed : Precedence) : Term → List Char → List Char
  | .const c, rest => c.display ++ rest
  | .var v, rest => v.display.toList ++ rest
  | .binder .lambda x A b, rest =>
    parenthesize (needsParentheses .function allowed) (fun rest =>
      'λ' :: '(' :: x.toList ++ ' ' :: ':' :: ' ' ::
        (relay d fun _ => writeFrom (d + 1) .function A
          (')' :: ' ' :: '→' :: ' ' ::
            relay d fun _ => writeFrom (d + 1) .function b rest))) rest
  | .binder .pi x A b, rest =>
    parenthesize (needsParentheses .function allowed) (fun rest =>
      if x.isAnonymous then
        -- A domain that is a function type takes parentheses: arrows group to the right.
        relay d fun _ => writeFrom (d + 1) .sum A
          (' ' :: '→' :: ' ' ::
            relay d fun _ => writeFrom (d + 1) .function b rest)
      else
        '∀' :: '(' :: x.toList ++ ' ' :: ':' :: ' ' ::
          (relay d fun _ => writeFrom (d + 1) .function A
            (')' :: ' ' :: '→' :: ' ' ::
              relay d fun _ => writeFrom (d + 1) .function b rest))) rest
  | .app f a, rest =>
    parenthesize (needsParentheses .application allowed) (fun rest =>
      relay d fun _ => writeFrom (d + 1) .application f
        (' ' :: relay d fun _ => writeFrom (d + 1) .enclosed a rest)) rest
  | .annot e A, rest =>
    parenthesize (needsParentheses .ascription allowed) (fun rest =>
      relay d fun _ => writeFrom (d + 1) .sum e
        (' ' :: ':' :: ' ' :: relay d fun _ => writeFrom (d + 1) .function A rest)) rest
  | .arith op l r, rest =>
    parenthesize (needsParentheses op.precedence allowed) (fun rest =>
      relay d fun _ => writeFrom (d + 1) op.precedence l
        (' ' :: op.sign.toList ++ ' ' ::
          relay d fun _ => writeFrom (d + 1) op.rightPrecedence r rest)) rest
  | .nil A, rest =>
    parenthesize (needsParentheses .ascription allowed) (fun rest =>
      "[] : List ".toList ++ relay d fun _ => writeFrom (d + 1) .enclosed A rest) rest
  | .list e es, rest =>
    '[' :: relay d fun _ => writeFrom (d + 1) .function e
      (relay d fun _ => writeTailFrom (d + 1) es (']' :: rest))

/-- The elements of a list literal after the first, met at nesting depth `d`. -/
def writeTailFrom (d : Nat) : List Term → List Char → List Char
  | [], rest => rest
  | e :: es, rest =>
    ',' :: ' ' :: relay d fun _ => writeFrom (d + 1) .function e
      (relay d fun _ => writeTailFrom (d + 1) es rest)

end

/-- The text of a term followed by `rest`. -/
def write (allowed : Precedence) (t : Term) (rest : List Char) : List Char :=
  writeFrom 0 allowed t rest

/-- The text of the elements of a list literal after the first, followed by `rest`. -/
def writeTail (es : List Term) (rest : List Char) : List Char := writeTailFrom 0 es rest

/-- The reading form of a term. -/
def display (t : Term) : String := String.ofList (t.write .function [])

/-! ### The counter does not matter -/

/-- The nesting depth has no influence on the rest of a list if it has none on the elements. -/
theorem writeTailFrom_eq_of {es : List Term}
    (h : ∀ e ∈ es, ∀ d allowed rest, writeFrom d allowed e rest = write allowed e rest)
    (d d' : Nat) (rest : List Char) : writeTailFrom d es rest = writeTailFrom d' es rest := by
  induction es generalizing d d' with
  | nil => rfl
  | cons e es ih =>
    simp only [writeTailFrom, relay_eq, h e (by simp),
      ih (fun e he => h e (by simp [he])) (d + 1) (d' + 1)]

/-- The nesting depth has no influence on the reading form. -/
theorem writeFrom_eq (d : Nat) (allowed : Precedence) (t : Term) (rest : List Char) :
    writeFrom d allowed t rest = write allowed t rest := by
  induction t generalizing d allowed rest with
  | const c => rfl
  | var v => rfl
  | binder k x A b ihA ihb =>
    cases k <;>
      rw [write, writeFrom, writeFrom] <;>
      simp only [relay_eq, ihA, ihb]
  | app f a ihf iha =>
    rw [write, writeFrom, writeFrom]
    simp only [relay_eq, ihf, iha]
  | annot e A ihe ihA =>
    rw [write, writeFrom, writeFrom]
    simp only [relay_eq, ihe, ihA]
  | arith op l r ihl ihr =>
    rw [write, writeFrom, writeFrom]
    simp only [relay_eq, ihl, ihr]
  | nil A ihA =>
    rw [write, writeFrom, writeFrom]
    simp only [relay_eq, ihA]
  | list e es ihe ihes =>
    rw [write, writeFrom, writeFrom]
    simp only [relay_eq, ihe, writeTailFrom_eq_of ihes (d + 1) 1]

/-- The nesting depth has no influence on the reading form of the rest of a list. -/
theorem writeTailFrom_eq (d : Nat) (es : List Term) (rest : List Char) :
    writeTailFrom d es rest = writeTail es rest :=
  writeTailFrom_eq_of (fun e _ d allowed rest => writeFrom_eq d allowed e rest) d 0 rest

/-! ### Equations -/

variable (allowed : Precedence) (rest : List Char)

/-- A constant is a single word, and never in parentheses. -/
theorem write_const (c : Constant) : write allowed (.const c) rest = c.display ++ rest := rfl

/-- A variable is a single word, and never in parentheses. -/
theorem write_var (v : Var) : write allowed (.var v) rest = v.display.toList ++ rest := rfl

/-- The reading form of a function. -/
theorem write_lam (x : Label) (A b : Term) :
    write allowed (.lam x A b) rest =
      parenthesize (needsParentheses .function allowed) (fun rest =>
        'λ' :: '(' :: x.toList ++ ' ' :: ':' :: ' ' ::
          A.write .function (')' :: ' ' :: '→' :: ' ' :: b.write .function rest)) rest := by
  rw [write, writeFrom]
  simp only [relay_eq, writeFrom_eq]

/-- The reading form of a function type. One with the anonymous label is an arrow, with a domain
that binds at least as strongly as a sum. -/
theorem write_pi (x : Label) (A b : Term) :
    write allowed (.pi x A b) rest =
      parenthesize (needsParentheses .function allowed) (fun rest =>
        if x.isAnonymous then A.write .sum (' ' :: '→' :: ' ' :: b.write .function rest)
        else
          '∀' :: '(' :: x.toList ++ ' ' :: ':' :: ' ' ::
            A.write .function (')' :: ' ' :: '→' :: ' ' :: b.write .function rest)) rest := by
  rw [write, writeFrom]
  simp only [relay_eq, writeFrom_eq]

/-- The reading form of an application, which leans to the left. -/
theorem write_app (f a : Term) :
    write allowed (.app f a) rest =
      parenthesize (needsParentheses .application allowed) (fun rest =>
        f.write .application (' ' :: a.write .enclosed rest)) rest := by
  rw [write, writeFrom]
  simp only [relay_eq, writeFrom_eq]

/-- The reading form of an annotation. -/
theorem write_annot (e A : Term) :
    write allowed (.annot e A) rest =
      parenthesize (needsParentheses .ascription allowed) (fun rest =>
        e.write .sum (' ' :: ':' :: ' ' :: A.write .function rest)) rest := by
  rw [write, writeFrom]
  simp only [relay_eq, writeFrom_eq]

/-- The reading form of an operation, with its sign between the operands. -/
theorem write_arith (op : Operation) (l r : Term) :
    write allowed (.arith op l r) rest =
      parenthesize (needsParentheses op.precedence allowed) (fun rest =>
        l.write op.precedence
          (' ' :: op.sign.toList ++ ' ' :: r.write op.rightPrecedence rest)) rest := by
  rw [write, writeFrom]
  simp only [relay_eq, writeFrom_eq]

/-- The reading form of an empty list, which names its element type. -/
theorem write_nil (A : Term) :
    write allowed (.nil A) rest =
      parenthesize (needsParentheses .ascription allowed) (fun rest =>
        "[] : List ".toList ++ A.write .enclosed rest) rest := by
  rw [write, writeFrom]
  simp only [relay_eq, writeFrom_eq]

/-- The reading form of a list literal, whose brackets make parentheses unnecessary. -/
theorem write_list (e : Term) (es : List Term) :
    write allowed (.list e es) rest = '[' :: e.write .function (writeTail es (']' :: rest)) := by
  rw [write, writeFrom]
  simp only [relay_eq, writeFrom_eq, writeTailFrom_eq]

@[simp] theorem writeTail_nil : writeTail [] rest = rest := rfl

/-- Each further element of a list comes after a comma. -/
theorem writeTail_cons (e : Term) (es : List Term) :
    writeTail (e :: es) rest = ',' :: ' ' :: e.write .function (writeTail es rest) := by
  rw [writeTail, writeTailFrom]
  simp only [relay_eq, writeFrom_eq, writeTailFrom_eq]

end Term

end Trisort
