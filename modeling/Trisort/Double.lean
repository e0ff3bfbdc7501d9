import Trisort.Decimal.Shortest

/-!
# Double-precision literals

A double is its sixty-four bits: two literals are the same exactly if their bits are, so that zeros
of different sign differ and a not-a-number equals itself.

Doubles are written with the fewest digits that read back, positionally for moderate magnitudes and
with an exponent otherwise. The two text forms of terms differ in three details, which a
`Double.Style` collects.
-/

namespace Trisort

/-- A double-precision literal. -/
structure Double where
  bits : UInt64
deriving DecidableEq

namespace Double

/-- What a bit pattern stands for. -/
inductive Value where
  | nan
  | infinite (negative : Bool)
  | zero (negative : Bool)
  | nonzero (negative : Bool) (magnitude : Binary)

/-- Reads the sign bit, the eleven bits of the exponent and the fifty-two bits of the fraction. -/
def value (x : Double) : Value :=
  let n := x.bits.toNat
  let negative : Bool := n / 0x8000_0000_0000_0000 = 1
  let exponent : Nat := n / 0x10_0000_0000_0000 % 0x800
  let fraction : Nat := n % 0x10_0000_0000_0000
  if exponent = 0x7ff then
    if fraction = 0 then .infinite negative else .nan
  else if exponent = 0 then
    if fraction = 0 then .zero negative else .nonzero negative ⟨fraction, -1074, false⟩
  else
    .nonzero negative
      ⟨0x10_0000_0000_0000 + fraction, (exponent : Int) - 1075, fraction = 0 && 1 < exponent⟩

/-- How a text form writes doubles. -/
structure Style where
  /-- What is written for every not-a-number. -/
  nan : String
  /-- What is written for infinity, after its sign. -/
  infinity : String
  /-- What follows a mantissa of one digit in exponent notation. -/
  wholeMantissa : String

/-- The digits with a decimal point among them, and at least one digit on either side of it. -/
def positional (digits : List Char) (exponent : Int) : List Char :=
  let leading := digits.length + exponent
  if 0 ≤ exponent then digits ++ List.replicate exponent.toNat '0' ++ ['.', '0']
  else if 0 < leading then digits.take leading.toNat ++ '.' :: digits.drop leading.toNat
  else '0' :: '.' :: List.replicate (-leading).toNat '0' ++ digits

/-- One digit, the point and the other digits, and the power of ten. -/
def scientific (style : Style) (digits : List Char) (exponent : Int) : List Char :=
  let power := toString (digits.length - 1 + exponent)
  match digits with
  | [] => []
  | [d] => d :: style.wholeMantissa.toList ++ 'e' :: power.toList
  | d :: ds => d :: '.' :: ds ++ 'e' :: power.toList

/-- The positive number `x`, positionally from `10 ^ (-4)` up to but not including `10 ^ 16`. -/
def magnitude (style : Style) (x : Decimal) : List Char :=
  let digits := Nat.toDigits 10 x.digits
  let leading := digits.length - 1 + x.exponent
  if -4 ≤ leading ∧ leading < 16 then positional digits x.exponent
  else scientific style digits x.exponent

/-- The text of a double in the given style. -/
def render (style : Style) (x : Double) : List Char :=
  let signed (negative : Bool) (text : List Char) := if negative then '-' :: text else text
  match x.value with
  | .nan => style.nan.toList
  | .infinite negative => signed negative style.infinity.toList
  | .zero negative => signed negative ['0', '.', '0']
  | .nonzero negative b => signed negative ((b.shortest?.map (magnitude style)).getD [])

end Double

end Trisort
