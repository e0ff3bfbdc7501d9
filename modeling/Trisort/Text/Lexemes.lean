import Trisort.Text.Characters

/-!
# Trimmed texts, numerals and quoted strings

The forms in which values are written down: with blanks around them, as decimal numerals, and in
double quotes.
-/

namespace Trisort.Text

/-! ### Blanks around a text -/

/-- The characters without the blanks at either end. -/
def trim (s : List Char) : List Char :=
  ((s.dropWhile isBlank).reverse.dropWhile isBlank).reverse

/-! ### Decimal numerals

A numeral is a nonempty row of the digits `0` to `9`, possibly after a single `+`. It is read from
left to right, and reading stops at the first character that is not a digit or takes the number out
of range.
-/

/-- Why a text is not the numeral of a number in range. -/
inductive NumeralError where
  | empty
  | invalidDigit
  | tooLarge
deriving DecidableEq

/-- The number that a digit stands for. -/
def digit? (c : Char) : Option Nat :=
  if '0' ≤ c ∧ c ≤ '9' then some (c.toNat - '0'.toNat) else none

/-- Reads digits after those that make up `n`, as long as the number stays below `bound`. -/
def readDigits (bound : Nat) : Nat → List Char → Except NumeralError Nat
  | n, [] => .ok n
  | n, c :: cs =>
    match digit? c with
    | none => .error .invalidDigit
    | some k => if 10 * n + k < bound then readDigits bound (10 * n + k) cs else .error .tooLarge

/-- Reads a numeral of a number below `bound`. -/
def readNumeral (bound : Nat) : List Char → Except NumeralError Nat
  | [] => .error .empty
  | ['+'] => .error .invalidDigit
  | '+' :: cs => readDigits bound 0 cs
  | cs => readDigits bound 0 cs

/-! ### Quoted strings

A string in double quotes, with escapes for the quote, the backslash, the common controls, and every
character that does not print or would join the character in front of it.
-/

/-- A character by its code point, in hexadecimal between braces. -/
def escapeByCode (c : Char) : List Char :=
  '\\' :: 'u' :: '\x7b' :: Nat.toDigits 16 c.toNat ++ ['\x7d']

/-- A character as it stands between double quotes. -/
def escape (c : Char) : List Char :=
  if c = '\x00' then ['\\', '0']
  else if c = '\t' then ['\\', 't']
  else if c = '\r' then ['\\', 'r']
  else if c = '\n' then ['\\', 'n']
  else if c = '"' || c = '\\' then ['\\', c]
  else if combining.contains c || unprintable.contains c then escapeByCode c
  else [c]

/-- The string in double quotes. -/
def quoted (s : String) : List Char := '"' :: s.toList.flatMap escape ++ ['"']

end Trisort.Text
