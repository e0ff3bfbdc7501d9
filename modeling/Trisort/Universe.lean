/-!
# Universes

The three sorts of the calculus, `Type : Kind : Sort`, and the rule that says in which of them a
function type lives. The rule admits functions from a universe to the same or a lower one; ordinary
functions on values, polymorphism and type operators are formable, dependent types are not.
-/

namespace Trisort

/-- The sorts of the calculus, from the lowest to the highest. -/
inductive Universe where
  | type
  | kind
  | sort
deriving DecidableEq

namespace Universe

/-- The universe a universe belongs to. The highest belongs to none. -/
def above? : Universe → Option Universe
  | type => some kind
  | kind => some sort
  | sort => none

/-- The universe of the functions whose domain lives in the first universe and whose codomain lives
in the second, if there are such functions. -/
def function? : Universe → Universe → Option Universe
  | type, type => some type
  | kind, type => some type
  | sort, type => some type
  | kind, kind => some kind
  | sort, kind => some sort
  | sort, sort => some sort
  | _, _ => none

/-- The keyword for the universe. -/
def display : Universe → String
  | type => "Type"
  | kind => "Kind"
  | sort => "Sort"

end Universe

end Trisort
