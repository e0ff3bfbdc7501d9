/-!
# Labels

A label names a binder. Labels are arbitrary strings, compared code point by code point. The label
`_` is the one that a printed function type leaves out.
-/

namespace Trisort

/-- The name a binder gives to the variable it introduces. -/
abbrev Label := String

namespace Label

/-- The label `_`. -/
def anonymous : Label := "_"

/-- Whether the label is `_`. -/
def isAnonymous (x : Label) : Bool := x == anonymous

/-- The test for the anonymous label is equality with it. -/
@[simp] theorem isAnonymous_iff {x : Label} : x.isAnonymous = true ↔ x = anonymous := by
  simp [isAnonymous]

end Label

end Trisort
