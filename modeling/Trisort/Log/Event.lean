import Trisort.Context
import Trisort.Typing.Error
import Trisort.Settings

/-!
# Log events

An event is recorded as the data it speaks about; its level, its target and its text are read off it
when a log is written, and only then.
-/

namespace Trisort.Log

/-- Something worth recording. -/
inductive Event where
  /-- A typing rule is about to be applied to a term. -/
  | judged (Γ : Context) (t : Term)
  /-- A term was rejected. -/
  | rejected (t : Term) (e : TypeError)
  /-- A function labelled `x` meets its argument. -/
  | contracted (x : Label)
  /-- An operation on literals has no literal result. -/
  | overflowed (op : Operation) (m n : UInt64)
  /-- Settings were read. -/
  | loaded (s : Settings)
  /-- Anything else. -/
  | note (level : Level) (target text : String)

namespace Event

/-- How important an event is. -/
def level : Event → Level
  | judged _ _ | contracted _ => .trace
  | rejected _ _ | loaded _ => .debug
  | overflowed _ _ _ => .warn
  | note level _ _ => level

/-- The area an event belongs to. -/
def target : Event → String
  | judged _ _ | rejected _ _ => "dhall_kernel::typechecker::check"
  | contracted _ | overflowed _ _ _ => "dhall_kernel::core::normalize"
  | loaded _ => "dhall_kernel::config"
  | note _ target _ => target

/-- The text of an event. -/
def text : Event → String
  | judged Γ t => Γ.summary ++ " ⊢ " ++ t.display
  | rejected t e => "rejected " ++ t.display ++ ": " ++ e.message
  | contracted x => "beta-reducing application of λ(" ++ x ++ " : ...)"
  | overflowed op m n =>
    toString m.toNat ++ " " ++ op.sign ++ " " ++ toString n.toNat ++
      " overflows, leaving it unreduced"
  | loaded s => "loaded config: " ++ s.inspect
  | note _ _ text => text

/-- The line a log has for an event. -/
def line (e : Event) : String := e.level.name ++ " " ++ e.target ++ " - " ++ e.text

end Event

end Trisort.Log
