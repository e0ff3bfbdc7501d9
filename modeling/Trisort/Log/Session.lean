import Trisort.Log.Event

/-!
# Writing the log

A logger writes the events it admits, one line each: those whose level is within its verbosity and
whose target lies in its area. A session has at most one logger; installing a second one is refused
and changes nothing.
-/

namespace Trisort.Log

/-- The start of the targets that are logged. -/
def area : String := "dhall_kernel"

/-- Whether an event is to be logged at the given verbosity. -/
def Event.admitted (e : Event) (verbosity : Verbosity) : Bool :=
  verbosity.admits e.level && area.isPrefixOf e.target

/-- The text of a log: a line for each event that is admitted. -/
def written (verbosity : Verbosity) (events : List Event) : String :=
  (events.filter (·.admitted verbosity)).foldl (fun text e => text ++ e.line ++ "\n") ""

/-- The logging of a session. -/
structure Session where
  /-- Whether a logger is in place. -/
  installed : Bool
  /-- The verbosity in force. -/
  verbosity : Verbosity

/-- The refusal of a second logger. -/
structure AlreadyInstalled where

/-- The refusal in words. -/
def AlreadyInstalled.message (_ : AlreadyInstalled) : String :=
  "attempted to set a logger after the logging system was already initialized"

/-- The session with a logger of the given verbosity, unless it has one. -/
def Session.install (s : Session) (verbosity : Verbosity) : Except AlreadyInstalled Session :=
  if s.installed then .error ⟨⟩ else .ok ⟨true, verbosity⟩

end Trisort.Log
