/-!
# Levels of log events

Each event has a level; a verbosity says which levels are let through.
-/

namespace Trisort.Log

/-- How important an event is, from the most to the least. -/
inductive Level where
  | error
  | warn
  | info
  | debug
  | trace
deriving DecidableEq

/-- The least important level that is let through, if any. -/
inductive Verbosity where
  | off
  | upTo (level : Level)
deriving DecidableEq

namespace Level

/-- The place of a level in the order, from `1`. -/
def rank : Level → Nat
  | error => 1
  | warn => 2
  | info => 3
  | debug => 4
  | trace => 5

/-- The name of a level as it stands in log lines. -/
def name : Level → String
  | error => "ERROR"
  | warn => "WARN"
  | info => "INFO"
  | debug => "DEBUG"
  | trace => "TRACE"

/-- The name of a level as it stands in the inspection form of settings. -/
def inspect : Level → String
  | error => "Error"
  | warn => "Warn"
  | info => "Info"
  | debug => "Debug"
  | trace => "Trace"

end Level

namespace Verbosity

/-- Whether events of the given level are let through. -/
def admits : Verbosity → Level → Bool
  | off, _ => false
  | upTo limit, level => level.rank ≤ limit.rank

/-- The name of a verbosity. -/
def name : Verbosity → String
  | off => "OFF"
  | upTo level => level.name

/-- The name of a verbosity in the inspection form of settings. -/
def inspect : Verbosity → String
  | off => "Off"
  | upTo level => level.inspect

/-- All verbosities, from the quietest. -/
def all : List Verbosity :=
  [off, upTo .error, upTo .warn, upTo .info, upTo .debug, upTo .trace]

/-- The verbosity with the given name. The case of the letters `A` to `Z` does not matter. -/
def ofName? (s : List Char) : Option Verbosity :=
  all.find? fun v => v.name.toList == s.map Char.toUpper

end Verbosity

end Trisort.Log
