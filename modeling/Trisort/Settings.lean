import Trisort.Log.Level
import Trisort.Text.Lexemes

/-!
# Settings

Two settings govern a checking session: how deeply the checker may go into a term, and how much is
logged. `Settings.read` takes them from any source of keyed texts; a key that is absent leaves its
default, and the depth is asked for first. A depth that cannot be read is reported before the other
key is asked for.
-/

namespace Trisort

/-- The settings of a checking session. -/
structure Settings where
  /-- How many levels of a term the checker may enter. -/
  maxDepth : Nat
  /-- Which log events are wanted. -/
  verbosity : Log.Verbosity
deriving DecidableEq

namespace Settings

/-- The settings in force where nothing else is said. -/
def default : Settings := ⟨1024, .upTo .warn⟩

/-- The keys that settings are read from. -/
inductive Key where
  | maxDepth
  | verbosity
deriving DecidableEq

/-- The name under which a key is looked up. -/
def Key.name : Key → String
  | maxDepth => "DHALL_KERNEL_MAX_DEPTH"
  | verbosity => "DHALL_KERNEL_LOG"

/-- Why a value is refused. -/
inductive Reason where
  | numeral (e : Text.NumeralError)
  | zeroDepth
  | unknownLevel
deriving DecidableEq

/-- A value that is refused, as it was found. -/
structure Error where
  key : Key
  value : String
  reason : Reason
deriving DecidableEq

/-- The reason in words. -/
def Reason.message : Reason → String
  | numeral .empty => "cannot parse integer from empty string"
  | numeral .invalidDigit => "invalid digit found in string"
  | numeral .tooLarge => "number too large to fit in target type"
  | zeroDepth => "depth must be positive"
  | unknownLevel => "attempted to convert a string that doesn't match an existing log level"

/-- The error in words. -/
def Error.message (e : Error) : String :=
  "invalid value " ++ String.ofList (Text.quoted e.value) ++ " for " ++ e.key.name ++ ": " ++
    e.reason.message

/-- Depths are smaller than this bound. -/
def depthBound : Nat := 0x1_0000_0000

/-- The depth written in a value: a positive number, with blanks allowed around it. -/
def readDepth (value : String) : Except Reason Nat :=
  match Text.readNumeral depthBound (Text.trim value.toList) with
  | .ok 0 => .error .zeroDepth
  | .ok n => .ok n
  | .error e => .error (.numeral e)

/-- The verbosity named by a value, with blanks allowed around it. -/
def readVerbosity (value : String) : Except Reason Log.Verbosity :=
  match Log.Verbosity.ofName? (Text.trim value.toList) with
  | some v => .ok v
  | none => .error .unknownLevel

/-- The setting under a key: the default if the key is absent, else what its value says. -/
def readKey {α : Type} (key : Key) (absent : α) (parse : String → Except Reason α) :
    Option String → Except Error α
  | none => .ok absent
  | some value => (parse value).mapError (⟨key, value, ·⟩)

/-- The settings found in a source of keyed texts. -/
def read {m : Type → Type} [Monad m] (source : String → m (Option String)) :
    m (Except Error Settings) := do
  -- The second key is not looked up if the first one has a wrong value.
  match readKey .maxDepth default.maxDepth readDepth (← source Key.maxDepth.name) with
  | .error e => return .error e
  | .ok maxDepth =>
    match readKey .verbosity default.verbosity readVerbosity (← source Key.verbosity.name) with
    | .error e => return .error e
    | .ok verbosity => return .ok ⟨maxDepth, verbosity⟩

/-- The text of an environment variable. One whose bytes are not well-formed UTF-8 is absent. -/
def environmentValue (environment : List (String × ByteArray)) (name : String) : Option String :=
  (environment.lookup name).bind String.fromUTF8?

/-- The settings found in the environment. -/
def ofEnvironment (environment : List (String × ByteArray)) : Except Error Settings :=
  Id.run (read fun name => pure (environmentValue environment name))

/-- The inspection form of settings. -/
def inspect (s : Settings) : String :=
  "Config \x7b max_depth: " ++ toString s.maxDepth ++ ", log_level: " ++ s.verbosity.inspect ++
    " \x7d"

end Settings

end Trisort
