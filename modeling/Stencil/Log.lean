/-!
# Log records

What a compile says about its progress. Records come in four levels; whoever listens chooses the
lowest level of interest.
-/

namespace Stencil

/-- How important a record is. -/
inductive LogLevel
  | debug
  | info
  | warn
  | error
  deriving DecidableEq, Repr

namespace LogLevel

/-- The place of the level among the others. -/
def rank : LogLevel → Nat
  | debug => 0
  | info => 1
  | warn => 2
  | error => 3

/-- The name of the level. -/
def text : LogLevel → String
  | debug => "debug"
  | info => "info"
  | warn => "warn"
  | error => "error"

/-- Whether a listener at level `lowest` hears records of this level. -/
def isHeardAt (lowest level : LogLevel) : Bool := lowest.rank ≤ level.rank

end LogLevel

/-- One thing that was said. -/
structure LogRecord where
  level : LogLevel
  message : String
  deriving DecidableEq, Repr

end Stencil
