/-!
Diagnostic records. A computation that reports progress returns its records with its result;
a command line shows those at or above the chosen level as `[LEVEL source] message`, the level
name padded to five characters.
-/
namespace TileSched

inductive LogLevel where
  | error | warn | info | debug | trace
  deriving DecidableEq, Repr, Inhabited

namespace LogLevel

def rank : LogLevel → Nat
  | .error => 1 | .warn => 2 | .info => 3 | .debug => 4 | .trace => 5

def label : LogLevel → String
  | .error => "ERROR" | .warn => "WARN " | .info => "INFO " | .debug => "DEBUG" | .trace => "TRACE"

end LogLevel

structure LogRecord where
  level : LogLevel
  source : String
  message : String
  deriving DecidableEq, Repr, Inhabited

def LogRecord.render (r : LogRecord) : String := "[" ++ r.level.label ++ " " ++ r.source ++ "] " ++ r.message

end TileSched
