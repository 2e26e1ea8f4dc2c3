/-
Levels of log entries, in ascending order from `trace` to `fatal`. The names of levels are exact (`LogLevel.ofWord?`).
-/
import LayeredProfiles.Json

namespace LayeredProfiles

inductive LogLevel where
  | trace
  | debug
  | info
  | warn
  | error
  | fatal
  deriving DecidableEq, Repr

namespace LogLevel

def all : List LogLevel := [.trace, .debug, .info, .warn, .error, .fatal]

def word : LogLevel → String
  | .trace => "trace"
  | .debug => "debug"
  | .info => "info"
  | .warn => "warn"
  | .error => "error"
  | .fatal => "fatal"

/-- the number of a level, by which levels are compared and which lines carry -/
def number : LogLevel → Nat
  | .trace => 10
  | .debug => 20
  | .info => 30
  | .warn => 40
  | .error => 50
  | .fatal => 60

/-- the level of a name; names are compared exactly -/
def ofWord? (word : String) : Option LogLevel := all.find? (·.word == word)

def ofJson? (v : Json) : Option LogLevel := v.string?.bind ofWord?

end LogLevel

end LayeredProfiles
