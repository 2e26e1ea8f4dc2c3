/-
Log calls, and the records of them.

A `Logger` is known by the contexts on the way from the root to it; deriving a child adds one context. A call on it is a
`LogEvent`, which keeps these contexts and the fields of the call apart. What becomes of an event is a matter of the sink:
`LogEvent.record` lays the contexts over each other, the nearest on top, and the fields of the call over them all.
-/
import LayeredProfiles.Log.Level
import LayeredProfiles.Thrown

namespace LayeredProfiles

/-- the value of a log field: a JSON value, or something that was thrown -/
inductive LogValue where
  | json (v : Json)
  | thrown (t : Thrown)

abbrev LogFields := Record LogValue

namespace LogFields

def ofTexts (l : List (String × String)) : LogFields := .ofList (l.map fun e => (e.1, .json (.str e.2)))

def ofCounts (l : List (String × Nat)) : LogFields := .ofList (l.map fun e => (e.1, .json (.ofNat e.2)))

def errorKey : String := "err"

def ofThrown (t : Thrown) : LogFields := .ofList [(errorKey, .thrown t)]

end LogFields

/-- one log call: the contexts from the root down, and what the call says -/
structure LogEvent where
  contexts : List LogFields
  level : LogLevel
  message : String
  fields : LogFields

/-- a place in the tree of loggers: the contexts from the root down to it -/
structure Logger where
  contexts : List LogFields

namespace Logger

/-- a root with a context of its own -/
def root (context : LogFields) : Logger := ⟨[context]⟩

def child (l : Logger) (context : LogFields) : Logger := ⟨l.contexts ++ [context]⟩

def log (l : Logger) (level : LogLevel) (message : String) (fields : LogFields) : LogEvent :=
  ⟨l.contexts, level, message, fields⟩

end Logger

/-- a log call as a recording sink keeps it -/
structure LogRecord where
  level : LogLevel
  message : String
  payload : LogFields

namespace LogEvent

/-- the contexts as one, the nearest on top -/
def context (e : LogEvent) : LogFields := e.contexts.foldl .overlay .empty

/-- the record of a call; a recording sink keeps calls of every level -/
def record (e : LogEvent) : LogRecord := ⟨e.level, e.message, e.context.overlay e.fields⟩

end LogEvent

def recordsAt (level : LogLevel) (records : List LogRecord) : List LogRecord := records.filter (·.level = level)

end LayeredProfiles
