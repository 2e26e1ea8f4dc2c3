/-
Operations with a trace.

A traced operation gives its result and what it did on the way: the sources it loaded and its log calls, in order. Whether
the calls are kept, and how, is a matter of the sink that they go to (`Traced.through`): a call that the sink cannot take ends
the operation, and what that call throws takes the place of the result.
-/
import LayeredProfiles.Log.Sink
import LayeredProfiles.Source

namespace LayeredProfiles

/-- what happens during an operation -/
inductive TraceStep where
  /-- a source is loaded -/
  | load (source : Source)
  /-- a log call is made -/
  | log (event : LogEvent)

/-- an operation's result, and what happened on the way -/
structure Traced (α : Type) where
  result : Except Thrown α
  trace : List TraceStep

namespace Traced

variable {α : Type}

def logs (t : Traced α) : List LogEvent :=
  t.trace.filterMap fun
    | .load _ => none
    | .log event => some event

/-- what an operation gives when its log calls go to a sink, and what the sink keeps -/
def through (t : Traced α) (sink : Sink) : Except Thrown α × List LogEntry :=
  match sink.emitAll t.logs with
  | (entries, none) => (t.result, entries)
  | (entries, some fault) => (.error fault, entries)

end Traced

end LayeredProfiles
