/-
Sinks: where log calls go.

A sink drops every call, keeps a record of every call, or hands calls to a writer of lines. Only writing lines can fail: a root
logger (`Sink.openLines`) or a child (`Sink.child`) whose context cannot be written is not made, and a call that cannot be written
throws (`Sink.emit`). Of several calls a sink keeps those up to the first that throws (`Sink.emitAll`).
-/
import LayeredProfiles.Log.Line

namespace LayeredProfiles

inductive Sink where
  | discard
  | records
  | lines (writer : LineWriter)

/-- what a sink keeps of a call -/
inductive LogEntry where
  | record (r : LogRecord)
  | line (l : Line)

namespace Sink

def emit : Sink → LogEvent → Except Thrown (Option LogEntry)
  | .discard, _ => .ok none
  | .records, e => .ok (some (.record e.record))
  | .lines writer, e => (writer.write e).map (·.map .line)

/-- what a sink keeps of several calls, in order, and what the first call throws that throws -/
def emitAll (sink : Sink) : List LogEvent → List LogEntry × Option Thrown
  | [] => ([], none)
  | e :: rest =>
    match sink.emit e with
    | .error t => ([], some t)
    | .ok kept? =>
      let (entries, fault?) := sink.emitAll rest
      (kept?.toList ++ entries, fault?)

def child (sink : Sink) (l : Logger) (context : LogFields) : Except Thrown Logger :=
  match sink with
  | .lines writer => (writer.derive (l.contexts ++ [context])).map fun _ => l.child context
  | _ => .ok (l.child context)

/-- a line sink of a library, and a root logger for it; the threshold is given by a word, and the empty word gives none -/
def openLines (library : LineLibrary) (word? : Option String) (context : LogFields) : Except Thrown (Sink × Logger) := do
  let writer ← library.make (word?.filter (· ≠ ""))
  writer.derive [context]
  return (.lines writer, .root context)

end Sink

end LayeredProfiles
