/-
Errors in one shape, for reports.

`Thrown.serialize` gives every thrown value the same fields, one level for the error and one for each link of its chain of
causes. The chain ends behind a value that is no error, and behind an error without cause. Stack traces are left out unless
they are asked for.

What a run adds to a chain is not in `Thrown` and is handed in, by the depth of the links: when a profile error was made, the stack
trace that an error has, if any (`Imprint`), and what the clock shows when a link is reported. A profile error is reported with
the time at which it was made, anything else with that of the report.
-/
import LayeredProfiles.Thrown

namespace LayeredProfiles

/-- what a run adds to a link -/
structure Imprint where
  made : String
  stack? : Option Json

/-- the report on one link of a chain of causes -/
structure Level where
  name : Json
  code : String
  message : Json
  context : Record Json
  isOperational : Bool
  timestamp : String
  stack? : Option Json

inductive Serialized where
  | last (level : Level)
  | caused (level : Level) (cause : Serialized)

/-- the code of what is no profile error -/
def unknownCode : String := "unknown"

namespace Thrown

/-- the stack trace in a report, if it is asked for and there is one -/
def shownStack? (includeStack : Bool) (imprint : Imprint) : Option Json := if includeStack then imprint.stack? else none

/-- the report on one profile error -/
def profileLevel (includeStack : Bool) (imprint : Imprint) (t : Thrown) : Level :=
  ⟨t.name, t.code?.getD unknownCode, t.message, t.context, t.isOperational, imprint.made, shownStack? includeStack imprint⟩

/-- the report on one error of another kind, at a time -/
def errorLevel (includeStack : Bool) (imprint : Imprint) (now : String) (t : Thrown) : Level :=
  ⟨t.name, unknownCode, t.message, .empty, false, now, shownStack? includeStack imprint⟩

/-- the report on something that is no error; the message of a text is the text -/
def valueLevel (now : String) (v? : Option Json) : Level where
  name := .str "NonErrorThrown"
  code := unknownCode
  message := .str ((v?.bind Json.string?).getD "Unknown error")
  context := match v? with
    | none => .empty
    | some v => .ofList [("value", v)]
  isOperational := false
  timestamp := now
  stack? := none

def level (includeStack : Bool) (imprint : Imprint) (now : String) : Thrown → Level
  | .value v => valueLevel now (some v)
  | .nothing => valueLevel now none
  | t => if t.isProfileError then profileLevel includeStack imprint t else errorLevel includeStack imprint now t

/-- the report on what was thrown, with the imprints of its links and the readings of the clock, by depth -/
def serialize (includeStack : Bool) (imprints : Nat → Imprint) (clock : Nat → String) : Thrown → Serialized
  | t@(.invalidInput _ _ cause) | t@(.profile _ _ _ _ cause) | t@(.plain _ _ _ cause) =>
    match cause with
    | .nothing => .last (t.level includeStack (imprints 0) (clock 0))
    | cause =>
      .caused (t.level includeStack (imprints 0) (clock 0))
        (cause.serialize includeStack (fun depth => imprints (depth + 1)) (fun depth => clock (depth + 1)))
  | t => .last (t.level includeStack (imprints 0) (clock 0))

/-- the report that an error gives of itself: without stack traces -/
def toReport (imprints : Nat → Imprint) (clock : Nat → String) (t : Thrown) : Serialized := t.serialize false imprints clock

end Thrown

end LayeredProfiles
