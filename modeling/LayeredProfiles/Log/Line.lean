/-
Log lines, and the library that writes them.

A line is the text of one JSON object, which may hold several fields of one key; who reads a line lets the last of them count. A
line that text went into as it was need not be JSON at all.

The library is taken from elsewhere: what is relied on is in `LineLibrary.Writes`, and `LineLibrary.standard` is one that does so.
A writer stands for a root logger of the library and for all that are derived from it; each of them is known by the contexts from
the root down.
-/
import LayeredProfiles.Json.Reader
import LayeredProfiles.Log.Event

namespace LayeredProfiles

/-- an emitted line -/
structure Line where
  chars : List Char

namespace Line

/-- the fields of a line as who reads it finds them; none for a line that is no JSON -/
def fields? (line : Line) : Option (Record Json) :=
  match Json.readChars? line.chars with
  | some (.obj members) => some (.ofList members)
  | _ => none

def levelKey : String := "level"

def messageKey : String := "msg"

/-- the key of the field that stands for a request -/
def requestKey : String := "req"

end Line

/-- names that an object has without listing them -/
def inheritedNames : List String :=
  ["constructor", "__defineGetter__", "__defineSetter__", "hasOwnProperty", "__lookupGetter__", "__lookupSetter__",
    "isPrototypeOf", "propertyIsEnumerable", "toString", "valueOf", "__proto__", "toLocaleString"]

structure LineWriter where
  /-- derive the logger with these contexts from its parent -/
  derive : List LogFields → Except Thrown Unit
  /-- the line for a call, if there is one -/
  write : LogEvent → Except Thrown (Option Line)

structure LineLibrary where
  /-- make a root without context; its threshold is given by a word, or not given -/
  make : Option String → Except Thrown LineWriter

end LayeredProfiles
