/-
Fields under names that every object has without listing them.

A line sink looks up the key of every field among its formatters. Under a name of `inheritedNames` the look-up does not fail
but yields a function that was never meant to format (`inheritedNames.contains` tells such keys from others), and what it
makes of the value is what the line shows: `formatInherited` says what that is, name by name. The value may be lost, it may
stand in the line without quotes, or the call may fail.
-/
import LayeredProfiles.Json.Display
import LayeredProfiles.Log.Line

namespace LayeredProfiles

inductive FieldOrigin where
  | context
  | call
  deriving DecidableEq, Repr

namespace Log

/-- the error for a function that was called on no object -/
def noObject : Thrown := .ofMessage .typeError "Cannot convert undefined or null to object"

/-- what becomes of a value under an inherited name -/
inductive Formatted where
  /-- the field is left out -/
  | dropped
  /-- another value stands in the place of the value -/
  | replaced (v : Json)
  /-- a text stands in the place of the value, without quotes -/
  | bare (text : String)

/-- the text of a value as it stands in a line without quotes; null counts as an object -/
def bareText : Json → Except Thrown Formatted
  | .null => .ok (.bare Json.objectWord)
  | v =>
    match v.display? with
    | some text => .ok (.bare text)
    | none => .error .noText

/-- an outcome that a value reaches only when it can serve as a key, which takes a text -/
def asKey (v : Json) (outcome : Except Thrown Formatted) : Except Thrown Formatted :=
  match v.display? with
  | some _ => outcome
  | none => .error .noText

/-- what a line shows of a value under an inherited name -/
def formatInherited (origin : FieldOrigin) (name : String) (v : Json) : Except Thrown Formatted :=
  match name with
  | "constructor" => bareText v
  | "isPrototypeOf" => .ok (.replaced (.bool false))
  | "toString" => .ok (.bare "[object Undefined]")
  | "__lookupGetter__" | "__lookupSetter__" =>
    asKey v (if origin = .call then .ok .dropped else .error noObject)
  | "hasOwnProperty" | "propertyIsEnumerable" => asKey v (.error noObject)
  | "toLocaleString" => .error (.ofMessage .typeError "Object.prototype.toLocaleString called on null or undefined")
  | "__defineGetter__" | "__defineSetter__" =>
    .error (.ofMessage .typeError ("Object.prototype." ++ name ++ ": Expecting function"))
  | "__proto__" => .error (.ofMessage .typeError "serializers[key] is not a function")
  | _ => .error noObject

end Log

end LayeredProfiles
