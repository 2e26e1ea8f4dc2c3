/-
The line library that is used.

A line holds the number of the level, the fields of the contexts from the root down, the fields of the call, and the message, one
behind the other and keys repeated as they come. A context cannot set a few keys that have a meaning of their own for a logger
(`reservedKeys`). The field for what was thrown is written as `ErrorField` shows it, and fields that describe a request as
`Request` shows it.

A threshold is written as the name of a level, in any letter case, or as `silent` in just these letters, above which there is no
level (`Threshold.ofWord?`). A word that only passes for a threshold makes a root from which nothing can be derived
(`LineLibrary.stillborn`). Time, process and host, which real lines carry too, are not written here.
-/
import LayeredProfiles.Log.Line
import LayeredProfiles.Log.Standard.ErrorField
import LayeredProfiles.Log.Standard.Request
import LayeredProfiles.Text.LowerCase

namespace LayeredProfiles

/-! ## Thresholds -/

inductive Threshold where
  | level (l : LogLevel)
  /-- no entry is emitted -/
  | silent
  deriving DecidableEq, Repr

namespace Threshold

def default : Threshold := .level .info

def admits : Threshold → LogLevel → Bool
  | .level least, l => least.number ≤ l.number
  | .silent, _ => false

def silentWord : String := "silent"

/-- the threshold of a word -/
def ofWord? (word : String) : Option Threshold :=
  if word = silentWord then some .silent else (LogLevel.ofWord? (lowerAscii word)).map .level

end Threshold

namespace Line

/-! ## Writing a line -/

/-- the keys that a context cannot set -/
def reservedKeys : List String := [levelKey, "serializers", "formatters", "customLevels"]

/-- the key that no context may have -/
def forbiddenKey : String := "hasOwnProperty"

/-- the error for a context with the forbidden key -/
def forbiddenFault : Thrown := .ofMessage .typeError ("bindings." ++ forbiddenKey ++ " is not a function")

/-- a field that is written as in any JSON -/
def memberChars (d : String × Json) : List Char := Json.quote d.1 ++ ':' :: d.2.render

/-- a value as a line shows it; nothing for no value -/
def valueOf (key : String) : LogValue → Except Thrown (Option Json)
  | .json v => .ok (some (if key = LogFields.errorKey then ErrorField.ofJson v else v))
  | .thrown t => if ErrorField.meetsSealed t then .error ErrorField.sealedFault else .ok (ErrorField.ofThrown t)

/-- a key in a line: that of a call's field is quoted, that of a context's field stands between quotes as it is -/
def keyChars : FieldOrigin → String → List Char
  | .context, key => '"' :: key.toList ++ ['"']
  | .call, key => Json.quote key

/-- what follows a key, unless the field is left out -/
def valueChars (origin : FieldOrigin) (key : String) (v : Json) : Except Thrown (Option (List Char)) :=
  if inheritedNames.contains key then
    (Log.formatInherited origin key v).map fun
      | .dropped => none
      | .replaced v => some v.render
      | .bare text => some text.toList
  else .ok (some v.render)

def fieldTexts (origin : FieldOrigin) : List (String × LogValue) → Except Thrown (List (List Char))
  | [] => .ok []
  | (key, value) :: rest => do
    let chars? ← match ← valueOf key value with
      | none => .ok none
      | some v => valueChars origin key v
    let texts ← fieldTexts origin rest
    return (chars?.map fun chars => keyChars origin key ++ ':' :: chars).toList ++ texts

def contextTexts (context : LogFields) : Except Thrown (List (List Char)) :=
  if context.contains forbiddenKey then .error forbiddenFault
  else fieldTexts .context (context.entries.filter fun e => !reservedKeys.contains e.1)

def callTexts (fields : LogFields) : Except Thrown (List (List Char)) :=
  match Request.ofFields? fields with
  | some request => .ok [memberChars (requestKey, request)]
  | none => fieldTexts .call fields.entries

/-- the line of a log call, unless a field cannot be written -/
def ofEvent (e : LogEvent) : Except Thrown Line := do
  let contexts ← e.contexts.mapM contextTexts
  let call ← callTexts e.fields
  let texts := memberChars (levelKey, .ofNat e.level.number) :: contexts.flatten ++ call ++
    [memberChars (messageKey, .str e.message)]
  return ⟨'{' :: List.intercalate [','] texts ++ ['}']⟩

end Line

namespace LineLibrary

/-- whether a word passes for a threshold at first: every list of names has the inherited ones too, and names are also looked
up in lower case -/
def isInheritedWord (word : String) : Bool :=
  inheritedNames.contains word || inheritedNames.contains (lowerAscii word)

def badThreshold (word : String) : Thrown :=
  .ofMessage .error ("default level:" ++ word ++ " must be included in custom levels")

/-- the error for a word that only passed for a threshold -/
def unknownThreshold : Thrown := .ofMessage .error "unknown level undefined"

def writer (threshold : Threshold) : LineWriter where
  derive contexts := (contexts.mapM Line.contextTexts).map fun _ => ()
  write e := if threshold.admits e.level then (Line.ofEvent e).map some else .ok none

/-- the writer of a word that only passed for a threshold, which shows when a first logger is derived, once its context is
written -/
def stillborn : LineWriter where
  derive contexts := do
    let _ ← contexts.mapM Line.contextTexts
    throw unknownThreshold
  write _ := .ok none

def standard : LineLibrary where
  make word? :=
    match word? with
    | none => .ok (writer .default)
    | some word =>
      match Threshold.ofWord? word with
      | some threshold => .ok (writer threshold)
      | none => if isInheritedWord word then .ok stillborn else .error (badThreshold word)

end LineLibrary

end LayeredProfiles
