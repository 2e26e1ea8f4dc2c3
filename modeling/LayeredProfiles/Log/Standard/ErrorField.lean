/-
Errors as fields of a log line.

An error is written as an object that shows its type, its message, the errors it collects, its cause, if that is an error
too, and the properties that a listing of it shows. Whatever has a text as `message` counts as an error, wherever it comes
from; any other value is written as it is, and an error without a text as message is written as the object of its listed
properties. An error that is being written is marked, and the context of a profile error is sealed against marks, so an error
with a context that counts as an error itself cannot be written (`ErrorField.meetsSealed`). Messages that a reader of JSON or
the file system words, and traces, are not modelled: of a malformed text only the type is shown, and of a file fault the type
and the code.
-/
import LayeredProfiles.Log.Standard.InheritedName

namespace LayeredProfiles

namespace ErrorField

/-- names under which no property is listed -/
def hiddenNames : List String := "raw" :: inheritedNames

/-- whether a value counts as an error -/
def isErrorLike (v : Json) : Bool := ((v.member? "message").bind Json.string?).isSome

/-- list properties behind the fields that are already there -/
def listProperties (fields : Record Json) (properties : List (String × Json)) : Record Json :=
  properties.foldl (fun fields e =>
    if fields.contains e.1 || hiddenNames.contains e.1 then fields else fields.insert e.1 e.2) fields

def optional (key : String) : Option Json → List (String × Json)
  | none => []
  | some v => [(key, v)]

/-- what an error shows before its listed properties -/
structure Head where
  type? : Option Json
  message? : Option Json
  stack? : Option Json
  collected? : Option (List Json)
  cause? : Option Json

def assemble (head : Head) (properties : List (String × Json)) : Json :=
  let first := optional "type" head.type? ++ optional "message" head.message? ++ optional "stack" head.stack? ++
    optional "aggregateErrors" (head.collected?.map .arr) ++ optional "cause" head.cause?
  .ofRecord (listProperties (.ofList first) properties)

/-! ## Values -/

/-- the type of an object that counts as an error: a member called constructor hides it behind the member called name -/
def objectType (v : Json) : Option Json :=
  match v.member? "constructor" with
  | none => some (.str "Object")
  | some _ => v.member? "name"

/-- an object that counts as an error, given its members and the items of its `errors` as they are to be shown -/
def assembleObject (v : Json) (shown : List (String × Json)) (collected? : Option (List Json)) : Json :=
  assemble
    { type? := objectType v
      message? := v.member? "message"
      stack? := v.member? "stack"
      collected? := collected?
      cause? := ((v.member? "cause").filter isErrorLike).bind fun _ => OrderedMap.find? "cause" shown }
    shown

mutual

def ofJson : Json → Json
  | .obj members =>
    if isErrorLike (.obj members) then assembleObject (.obj members) (ofMembers members) (ofErrors members)
    else .obj members
  | v => v

def ofMembers : List (String × Json) → List (String × Json)
  | [] => []
  | (key, v) :: rest => (key, ofJson v) :: ofMembers rest

/-- the items of the member `errors`, as they are shown -/
def ofErrors : List (String × Json) → Option (List Json)
  | [] => none
  | (key, .arr items) :: rest => if key = "errors" then some (ofItems items) else ofErrors rest
  | (_, _) :: rest => ofErrors rest

def ofItems : List Json → List Json
  | [] => []
  | v :: rest => ofJson v :: ofItems rest

end

/-! ## Errors -/

def countsAsError : Thrown → Bool
  | .plain _ message _ _ => message.string?.isSome
  | .value v => isErrorLike v
  | .nothing => false
  | _ => true

/-- the type of an error: its class, but a property called constructor hides that behind the name -/
def errorType : Thrown → Json
  | t@(.plain cls _ extra _) => if extra.contains "constructor" then t.name else .str cls.name
  | t => .str t.className

/-- the message of an error, unless it is worded outside this library -/
def ownMessage : Thrown → Option Json
  | .malformed | .file .. => none
  | t => some t.message

def collected? : Thrown → Option (List Json)
  | .plain _ _ extra _ => ofErrors extra.entries
  | _ => none

/-- the properties that a listing of an error shows -/
def ownProperties (t : Thrown) : List (String × Json) :=
  match t with
  | .plain _ _ extra _ => ofMembers extra.entries
  | .file code _ => [("code", .str code)]
  | t =>
    if t.isProfileError then
      [("name", t.name), ("code", Json.ofString? t.code?), ("context", ofJson (.ofRecord t.context)),
        ("isOperational", .bool t.isOperational)] ++ t.ownField
    else []

/-- an error, given its cause as it is shown, if it is shown -/
def ofError (t : Thrown) (cause? : Option Json) : Json :=
  assemble
    { type? := some (errorType t)
      message? := ownMessage t
      stack? := none
      collected? := collected? t
      cause? := cause? }
    (ownProperties t)

/-- what was thrown, as a log line shows it; nothing for no value -/
def ofThrown : Thrown → Option Json
  | .nothing => none
  | .value v => some (ofJson v)
  | t@(.plain _ message extra cause) =>
    if message.string?.isSome then some (ofError t (if countsAsError cause then ofThrown cause else none))
    else some (.ofRecord extra)
  | t@(.invalidInput _ _ cause) | t@(.profile _ _ _ _ cause) =>
    some (ofError t (if countsAsError cause then ofThrown cause else none))
  | t => some (ofError t none)

/-! ## What cannot be written -/

/-- whether writing an error, or a cause that it shows, meets a sealed context that counts as an error -/
def meetsSealed : Thrown → Bool
  | .invalidInput _ _ cause => meetsSealed cause
  | .profile _ _ context _ cause => isErrorLike (.ofRecord context) || meetsSealed cause
  | .plain _ message _ cause => message.string?.isSome && meetsSealed cause
  | _ => false

/-- the error for a mark on a sealed object -/
def sealedFault : Thrown :=
  .ofMessage .typeError "Cannot add property Symbol(circular-ref-tag), object is not extensible"

end ErrorField

end LayeredProfiles
