/-
JSON documents of sections: an object whose members are sections, each an object whose members are strings.

`Document.read` takes the text of a document apart and gives its sections in record order, or fails with the first fault in
this order: the text is no JSON; an object at any depth uses the reserved name `__proto__`; the value does not have the shape.
In the last case the error lists the issues that the validator finds.
-/
import LayeredProfiles.Json.Reader
import LayeredProfiles.Schema
import LayeredProfiles.Sections

namespace LayeredProfiles

namespace Document

/-! ## The reserved name -/

/-- the member name that no object may use -/
def reservedName : String := "__proto__"

mutual

/-- whether a value uses the reserved name, at any depth -/
def usesReserved : Json → Bool
  | .arr items => itemsUseReserved items
  | .obj members => membersUseReserved members
  | _ => false

def itemsUseReserved : List Json → Bool
  | [] => false
  | v :: rest => usesReserved v || itemsUseReserved rest

def membersUseReserved : List (String × Json) → Bool
  | [] => false
  | (key, v) :: rest => key == reservedName || usesReserved v || membersUseReserved rest

end

/-! ## Reading -/

/-- an object of objects of strings -/
def schema : Schema (Record Properties) := .record (.record .string)

/-- the sections in the text of a document, which has a name for people -/
def read (z : Validator) (name : String) (text : List Char) : Except Thrown Sections :=
  match Json.readChars? text with
  | none => .error (.invalidInput "content" (name ++ " is not valid JSON") .malformed)
  | some v =>
    if usesReserved v then .error (.invalid "content" (name ++ " uses the reserved name \"" ++ reservedName ++ "\""))
    else do
      match ← z.check schema (some v) with
      | .ok sections => return SectionInput.toSections (.record sections)
      | .error issues =>
        throw (.invalid "content" (name ++ " must map section names to string properties\n" ++ z.prettify issues))

end Document

end LayeredProfiles
