/-
The text of a JSON value within a sentence.

A text stands as it is, items stand one behind the other with commas between them, and an object stands as one fixed word. A
null among items is left blank. An object with a member of the name `toString` has no text, and neither has an array that
such an object stands in (`Json.display?`). A value is void when it is null, false, zero or the empty text (`Json.isVoid`).
-/
import LayeredProfiles.Json

namespace LayeredProfiles

namespace Json

def objectWord : String := "[object Object]"

/-- the member that leaves an object without text -/
def displayMember : String := "toString"

mutual

/-- the text of a value within a sentence, if it has one -/
def display? : Json → Option String
  | .null => some "null"
  | .bool b => some (if b then "true" else "false")
  | .num n => some n.text
  | .str s => some s
  | .arr items => (displayItems? items).map (String.intercalate ",")
  | .obj members => if (OrderedMap.find? displayMember members).isSome then none else some objectWord

def displayItems? : List Json → Option (List String)
  | [] => some []
  | .null :: rest => (displayItems? rest).map ("" :: ·)
  | v :: rest => (display? v).bind fun text => (displayItems? rest).map (text :: ·)

end

/-- whether a value is null, false, zero or the empty text -/
def isVoid : Json → Bool
  | .null => true
  | .bool b => !b
  | .num n => n.isZero
  | .str s => s.isEmpty
  | .arr _ | .obj _ => false

/-- a member of an object, unless it is void -/
def filled? (v : Json) (key : String) : Option Json := (v.member? key).filter fun m => !m.isVoid

end Json

end LayeredProfiles
