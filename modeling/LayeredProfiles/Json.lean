/-
JSON values and their compact text.

An object lists its members in record order, as `Json.ofRecord` puts them. `Json.render` writes a value without blanks; in a
string it escapes the quote, the backslash, the control characters and a half of a pair without its partner, and nothing else
(`quote`).
-/
import LayeredProfiles.Number
import LayeredProfiles.OrderedMap
import LayeredProfiles.Text.Units

namespace LayeredProfiles

/-- a JSON value; the members of an object stand in record order -/
inductive Json where
  | null
  | bool (b : Bool)
  | num (n : Number)
  | str (s : String)
  | arr (items : List Json)
  | obj (members : List (String × Json))
  deriving Inhabited, BEq, Repr

namespace Json

def ofRecord (members : Record Json) : Json := .obj members.entries

/-- the object with the given members, a later one replacing an earlier one of the same key -/
def ofMembers (members : List (String × Json)) : Json := ofRecord (.ofList members)

def ofNat (n : Nat) : Json := .num (.ofNat n)

/-- a text, or null where there is none -/
def ofString? : Option String → Json
  | none => .null
  | some s => .str s

def member? (v : Json) (key : String) : Option Json :=
  match v with
  | .obj members => OrderedMap.find? key members
  | _ => none

def string? : Json → Option String
  | .str s => some s
  | _ => none

/-- the word for the type of a value; infinite numbers have a word of their own -/
def typeWord : Json → String
  | .null => "null"
  | .bool _ => "boolean"
  | .num (.infinite false) => "Infinity"
  | .num (.infinite true) => "-Infinity"
  | .num (.finite ..) => "number"
  | .str _ => "string"
  | .arr _ => "array"
  | .obj _ => "object"

/-! ## Text -/

/-- the four hexadecimal digits of a number below 2¹⁶, letters in lower case -/
def hex4 (n : Nat) : List Char :=
  [n / 4096, n / 256, n / 16, n].map fun d => Nat.digitChar (d % 16)

/-- a character inside a string -/
def quoteChar (c : Char) : List Char :=
  if c = '"' then ['\\', '"']
  else if c = '\\' then ['\\', '\\']
  else if 0x20 ≤ c.toNat then [c]
  else match c.toNat with
    | 8 => ['\\', 'b']
    | 9 => ['\\', 't']
    | 10 => ['\\', 'n']
    | 12 => ['\\', 'f']
    | 13 => ['\\', 'r']
    | n => '\\' :: 'u' :: hex4 n

/-- a unit inside a string that is in no pair -/
def quoteLone (c : Char) : List Char := if isHalf c then '\\' :: 'u' :: hex4 (halfNumber c) else quoteChar c

/-- the units inside a string -/
def quoteUnits : List Char → List Char
  | [] => []
  | [c] => quoteLone c
  | c :: d :: rest =>
    if isHighHalf c && isLowHalf d then c :: d :: quoteUnits rest else quoteLone c ++ quoteUnits (d :: rest)

/-- a string in quotes -/
def quote (s : String) : List Char := '"' :: quoteUnits s.toList ++ ['"']

mutual

/-- the compact text of a value; a number that is infinite has no text of its own and is written as null -/
def render : Json → List Char
  | .null => "null".toList
  | .bool true => "true".toList
  | .bool false => "false".toList
  | .num (.infinite _) => "null".toList
  | .num n => n.text.toList
  | .str s => quote s
  | .arr items => '[' :: renderItems items ++ [']']
  | .obj members => '{' :: renderMembers members ++ ['}']

def renderItems : List Json → List Char
  | [] => []
  | [v] => render v
  | v :: rest => render v ++ ',' :: renderItems rest

def renderMembers : List (String × Json) → List Char
  | [] => []
  | [(key, v)] => quote key ++ ':' :: render v
  | (key, v) :: rest => quote key ++ ':' :: render v ++ ',' :: renderMembers rest

end

def text (v : Json) : String := String.ofList v.render

end Json

end LayeredProfiles
