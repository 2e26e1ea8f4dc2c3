/-
The validator that the library is used with.

A record takes all members of an object but leaves the name `__proto__` out of what it gives. An object looks only at its fields,
in the order of the schema. Of a value that should be a text with a length, type and length are checked apart: whatever has a
length must have one of at least one, and a length that has no text cannot be checked.
-/
import LayeredProfiles.Schema

namespace LayeredProfiles

namespace Validator.Standard

def wrong {α : Type} (messages : List String) : Checked α := .error (messages.map fun message => ⟨[], message⟩)

/-- the word for the type of a value, or of none -/
def typeWord : Option Json → String
  | none => "undefined"
  | some v => v.typeWord

def notType (expected : String) (v? : Option Json) : String :=
  "Invalid input: expected " ++ expected ++ ", received " ++ typeWord v?

def checkString : Option Json → Checked String
  | some (.str s) => .ok s
  | v? => wrong [notType "string" v?]

def checkOption {α : Type} (options : List (String × α)) (v? : Option Json) : Checked α :=
  match (v?.bind Json.string?).bind fun w => options.find? (·.1 == w) with
  | some e => .ok e.2
  | none => wrong [invalidOption (options.map (·.1))]

/-- only ASCII letters have the letters of these words as lower case -/
def boolOfWord? (word : String) : Option Bool :=
  let word := lowerAscii word
  if trueWords.contains word then some true
  else if falseWords.contains word then some false
  else none

def checkBoolWord : Option Json → Checked Bool
  | some (.str w) =>
    match boolOfWord? w with
    | some b => .ok b
    | none => wrong [invalidOption (trueWords ++ falseWords)]
  | v? => wrong [notType "string" v?]

def tooShort (what : String) : String := "Too small: expected " ++ what

/-- the sentences about a length -/
def lengthFaults (v : Json) : Except Thrown (List String) :=
  match v with
  | .str s => .ok (if s.isEmpty then [tooShort "string to have >=1 characters"] else [])
  | .arr items => .ok (if items.isEmpty then [tooShort "array to have >=1 items"] else [])
  | v =>
    match v.member? "length" with
    | none => .ok []
    | some length =>
      match length.count? with
      | none => .error .noText
      | some n? => .ok (if n?.any Number.atLeastOne then [] else [tooShort "unknown to be >=1"])

def checkNonEmpty : Option Json → Except Thrown (Checked String)
  | none => .ok (wrong [notType "string" none])
  | some v => (lengthFaults v).map fun faults =>
    match v with
    | .str s => if faults = [] then .ok s else wrong faults
    | v => wrong (notType "string" (some v) :: faults)

mutual

def check : {α : Type} → Schema α → Option Json → Except Thrown (Checked α)
  | _, .string, v? => .ok (checkString v?)
  | _, .nonEmpty, v? => checkNonEmpty v?
  | _, .oneOf options, v? => .ok (checkOption options v?)
  | _, .boolWord, v? => .ok (checkBoolWord v?)
  | _, .withDefault _ value, none => .ok (.ok value)
  | _, .withDefault schema _, some v => check schema (some v)
  | _, .record schema, v? =>
    match v? with
    | some (.obj members) => do
      let checked ← members.mapM fun e => return (e.1, ← check schema (some e.2))
      return (Checked.all checked).map fun l => .ofList (l.filter (·.1 ≠ "__proto__"))
    | v? => .ok (wrong [notType "record" v?])
  | _, .object fields, v? =>
    match v? with
    | some (.obj members) => checkFields fields members
    | v? => .ok (wrong [notType "object" v?])

def checkFields : {α : Type} → Fields α → List (String × Json) → Except Thrown (Checked α)
  | _, .none, _ => .ok (.ok ())
  | _, .field name schema others, members => do
    let first ← check schema (OrderedMap.find? name members)
    let rest ← checkFields others members
    return Checked.both (Checked.under name first) rest

end

end Validator.Standard

def Validator.standard : Validator where
  check := Standard.check
  prettify := Issue.report

end LayeredProfiles
