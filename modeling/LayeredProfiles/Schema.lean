/-
Schemas, and validators that check values against them.

A schema says what a value should be, and what it then stands for is in its type: a text, a truth value, a record, or the values of
an object's fields. Checking is the business of a validator, which this library takes from elsewhere (`Validator`): a check gives
what the value stands for or lists what is wrong with it, and the check itself may fail; a list of issues can be made a text.

What is relied on is stated kind by kind of schema: `Validator.Reports` for the texts, `Validator.ChecksRecords` for records of
texts, `Validator.ChecksVariables` for objects with fields that are options, words for truth values or texts that are not empty.
-/
import LayeredProfiles.Issue
import LayeredProfiles.Json.Count
import LayeredProfiles.Text.LowerCase
import LayeredProfiles.Thrown

namespace LayeredProfiles

mutual

/-- what a value should be, by the type of what it then stands for -/
inductive Schema : Type → Type 1 where
  | string : Schema String
  | nonEmpty : Schema String
  /-- one of some words, each with what it stands for -/
  | oneOf {α : Type} (options : List (String × α)) : Schema α
  /-- a word for a truth value -/
  | boolWord : Schema Bool
  | withDefault {α : Type} (schema : Schema α) (value : α) : Schema α
  /-- an object with any keys and values of one kind -/
  | record {α : Type} (value : Schema α) : Schema (Record α)
  | object {α : Type} (fields : Fields α) : Schema α

/-- fields of an object -/
inductive Fields : Type → Type 1 where
  | none : Fields Unit
  | field {α β : Type} (name : String) (schema : Schema α) (others : Fields β) : Fields (α × β)

end

/-- what a value stands for, or all that is wrong with it -/
abbrev Checked (α : Type) := Except (List Issue) α

namespace Checked

variable {α β : Type}

def under (key : String) (c : Checked α) : Checked α := c.mapError fun issues => issues.map (·.under key)

/-- two results as one, the issues of the first in front -/
def both : Checked α → Checked β → Checked (α × β)
  | .ok a, .ok b => .ok (a, b)
  | .ok _, .error issues => .error issues
  | .error issues, .ok _ => .error issues
  | .error issues, .error more => .error (issues ++ more)

/-- the results of some members as one -/
def all : List (String × Checked α) → Checked (List (String × α))
  | [] => .ok []
  | (key, c) :: rest => (both (under key c) (all rest)).map fun (a, done) => (key, a) :: done

end Checked

structure Validator where
  /-- check a value, or that there is none -/
  check : {α : Type} → Schema α → Option Json → Except Thrown (Checked α)
  /-- a text about issues -/
  prettify : List Issue → String

/-! ## Words and lengths -/

def trueWords : List String := ["true", "1", "yes", "on", "y", "enabled"]

def falseWords : List String := ["false", "0", "no", "off", "n", "disabled"]

def wordsFor (b : Bool) : List String := if b then trueWords else falseWords

/-- a length that has no text, so that it counts for nothing -/
def Unmeasured (v : Json) : Prop := ∃ length, v.member? "length" = some length ∧ length.count? = none

/-- something that is no text, with a length that is not at least one, and what it should be -/
inductive Short : Json → String → Prop
  | array : Short (.arr []) "array to have >=1 items"
  | member {v length : Json} {n? : Option Number} (has : v.member? "length" = some length) (counts : length.count? = some n?)
      (less : n?.any Number.atLeastOne = false) : Short v "unknown to be >=1"

/-- the sentence about a word that is none of those allowed -/
def invalidOption (allowed : List String) : String :=
  "Invalid option: expected one of " ++ String.intercalate "|" (allowed.map fun w => "\"" ++ w ++ "\"")

/-! ## What is relied on -/

namespace Validator

/-- the text about issues has an entry for each, in the order of the paths' lengths -/
structure Reports (z : Validator) : Prop where
  prettify : ∀ issues, z.prettify issues = Issue.report issues

/-- texts, and records whose values are checked in their order; the name `__proto__` is no key of a record -/
structure ChecksRecords (z : Validator) : Prop extends z.Reports where
  string : ∀ s, z.check .string (some (.str s)) = .ok (.ok s)
  noString : ∀ v, (∀ s, v ≠ .str s) →
    z.check .string (some v) = .ok (.error [⟨[], "Invalid input: expected string, received " ++ v.typeWord⟩])
  record : ∀ {α : Type} (schema : Schema α) (members : Record Json) (checked : Json → Checked α),
    "__proto__" ∉ members.keys → (∀ e ∈ members.entries, z.check schema (some e.2) = .ok (checked e.2)) →
      z.check (.record schema) (some (.ofRecord members)) =
        .ok ((Checked.all (members.entries.map fun e => (e.1, checked e.2))).map .ofList)
  noRecord : ∀ {α : Type} (schema : Schema α) v, (∀ members, v ≠ .obj members) →
    z.check (.record schema) (some v) = .ok (.error [⟨[], "Invalid input: expected record, received " ++ v.typeWord⟩])

/-- objects whose fields are checked in the order of the schema, and fields with a default that are options, words for truth
values, or texts that are not empty; what ends a word in lower case is left open. A value that is no text is also told to be too
short, when it has a length. -/
structure ChecksVariables (endsWord : List Char → List Char → Bool) (z : Validator) : Prop extends z.Reports where
  noFields : ∀ members : Record Json, z.check (.object .none) (some (.ofRecord members)) = .ok (.ok ())
  field : ∀ {α β : Type} (name : String) (schema : Schema α) (others : Fields β) (members : Record Json),
    z.check (.object (.field name schema others)) (some (.ofRecord members)) = do
      let first ← z.check schema (members.get? name)
      let rest ← z.check (.object others) (some (.ofRecord members))
      return Checked.both (Checked.under name first) rest
  missing : ∀ {α : Type} (schema : Schema α) (value : α), z.check (.withDefault schema value) none = .ok (.ok value)
  present : ∀ {α : Type} (schema : Schema α) (value : α) v, z.check (.withDefault schema value) (some v) = z.check schema (some v)
  option : ∀ {α : Type} (options : List (String × α)) e, (options.map (·.1)).Nodup → e ∈ options →
    z.check (.oneOf options) (some (.str e.1)) = .ok (.ok e.2)
  noOption : ∀ {α : Type} (options : List (String × α)) v, (∀ e ∈ options, v ≠ .str e.1) →
    z.check (.oneOf options) (some v) = .ok (.error [⟨[], invalidOption (options.map (·.1))⟩])
  boolWord : ∀ w b, lowerCase endsWord w ∈ wordsFor b → z.check .boolWord (some (.str w)) = .ok (.ok b)
  noBoolWord : ∀ w, (∀ b, lowerCase endsWord w ∉ wordsFor b) →
    z.check .boolWord (some (.str w)) = .ok (.error [⟨[], invalidOption (trueWords ++ falseWords)⟩])
  noWord : ∀ v, (∀ w, v ≠ .str w) →
    z.check .boolWord (some v) = .ok (.error [⟨[], "Invalid input: expected string, received " ++ v.typeWord⟩])
  nonEmpty : ∀ s, s ≠ "" → z.check .nonEmpty (some (.str s)) = .ok (.ok s)
  empty : z.check .nonEmpty (some (.str "")) = .ok (.error [⟨[], "Too small: expected string to have >=1 characters"⟩])
  long : ∀ v, (∀ s, v ≠ .str s) → ¬ Unmeasured v → (∀ what, ¬ Short v what) →
    z.check .nonEmpty (some v) = .ok (.error [⟨[], "Invalid input: expected string, received " ++ v.typeWord⟩])
  short : ∀ v what, (∀ s, v ≠ .str s) → Short v what →
    z.check .nonEmpty (some v) =
      .ok (.error [⟨[], "Invalid input: expected string, received " ++ v.typeWord⟩, ⟨[], "Too small: expected " ++ what⟩])
  unmeasured : ∀ v, (∀ s, v ≠ .str s) → Unmeasured v → z.check .nonEmpty (some v) = .error .noText

end Validator

end LayeredProfiles
