/-
What an operation can fail with.

`Thrown` holds the errors of this library (a fault in the parents, an invalid input, or a general profile error), the errors
that reading a source meets (malformed text, a fault of the file system, which has a code) and whatever else a source of the
caller's own may fail with: a plain error or any value. An error may have a cause, and the causes form a chain; `nothing` as cause is no
cause. A plain error can be given properties once it is made, and so its name and its message may become any JSON value; those of
the other errors are texts.
-/
import LayeredProfiles.Json
import LayeredProfiles.ParentsFirst

namespace LayeredProfiles

inductive PlainClass where
  | error
  | typeError
  | rangeError
  deriving DecidableEq, Repr

def PlainClass.name : PlainClass → String
  | .error => "Error"
  | .typeError => "TypeError"
  | .rangeError => "RangeError"

/-- what can be thrown -/
inductive Thrown where
  /-- the parents that sections declare cannot be resolved -/
  | parents (fault : ParentFault)
  /-- a required input is absent or malformed -/
  | invalidInput (field reason : String) (cause : Thrown)
  /-- a profile error of no particular kind -/
  | profile (message code : String) (context : Record Json) (isOperational : Bool) (cause : Thrown)
  /-- an error of someone else's, with the properties that a listing of it shows -/
  | plain (cls : PlainClass) (message : Json) (extra : Record Json) (cause : Thrown)
  /-- a text that is no JSON -/
  | malformed
  /-- a file that cannot be read -/
  | file (code message : String)
  /-- a value that is no error -/
  | value (v : Json)
  /-- no value at all -/
  | nothing

def ParentFault.message : ParentFault → String
  | .circular chain => "Circular profile relationship detected: " ++ String.intercalate " -> " chain
  | .missing parent => "Parent profile \"" ++ parent ++ "\" does not exist"

def ParentFault.code : ParentFault → String
  | .circular _ => "circular_reference"
  | .missing _ => "missing_parent"

/-- the names that a parent fault is about -/
def ParentFault.context : ParentFault → Record Json
  | .circular chain => .ofList [("chain", .arr (chain.map .str))]
  | .missing parent => .ofList [("parent", .str parent)]

namespace Thrown

/-- an invalid input without cause -/
def invalid (field reason : String) : Thrown := .invalidInput field reason .nothing

/-- a plain error that has nothing but a message -/
def ofMessage (cls : PlainClass) (message : String) : Thrown := .plain cls (.str message) .empty .nothing

/-- the error for a value that has no text -/
def noText : Thrown := ofMessage .typeError "Cannot convert object to primitive value"

def className : Thrown → String
  | .parents (.circular _) => "CircularReferenceError"
  | .parents (.missing _) => "MissingParentError"
  | .invalidInput .. => "InvalidInputError"
  | .profile .. => "ProfileError"
  | .plain cls .. => cls.name
  | .malformed => "SyntaxError"
  | .file .. => "Error"
  | .value _ | .nothing => ""

/-- the name of an error: its class, unless a plain error was given another one -/
def name : Thrown → Json
  | .plain cls _ extra _ => (extra.get? "name").getD (.str cls.name)
  | t => .str t.className

def message : Thrown → Json
  | .parents fault => .str fault.message
  | .invalidInput field reason _ => .str ("Invalid " ++ field ++ ": " ++ reason)
  | .profile message .. => .str message
  | .plain _ message .. => message
  | .malformed => .str "malformed text"
  | .file _ message => .str message
  | .value _ | .nothing => .str ""

def isProfileError : Thrown → Bool
  | .parents _ | .invalidInput .. | .profile .. => true
  | _ => false

/-- whether it is an error at all -/
def isError : Thrown → Bool
  | .value _ | .nothing => false
  | _ => true

/-- the code of a profile error, or of an error that carries one -/
def code? : Thrown → Option String
  | .parents fault => some fault.code
  | .invalidInput .. => some "invalid_input"
  | .profile _ code .. => some code
  | .plain _ _ extra _ => (extra.get? "code").bind Json.string?
  | .file code _ => some code
  | .malformed | .value _ | .nothing => none

def notFoundCode : String := "ENOENT"

/-- whether an error tells by its code that something is not there -/
def isNotFound (t : Thrown) : Bool := t.isError && t.code? == some notFoundCode

/-- what a profile error is about, apart from its message -/
def context : Thrown → Record Json
  | .parents fault => fault.context
  | .invalidInput field reason _ => .ofList [("field", .str field), ("reason", .str reason)]
  | .profile _ _ context .. => context
  | _ => .empty

/-- whether a profile error is about bad data, and not about a wrong use of the library -/
def isOperational : Thrown → Bool
  | .parents _ => true
  | .profile _ _ _ isOperational _ => isOperational
  | _ => false

/-- the one field that a kind of profile error has for itself -/
def ownField : Thrown → List (String × Json)
  | .parents (.circular chain) => [("chain", .arr (chain.map .str))]
  | .parents (.missing parent) => [("parent", .str parent)]
  | .invalidInput field _ _ => [("field", .str field)]
  | _ => []

def cause : Thrown → Thrown
  | .invalidInput _ _ cause => cause
  | .profile _ _ _ _ cause => cause
  | .plain _ _ _ cause => cause
  | _ => .nothing

end Thrown

end LayeredProfiles
