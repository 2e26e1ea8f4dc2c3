/-
Issues: what is wrong with a value, and where.

An issue is a sentence and the path to the place that it is about. An entry writes it for people, with the place on a line of its
own unless this is the value as a whole. A report has an entry for each issue, those with shorter paths first and otherwise in
their order.
-/
import LayeredProfiles.Json

namespace LayeredProfiles

structure Issue where
  path : List String
  message : String
  deriving DecidableEq, Repr

namespace Issue

/-- an issue of what stands under a key -/
def under (key : String) (i : Issue) : Issue := ⟨key :: i.path, i.message⟩

/-- whether a character can stand in a path as it is -/
def isPlain (c : Char) : Bool := c.isAlphanum || c = '_' || c = '$'

/-- one step of a path, with what goes before a bare name -/
def stepText (point name : String) : String :=
  if name.toList.all isPlain then point ++ name else "[" ++ String.ofList (Json.quote name) ++ "]"

/-- a path: a name of plain characters stands bare, any other one quoted in brackets; a point goes before every bare name
but the first -/
def pathText : List String → String
  | [] => ""
  | name :: rest => stepText "" name ++ String.join (rest.map (stepText "."))

def entry (i : Issue) : String :=
  "✖ " ++ i.message ++ if i.path = [] then "" else "\n  → at " ++ pathText i.path

def report (issues : List Issue) : String :=
  String.intercalate "\n" ((issues.mergeSort fun i j => i.path.length ≤ j.path.length).map entry)

end Issue

end LayeredProfiles
