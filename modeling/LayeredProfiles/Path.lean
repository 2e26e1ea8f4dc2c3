/-
Paths of files.

A path is a list of names from the top. `Path.resolve` reads a written path against a directory by its text alone: `.`, empty
names and a name followed by `..` vanish before any file is looked at.
-/

namespace LayeredProfiles

/-- the names from the top -/
abbrev Path := List String

namespace Path

def walk (path : Path) (name : String) : Path :=
  if name = "" || name = "." then path
  else if name = ".." then path.dropLast
  else path ++ [name]

/-- a written path below a directory, even when it begins with a slash -/
def below (directory : Path) (written : String) : Path := (written.splitOn "/").foldl walk directory

/-- a written path, which is relative to a directory unless it begins with a slash -/
def resolve (directory : Path) (written : String) : Path :=
  match written.toList with
  | '/' :: _ => below [] written
  | _ => below directory written

def text (path : Path) : String := "/" ++ String.intercalate "/" path

end Path

end LayeredProfiles
