/-
Directories and files as a host.

`FileTree.read` goes down name by name and answers with the octets of a file or with the first fault it meets, which is told by
its code.
-/
import LayeredProfiles.Host
import LayeredProfiles.Schema.Standard
import LayeredProfiles.Text.Utf8

namespace LayeredProfiles

inductive Node where
  | directory
  | file (octets : List UInt8)

/-- what stands at which path; the top is always a directory -/
structure FileTree where
  nodes : List (Path × Node)

namespace FileTree

/-- the greatest number of octets of a name -/
def maxName : Nat := 255

/-- the greatest number of octets of a path -/
def maxPath : Nat := 4095

def node? (tree : FileTree) (path : Path) : Option Node :=
  if path.isEmpty then some .directory else (tree.nodes.find? (·.1 == path)).map (·.2)

/-- a fault of a path, with nothing but its code -/
def fault (code : String) : Thrown := .file code code

def descend (tree : FileTree) (directory : Path) : Path → Except Thrown (List UInt8)
  | [] => match tree.node? directory with
    | none => .error (fault Thrown.notFoundCode)
    | some .directory => .error (fault "EISDIR")
    | some (.file octets) => .ok octets
  | name :: rest => match tree.node? directory with
    | none => .error (fault Thrown.notFoundCode)
    | some (.file _) => .error (fault "ENOTDIR")
    | some .directory =>
      if maxName < (utf8Encode name.toList).length then .error (fault "ENAMETOOLONG") else descend tree (directory ++ [name]) rest

def read (tree : FileTree) (path : Path) : Except Thrown (List UInt8) :=
  -- a path holds no NUL character
  if path.any (·.toList.contains '\x00') then .error (fault "ERR_INVALID_ARG_VALUE")
  else if maxPath < (utf8Encode path.text.toList).length then .error (fault "ENAMETOOLONG")
  else tree.descend [] path

/-- the host with these files and the validator of the library -/
def host (tree : FileTree) : Host := ⟨tree.read, .standard⟩

end FileTree

end LayeredProfiles
