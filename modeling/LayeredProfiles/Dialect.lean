/-
Dialects: how a source spells the names of its sections.

A `configuration` source writes a profile's section `profile <name>`, with blanks around the name, and the default profile
also plainly `default`. A `credentials` source writes the bare name and has no section that starts with `profile `.
`Sections.normalize` maps the spelled names to profile names: sections that come to the same name are laid over each other
in order, and those that do not fit are left out and reported.
-/
import LayeredProfiles.Sections
import LayeredProfiles.Text.Blank

namespace LayeredProfiles

/-- the section dialect of a source -/
inductive SourceKind where
  | configuration
  | credentials
  deriving DecidableEq, Repr

namespace SourceKind

def all : List SourceKind := [.configuration, .credentials]

def word : SourceKind → String
  | .configuration => "configuration"
  | .credentials => "credentials"

/-- the dialect of a word; words are compared exactly -/
def ofWord? (word : String) : Option SourceKind := all.find? (·.word == word)

def defaultName : String := "default"

/-- what a configuration writes before a profile's name -/
def mark : String := "profile "

/-- the profile name that a spelled name stands for, if it fits the dialect -/
def profileName? (kind : SourceKind) (spelled : String) : Option String :=
  match kind, mark.toList.isPrefixOf? spelled.toList with
  | .configuration, some rest =>
    let name := trim rest
    if name.isEmpty then none else some (String.ofList name)
  | .configuration, none => if spelled = defaultName then some spelled else none
  | .credentials, some _ => none
  | .credentials, none => some spelled

end SourceKind

/-- sections under profile names, and the spelled names that did not fit -/
structure Normalized where
  sections : Sections
  ignored : List String

namespace Sections

/-- lay the sections whose names are accepted over each other under their new names, in order -/
def renameBy (accept : String → Option String) (sections : Sections) : Normalized where
  sections := sections.entries.foldl
    (fun done e => match accept e.1 with
      | some name => done.contribute name e.2
      | none => done) .empty
  ignored := sections.keys.filter fun spelled => (accept spelled).isNone

/-- the sections of a source under profile names -/
def normalize (kind : SourceKind) (sections : Sections) : Normalized := sections.renameBy kind.profileName?

/-- the same for a dialect given by its word: into an unknown dialect no section fits -/
def normalizeAs (word : String) (sections : Sections) : Normalized :=
  sections.renameBy fun spelled => (SourceKind.ofWord? word).bind (·.profileName? spelled)

end Sections

end LayeredProfiles
