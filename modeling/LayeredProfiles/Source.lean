/-
Sources: where sections come from.

A source has a name for people and can be loaded. Loading an inline source gives its sections in their own order. Loading a
document reads a file, by a path that is relative to the source's directory; a file that is not there is no fault when the
source is not required, and every other error of reading is passed on. A source of the caller's own may fail with anything.
-/
import LayeredProfiles.Document
import LayeredProfiles.Host
import LayeredProfiles.Text.Utf8

namespace LayeredProfiles

/-- where sections come from -/
inductive Source where
  /-- sections held in memory -/
  | inline (label : String) (sections : SectionInput)
  /-- a JSON document in a file -/
  | document (file : String) (required : Bool) (directory : Path)
  /-- a source whose loading fails -/
  | failing (label : String) (error : Thrown)

namespace Source

/-- the label of an inline source that was given none -/
def defaultLabel : String := "inline"

def name : Source → String
  | .inline label _ => "object:" ++ label
  | .document file .. => "json:" ++ file
  | .failing label _ => label

/-- the sections of a source, with names as they are written there -/
def load (host : Host) : Source → Except Thrown Sections
  | .inline _ sections => .ok sections.toSections
  | source@(.document file required directory) =>
    match host.read (Path.resolve directory file) with
    | .ok octets => Document.read host.validator source.name (utf8Decode octets)
    | .error t => if !required && t.isNotFound then .ok .empty else .error t
  | .failing _ error => .error error

end Source

end LayeredProfiles
