/-
Building a store from one source.

A builder holds the source and the kind that were last given to it. Building checks them, loads the source, maps its section
names and resolves the profiles; the builder itself stays as it is, so every build starts from what was given last. What a
build does on the way is its trace: at most one load, and log calls.
-/
import LayeredProfiles.Dialect
import LayeredProfiles.Json.Display
import LayeredProfiles.Store
import LayeredProfiles.Trace

namespace LayeredProfiles

/-- the dialect that a value names -/
def SourceKind.ofJson? (v : Json) : Option SourceKind := v.string?.bind ofWord?

/-- the source and the kind given so far; any value may be given as kind -/
structure Builder where
  logger : Logger
  source? : Option Source
  kind? : Option Json

namespace Builder

/-- a builder that logs below the given logger -/
def start (logger : Logger) : Builder :=
  ⟨logger.child (.ofTexts [("component", "profile-store-builder")]), none, none⟩

def content (b : Builder) (source : Source) : Builder := { b with source? := some source }

def kind (b : Builder) (kind : Json) : Builder := { b with kind? := some kind }

/-- how a sentence names the kind given, or that none was -/
def shownKind? : Option Json → Option String
  | none => some "undefined"
  | some kind => kind.display?

/-- the error for a kind that is none; the sentence names the kind, so a kind without text has an error of its own -/
def badKind (kind? : Option Json) : Thrown :=
  match shownKind? kind? with
  | some shown => .invalid "kind" ("expected \"configuration\" or \"credentials\", got " ++ shown)
  | none => .noText

def noContent : Thrown := .invalid "content" "a section source is required"

/-- the logger of one build -/
def buildLogger (b : Builder) (source : Source) (kind : SourceKind) : Logger :=
  b.logger.child (.ofTexts [("source", source.name), ("kind", kind.word)])

def warning (logger : Logger) (spelled : String) : LogEvent :=
  logger.log .warn "Ignoring section that does not fit the source dialect" (.ofTexts [("section", spelled)])

def failure (logger : Logger) (t : Thrown) : LogEvent :=
  logger.log .error "Failed to build profile store" (.ofThrown t)

def success (logger : Logger) (sections profiles : Nat) : LogEvent :=
  logger.log .debug "Built profile store" (.ofCounts [("sections", sections), ("profiles", profiles)])

/-- load a source, map its section names and resolve the profiles -/
def buildFrom (host : Host) (logger : Logger) (source : Source) (kind : SourceKind) : Traced Store :=
  match source.load host with
  | .error t => ⟨.error t, [.load source, .log (failure logger t)]⟩
  | .ok raw =>
    let normalized := raw.normalize kind
    let before := .load source :: normalized.ignored.map fun spelled => .log (warning logger spelled)
    match Store.resolve normalized.sections with
    | .error fault => ⟨.error (.parents fault), before ++ [.log (failure logger (.parents fault))]⟩
    | .ok store => ⟨.ok store, before ++ [.log (success logger raw.size store.size)]⟩

/-- build a store from the source and the kind given last -/
def build (b : Builder) (host : Host) : Traced Store :=
  match b.source? with
  | none => ⟨.error noContent, []⟩
  | some source =>
    match b.kind?.bind SourceKind.ofJson? with
    | none => ⟨.error (badKind b.kind?), []⟩
    | some kind => buildFrom host (b.buildLogger source kind) source kind

end Builder

end LayeredProfiles
