/-
Settings from environment variables.

Three variables are read: the log level, whether lines are made pretty, and the name of the service. A missing variable stands
for its default, and no other variable counts. `Settings.ofEnv` fails with one error for all variables with a wrong value.
-/
import LayeredProfiles.Log.Sink
import LayeredProfiles.Schema

namespace LayeredProfiles

/-- how the library logs -/
structure Settings where
  level : LogLevel
  prettify : Bool
  service : String
  deriving DecidableEq, Repr

namespace Settings

def levelVariable : String := "STRATA_LOG_LEVEL"

def prettyVariable : String := "STRATA_LOG_PRETTY"

def serviceVariable : String := "STRATA_SERVICE"

/-- the variables, with their defaults -/
def schema : Schema (LogLevel × Bool × String × Unit) :=
  .object <|
    .field levelVariable (.withDefault (.oneOf (LogLevel.all.map fun l => (l.word, l))) .info) <|
    .field prettyVariable (.withDefault .boolWord false) <|
    .field serviceVariable (.withDefault .nonEmpty "strata") .none

def ofValues : LogLevel × Bool × String × Unit → Settings
  | (level, prettify, service, ()) => ⟨level, prettify, service⟩

/-- the settings that an environment gives -/
def ofEnv (z : Validator) (env : Record Json) : Except Thrown Settings := do
  match ← z.check schema (some (.ofRecord env)) with
  | .ok values => return ofValues values
  | .error issues => throw (.invalid "settings" (z.prettify issues))

/-! ## The logger of settings -/

def serviceContext (service : String) : LogFields := .ofTexts [("service", service)]

/-- a line sink with these settings, and the root logger for it -/
def logger (library : LineLibrary) (s : Settings) : Except Thrown (Sink × Logger) :=
  Sink.openLines library (some s.level.word) (serviceContext s.service)

end Settings

end LayeredProfiles
