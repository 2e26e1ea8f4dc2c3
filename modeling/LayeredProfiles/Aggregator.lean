/-
Aggregating stores, and loading a store from several sources.

An aggregator holds the stores that were added to it, the first having priority; building resolves their merged sections and
leaves the aggregator as it is. `loadStore` builds a store from every entry in order, each resolved on its own, stops at the
first that fails, and aggregates the stores.
-/
import LayeredProfiles.Builder

namespace LayeredProfiles

/-- the stores added so far, in order -/
structure Aggregator where
  logger : Logger
  stores : List Store

namespace Aggregator

/-- an aggregator that logs below the given logger -/
def start (logger : Logger) : Aggregator :=
  ⟨logger.child (.ofTexts [("component", "profile-store-aggregator")]), []⟩

def add (a : Aggregator) (store : Store) : Aggregator := { a with stores := a.stores ++ [store] }

def failure (a : Aggregator) (t : Thrown) : LogEvent :=
  a.logger.log .error "Failed to resolve aggregated profiles" (.ofThrown t)

def success (a : Aggregator) (store : Store) : LogEvent :=
  a.logger.log .debug "Aggregated profile stores" (.ofCounts [("stores", a.stores.length), ("profiles", store.size)])

def build (a : Aggregator) : Traced Store :=
  match Store.aggregate a.stores with
  | .error fault => ⟨.error (.parents fault), [.log (a.failure (.parents fault))]⟩
  | .ok store => ⟨.ok store, [.log (a.success store)]⟩

end Aggregator

/-! ## Loading from several sources -/

/-- a source and the value given as its kind -/
structure SourceEntry where
  source : Source
  kind : Json

/-- the build of one entry -/
def SourceEntry.build (entry : SourceEntry) (host : Host) (logger : Logger) : Traced Store :=
  (((Builder.start logger).content entry.source).kind entry.kind).build host

/-- the stores of some entries in order, up to the first that fails -/
def buildEntries (host : Host) (logger : Logger) : List SourceEntry → Traced (List Store)
  | [] => ⟨.ok [], []⟩
  | entry :: rest =>
    let first := entry.build host logger
    match first.result with
    | .error t => ⟨.error t, first.trace⟩
    | .ok store =>
      let others := buildEntries host logger rest
      ⟨others.result.map (store :: ·), first.trace ++ others.trace⟩

/-- a store from several sources, the first having priority for every property -/
def loadStore (host : Host) (logger : Logger) (entries : List SourceEntry) : Traced Store :=
  let built := buildEntries host logger entries
  match built.result with
  | .error t => ⟨.error t, built.trace⟩
  | .ok stores =>
    let aggregated := (stores.foldl Aggregator.add (Aggregator.start logger)).build
    ⟨aggregated.result, built.trace ++ aggregated.trace⟩

end LayeredProfiles
