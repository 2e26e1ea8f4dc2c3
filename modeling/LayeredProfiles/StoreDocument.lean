/-
Stores as JSON: an object with the list of the profiles in resolution order. The parent of a profile is a member only when
there is one.
-/
import LayeredProfiles.Json
import LayeredProfiles.Store

namespace LayeredProfiles

def Properties.toJson (properties : Properties) : Json := .ofRecord (properties.mapValues fun _ v => .str v)

def Profile.toJson (p : Profile) : Json :=
  .ofMembers <|
    [("name", .str p.name), ("properties", p.properties.toJson)] ++
      match p.parent? with
      | none => []
      | some parent => [("parent", .str parent)]

def Store.toJson (s : Store) : Json := .ofMembers [("profiles", .arr (s.profiles.entries.map fun e => e.2.toJson))]

end LayeredProfiles
