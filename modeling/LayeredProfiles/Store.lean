/-
Profile stores: resolved profiles in an order in which parents stand before their children.

A store is made of sections by `Store.resolve`, which puts parents first and then builds the profiles, or of several stores
by `Store.aggregate`, which merges their sections, the first store having priority for every property, and resolves the
result anew. `lineage` lists a profile and its ancestors; since handles point towards the front, one pass over the profiles
from the back finds them all.
-/
import LayeredProfiles.ParentsFirst
import LayeredProfiles.Profile

namespace LayeredProfiles

/-- resolved profiles in resolution order -/
structure Store where
  profiles : Table Profile
  settled : Settled profiles.entries

namespace Store

/-! ## Making stores -/

/-- a store of the profiles built from sections in the order in which they stand -/
def ofSorted (sections : Sections) : Store := ⟨buildProfiles sections, settled_buildProfiles sections⟩

/-- put parents first, then build a profile from every section -/
def resolve (sections : Sections) : Except ParentFault Store :=
  sections.parentsFirst.map ofSorted

def empty : Store := ofSorted .empty

/-- the properties of the profiles, as sections -/
def toSections (s : Store) : Sections := s.profiles.mapValues fun _ p => p.properties

/-- several stores as one, the first having priority -/
def aggregate (stores : List Store) : Except ParentFault Store :=
  resolve (Sections.merge (stores.map toSections))

/-! ## Looking things up -/

def size (s : Store) : Nat := s.profiles.size

def names (s : Store) : List String := s.profiles.keys

def profile? (s : Store) (name : String) : Option Profile := s.profiles.get? name

def has (s : Store) (name : String) : Bool := s.profiles.contains name

/-- the value of one property of one profile -/
def property? (s : Store) (name key : String) : Option String := (s.profile? name).bind (·.property? key)

/-- the profile of this store that a profile's handle names -/
def parentOf? (s : Store) (p : Profile) : Option Profile := p.parent?.bind s.profile?

/-- go through the profiles from the back: the one of that name, then its parent among those before it, and so on -/
def lineageFrom : List (String × Profile) → String → List Profile
  | [], _ => []
  | (key, p) :: earlier, name =>
    if key = name then
      p :: match p.parent? with
        | none => []
        | some parent => lineageFrom earlier parent
    else lineageFrom earlier name

/-- the profile of that name followed by its ancestors, nearest first -/
def lineage (s : Store) (name : String) : List Profile := lineageFrom s.profiles.entries.reverse name

/-- the same names, with equal profiles under each, in whatever order -/
def equals (s t : Store) : Bool :=
  s.size == t.size && s.profiles.entries.all fun e => (t.profile? e.1).any e.2.equals

def render (s : Store) : String :=
  "ProfileStore([" ++ String.intercalate ", " (s.profiles.entries.map fun e => e.2.render) ++ "])"

end Store

end LayeredProfiles
