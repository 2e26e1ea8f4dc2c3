/-
Sections: named property maps, as a source writes them.

`Properties` are the settings of one section, `Sections` the sections of one source in the order in which it gives them.
A section names its parent with the property `source_profile` (`Properties.declaredParent?`), and any value counts as a
declaration, the empty one too. `merge` combines several section tables, the first having priority for every property.
-/
import LayeredProfiles.OrderedMap

namespace LayeredProfiles

abbrev Properties := Record String

/-- named property maps in the order of their source -/
abbrev Sections := Table Properties

/-- the property that names a section's parent -/
def parentProperty : String := "source_profile"

/-- the parent that a section declares -/
def Properties.declaredParent? (properties : Properties) : Option String :=
  properties.get? parentProperty

/-- a map without its order's promise: the keys simply stand where they stand -/
def OrderedMap.toTable {o : KeyOrder} {α : Type} (m : OrderedMap o α) : Table α :=
  ⟨m.entries, m.inOrder.imp fun h => ⟨h.1, rfl⟩⟩

/-- sections as they can be handed in: with names by arrival, or as a record, where index-like names come first -/
inductive SectionInput where
  | table (sections : Table Properties)
  | record (sections : Record Properties)

/-- the sections that were handed in, in their own order -/
def SectionInput.toSections : SectionInput → Sections
  | .table sections => sections
  | .record sections => sections.toTable

namespace Sections

/-- lay a section over what the table has under that name -/
def contribute (sections : Sections) (name : String) (properties : Properties) : Sections :=
  sections.insert name <|
    match sections.get? name with
    | none => properties
    | some present => present.overlay properties

/-- lay every section of `upper` over `lower`, in order -/
def layer (lower upper : Sections) : Sections :=
  upper.entries.foldl (fun sections e => sections.contribute e.1 e.2) lower

/-- several tables as one, the first having priority: the last is laid down first -/
def merge (tables : List Sections) : Sections :=
  tables.foldr (fun upper lower => lower.layer upper) .empty

def parentOf? (sections : Sections) (name : String) : Option String :=
  (sections.get? name).bind Properties.declaredParent?

end Sections

end LayeredProfiles
