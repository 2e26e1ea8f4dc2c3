/-
Profiles: named settings with a handle on a parent.

`buildProfiles` makes one profile of every section, in order. A profile gets a handle on its declared parent only when that
parent stands before it, so a handle always points towards the front (`Settled`); with parents first no handle is left out.
-/
import LayeredProfiles.Sections

namespace LayeredProfiles

/-- a named property map with the name of its resolved parent -/
structure Profile where
  name : String
  properties : Properties
  parent? : Option String
  deriving DecidableEq

namespace Profile

def property? (p : Profile) (key : String) : Option String := p.properties.get? key

/-- the parent that the properties name, resolved or not -/
def declaredParent? (p : Profile) : Option String := p.properties.declaredParent?

/-- the same name, the same parent and the same properties, in whatever order -/
def equals (p q : Profile) : Bool :=
  p.name == q.name && p.parent? == q.parent? && p.properties.size == q.properties.size &&
    p.properties.entries.all fun e => q.property? e.1 == some e.2

def render (p : Profile) : String :=
  let properties := String.intercalate ", " (p.properties.entries.map fun e => e.1 ++ "=" ++ e.2)
  let parent := match p.parent? with
    | none => ""
    | some parent => ", parent=" ++ parent
  "Profile(name=" ++ p.name ++ ", properties=\x7b" ++ properties ++ "\x7d" ++ parent ++ ")"

end Profile

/-! ## Building -/

/-- the profile of one section, given the names that stand before it -/
def Profile.ofSection (before : List String) (name : String) (properties : Properties) : Profile where
  name := name
  properties := properties
  parent? := properties.declaredParent?.filter (· ∈ before)

/-- the profiles of the rest of a table, given the names that stand before it -/
def buildAfter (before : List String) : List (String × Properties) → List (String × Profile)
  | [] => []
  | (name, properties) :: rest =>
    (name, .ofSection before name properties) :: buildAfter (before ++ [name]) rest

theorem keys_buildAfter (before : List String) (l : List (String × Properties)) :
    (buildAfter before l).map (·.1) = l.map (·.1) := by
  induction l generalizing before with
  | nil => rfl
  | cons e l ih => simp [buildAfter, ih]

/-- one profile for every section, in the same order -/
def buildProfiles (sections : Sections) : Table Profile where
  entries := buildAfter [] sections.entries
  inOrder := by
    have h : (buildAfter [] sections.entries).Pairwise (fun a b => a.1 ≠ b.1) := by
      rw [← List.pairwise_map (f := fun e : String × Profile => e.1) (R := (· ≠ ·)), keys_buildAfter]
      exact sections.nodup_keys
    exact h.imp fun hab => ⟨hab, rfl⟩

/-- in a profile list every profile is under its own name, and its handle points to one before it -/
def Settled (profiles : List (String × Profile)) : Prop :=
  ∀ front name p back, profiles = front ++ (name, p) :: back →
    p.name = name ∧ ∀ parent ∈ p.parent?, parent ∈ front.map (·.1)

theorem settled_buildAfter (before : List String) (l : List (String × Properties)) :
    ∀ front name p back, buildAfter before l = front ++ (name, p) :: back →
      p.name = name ∧ ∀ parent ∈ p.parent?, parent ∈ before ++ front.map (·.1) := by
  induction l generalizing before with
  | nil => intro front name p back h; simp [buildAfter] at h
  | cons e l ih =>
    obtain ⟨n, properties⟩ := e
    intro front name p back h
    cases front with
    | nil =>
      simp only [buildAfter, List.nil_append, List.cons.injEq, Prod.mk.injEq] at h
      obtain ⟨⟨rfl, rfl⟩, -⟩ := h
      refine ⟨rfl, fun parent hp => ?_⟩
      have := Option.mem_filter_iff.1 hp
      simpa using this.2
    | cons f front =>
      simp only [buildAfter, List.cons_append, List.cons.injEq] at h
      obtain ⟨rfl, h⟩ := h
      obtain ⟨h1, h2⟩ := ih (before ++ [n]) front name p back h
      exact ⟨h1, fun parent hp => by simpa using h2 parent hp⟩

/-- whatever the sections, the profiles built from them are settled -/
theorem settled_buildProfiles (sections : Sections) : Settled (buildProfiles sections).entries :=
  fun front name p back h => by simpa using settled_buildAfter [] sections.entries front name p back h

end LayeredProfiles
