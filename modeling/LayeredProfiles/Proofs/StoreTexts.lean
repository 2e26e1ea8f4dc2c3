/-
The text of a store, and what is read from it.

The text lists the profiles in their order, each with its name, its properties, and its handle when it has one. Names and properties
are sections again; resolving these gives the store (`Store.Made.resolve_toSections`), so the handles in the text are those that
come out, and two stores with one text are one store.

Main statement: `store_text_exact`.
-/
import LayeredProfiles.Proofs.EqualStores
import LayeredProfiles.Proofs.SectionDocuments

namespace LayeredProfiles

/-- the section of a listed profile: its name and its properties -/
def listedSection? (entry : Json) : Option (String × Properties) := do
  let name ← (entry.member? "name").bind Json.string?
  let properties ← (entry.member? "properties").bind Document.properties?
  return (name, properties)

/-- the sections of listed profiles, in the order in which these stand -/
def listedSections? (entries : List Json) : Option Sections := (entries.mapM listedSection?).map .ofList

/-! ## Profiles -/

namespace Profile

variable (p : Profile)

/-- the members of a profile's value -/
def members : List (String × Json) :=
  [("name", .str p.name), ("properties", p.properties.toJson)] ++ (p.parent?.map fun parent => ("parent", .str parent)).toList

theorem toJson_eq : p.toJson = .ofMembers p.members := by
  unfold toJson members
  cases p.parent? <;> rfl

theorem mem_members {e : String × Json} (h : e ∈ p.members) : (∃ s, e.2 = .str s) ∨ e.2 = p.properties.toJson := by
  simp only [members, List.cons_append, List.nil_append, List.mem_cons, Option.mem_toList, Option.map_eq_some_iff] at h
  rcases h with rfl | rfl | ⟨parent, -, rfl⟩
  · exact .inl ⟨p.name, rfl⟩
  · exact .inr rfl
  · exact .inl ⟨parent, rfl⟩

theorem canonical_toJson : p.toJson.Canonical := by
  rw [toJson_eq]
  apply Json.canonical_ofMembers
  intro e he
  rcases p.mem_members he with ⟨s, hs⟩ | hs
  · exact hs ▸ Json.canonical_str s
  · exact hs ▸ p.properties.canonical_toJson

theorem numberFree_toJson : p.toJson.NumberFree := by
  rw [toJson_eq]
  apply Json.numberFree_ofMembers
  intro e he
  rcases p.mem_members he with ⟨s, hs⟩ | hs
  · exact hs ▸ Json.numberFree_str s
  · exact hs ▸ p.properties.numberFree_toJson

theorem member?_toJson (key : String) : p.toJson.member? key = OrderedMap.find? key p.members := by
  rw [toJson_eq, Json.member?_ofMembers]
  cases h : p.parent? <;> simp [members, h]

theorem member?_name : p.toJson.member? "name" = some (.str p.name) := by
  rw [member?_toJson]
  rfl

theorem member?_properties : p.toJson.member? "properties" = some p.properties.toJson := by
  rw [member?_toJson]
  rfl

theorem member?_parent : p.toJson.member? "parent" = p.parent?.map .str := by
  rw [member?_toJson]
  cases h : p.parent? <;> simp [members, h, OrderedMap.find?]

theorem listedSection?_toJson : listedSection? p.toJson = some (p.name, p.properties) := by
  simp [listedSection?, member?_name, member?_properties, Json.string?, Document.properties?_toJson]

end Profile

/-! ## Stores -/

namespace Store

variable {s t : Store}

theorem canonical_toJson (s : Store) : s.toJson.Canonical := by
  apply Json.canonical_ofMembers
  intro e he
  rw [List.mem_singleton.1 he]
  apply Json.canonical_arr
  intro i hi
  obtain ⟨d, -, rfl⟩ := List.mem_map.1 hi
  exact d.2.canonical_toJson

theorem numberFree_toJson (s : Store) : s.toJson.NumberFree := by
  apply Json.numberFree_ofMembers
  intro e he
  rw [List.mem_singleton.1 he]
  apply Json.numberFree_arr
  intro i hi
  obtain ⟨d, -, rfl⟩ := List.mem_map.1 hi
  exact d.2.numberFree_toJson

theorem read?_text (s : Store) : Json.read? s.toJson.text = some s.toJson :=
  Json.read?_text s.canonical_toJson s.numberFree_toJson

/-- every profile of a store is under its own name -/
theorem name_of_mem (s : Store) {e : String × Profile} (he : e ∈ s.profiles.entries) : e.2.name = e.1 := by
  obtain ⟨front, back, hentries⟩ := List.append_of_mem he
  exact (s.settled front e.1 e.2 back hentries).1

theorem mapM_listedSection? {l : List (String × Profile)} (h : ∀ e ∈ l, e.2.name = e.1) :
    (l.map fun e => e.2.toJson).mapM listedSection? = some (l.map fun e => (e.1, e.2.properties)) := by
  induction l with
  | nil => rfl
  | cons e l ih =>
    obtain ⟨he, hl⟩ := List.forall_mem_cons.1 h
    simp [List.mapM_cons, e.2.listedSection?_toJson, he, ih hl]

/-- the listed profiles, read in order as sections, are the sections that the store shows -/
theorem listedSections?_toJson (s : Store) :
    listedSections? (s.profiles.entries.map fun e => e.2.toJson) = some s.toSections := by
  rw [listedSections?, mapM_listedSection? fun e he => s.name_of_mem he]
  exact congrArg some s.toSections.ofList_entries

theorem toSections_of_text (h : t.toJson.text = s.toJson.text) : t.toSections = s.toSections := by
  have hjson : t.toJson = s.toJson := by
    have hread := t.read?_text
    rw [h, s.read?_text] at hread
    exact (Option.some.inj hread).symm
  have hentries : (t.profiles.entries.map fun e => e.2.toJson) = s.profiles.entries.map fun e => e.2.toJson :=
    Json.arr.inj (Option.some.inj (congrArg (fun v => v.member? "profiles") hjson))
  apply Option.some.inj
  rw [← t.listedSections?_toJson, ← s.listedSections?_toJson, hentries]

end Store

/-- **The text of a store is exact.** Read as JSON it lists one entry for each profile, in the order of the store, with the name,
the properties, and the handle exactly when there is one. The entries, read in order as sections, are resolved to the same store:
the same names in the same order, the same property maps and handles. So a store with the same text is the same store. -/
theorem store_text_exact (s : Store) (h : s.Made) :
    (∃ v entries, Json.read? s.toJson.text = some v ∧ v.member? "profiles" = some (.arr entries) ∧
      List.Forall₂ (fun entry e => entry.member? "name" = some (.str e.1) ∧
        entry.member? "properties" = some e.2.properties.toJson ∧
        entry.member? "parent" = e.2.parent?.map .str) entries s.profiles.entries ∧
      ∃ sections, listedSections? entries = some sections ∧ Store.resolve sections = .ok s) ∧
    ∀ t : Store, t.Made → t.toJson.text = s.toJson.text → t = s ∧ s.equals t = true := by
  refine ⟨⟨s.toJson, s.profiles.entries.map fun e => e.2.toJson, s.read?_text, rfl, ?_, s.toSections,
    s.listedSections?_toJson, h.resolve_toSections⟩, ?_⟩
  · rw [List.forall₂_map_left_iff, List.forall₂_same]
    intro e he
    rw [← s.name_of_mem he]
    exact ⟨e.2.member?_name, e.2.member?_properties, e.2.member?_parent⟩
  · intro t ht htext
    have hresolve := ht.resolve_toSections
    rw [Store.toSections_of_text htext, h.resolve_toSections] at hresolve
    cases hresolve
    exact ⟨rfl, Store.equals_equivalence.refl s⟩

/-- two profiles with texts that must be escaped; the second is named like an array index, and so are some of its keys -/
def inventory : Sections :=
  .ofList [("say \"on\"", .ofList [("path", "C:\\temp\n")]),
    ("7", .ofList [(parentProperty, "say \"on\""), ("1", textOf "😀"), ("0", "\u0001")])]

/-- their store comes back from its text, in which the index-like name stands behind its parent -/
theorem text_of_inventory :
    ∃ s : Store, s.Made ∧ Store.resolve inventory = .ok s ∧
      (∃ v first second, Json.read? s.toJson.text = some v ∧ v.member? "profiles" = some (.arr [first, second]) ∧
        first.member? "parent" = none ∧ second.member? "parent" = some (.str "say \"on\"") ∧
        ∃ sections, listedSections? [first, second] = some sections ∧ Store.resolve sections = .ok s) ∧
      ∀ t : Store, t.Made → t.toJson.text = s.toJson.text → s.equals t = true := by
  have ht : inventory.TopDown := by decide
  obtain ⟨⟨v, entries, hread, hprofiles, hentries, hsections⟩, hexact⟩ := store_text_exact (.ofSorted inventory) ht.made
  refine ⟨.ofSorted inventory, ht.made, ht.resolve_eq, ?_, fun t hmade htext => (hexact t hmade htext).2⟩
  obtain ⟨first, second, rfl⟩ : ∃ first second, entries = [first, second] := List.length_eq_two.1 hentries.length_eq
  cases hentries with
  | cons hfirst hrest =>
    cases hrest with
    | cons hsecond =>
      exact ⟨v, first, second, hread, hprofiles, hfirst.2.2, hsecond.2.2, hsections⟩

end LayeredProfiles
