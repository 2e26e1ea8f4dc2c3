/-
Sections as JSON values, and the values that hold sections.

A value holds sections when it is an object of objects of strings (`Json.IsSections`), and it has a key when some object in it has a
member of that name, at whatever depth (`Json.HasKey`). Both say nothing of how a document is taken apart.

Results:
- `Document.usesReserved_iff`: the search for the reserved name finds it wherever it is.
- `Document.properties?_toJson`: properties are found in the value that they are written as.
- `Sections.read?_text`: the text of sections in record order is read as their value.
-/
import LayeredProfiles.Document
import LayeredProfiles.Proofs.CompactTexts
import LayeredProfiles.StoreDocument

namespace LayeredProfiles

def Sections.toJson (sections : Sections) : Json := .obj (sections.entries.map fun e => (e.1, e.2.toJson))

namespace Json

variable {v i : Json} {items : List Json} {members : List (String × Json)} {e : String × Json} {key : String}

/-- some object in it, at whatever depth, has a member of that name -/
def HasKey (key : String) (v : Json) : Prop := ∃ members, Inside (.obj members) v ∧ key ∈ members.map (·.1)

/-- an object of strings -/
def IsProperties (v : Json) : Prop := ∃ members, v = .obj members ∧ ∀ e ∈ members, ∃ s, e.2 = .str s

/-- an object of objects of strings -/
def IsSections (v : Json) : Prop := ∃ members, v = .obj members ∧ ∀ e ∈ members, e.2.IsProperties

theorem hasKey_arr_iff : HasKey key (.arr items) ↔ ∃ i ∈ items, i.HasKey key := by
  constructor
  · rintro ⟨members, hin, hkey⟩
    cases hin with
    | item hi hin => exact ⟨_, hi, members, hin, hkey⟩
  · rintro ⟨i, hi, members, hin, hkey⟩
    exact ⟨members, .item hi hin, hkey⟩

theorem hasKey_obj_iff : HasKey key (.obj members) ↔ ∃ e ∈ members, e.1 = key ∨ e.2.HasKey key := by
  constructor
  · rintro ⟨inner, hin, hkey⟩
    cases hin with
    | self =>
      obtain ⟨e, he, hek⟩ := List.mem_map.1 hkey
      exact ⟨e, he, .inl hek⟩
    | member he hin => exact ⟨_, he, .inr ⟨inner, hin, hkey⟩⟩
  · rintro ⟨e, he, rfl | ⟨inner, hin, hkey⟩⟩
    · exact ⟨members, .self, List.mem_map_of_mem he⟩
    · exact ⟨inner, .member he hin, hkey⟩

end Json

namespace Document

open Json (Inside HasKey)

/-! ## The reserved name -/

mutual

theorem usesReserved_iff : ∀ v : Json, usesReserved v = true ↔ v.HasKey reservedName
  | .arr items => by rw [usesReserved, itemsUseReserved_iff items, Json.hasKey_arr_iff]
  | .obj members => by rw [usesReserved, membersUseReserved_iff members, Json.hasKey_obj_iff]
  | .null | .bool _ | .num _ | .str _ => by
    constructor
    · intro h
      cases h
    · rintro ⟨_, hin, -⟩
      nomatch hin

theorem itemsUseReserved_iff : ∀ items : List Json, itemsUseReserved items = true ↔ ∃ i ∈ items, i.HasKey reservedName
  | [] => by simp [itemsUseReserved]
  | v :: rest => by simp [itemsUseReserved, usesReserved_iff v, itemsUseReserved_iff rest]

theorem membersUseReserved_iff : ∀ members : List (String × Json),
    membersUseReserved members = true ↔ ∃ e ∈ members, e.1 = reservedName ∨ e.2.HasKey reservedName
  | [] => by simp [membersUseReserved]
  | (key, v) :: rest => by simp [membersUseReserved, usesReserved_iff v, membersUseReserved_iff rest]

end

/-! ## Properties -/

def textMember? (e : String × Json) : Option (String × String) := e.2.string?.map fun s => (e.1, s)

/-- the properties that an object of strings holds -/
def properties? : Json → Option Properties
  | .obj members => (members.mapM textMember?).map .ofList
  | _ => none

theorem toJson_eq (p : Properties) : p.toJson = .obj (p.entries.map fun e => (e.1, .str e.2)) := rfl

theorem mapM_textMember? (l : List (String × String)) : (l.map fun e => (e.1, Json.str e.2)).mapM textMember? = some l := by
  induction l with
  | nil => rfl
  | cons e l ih =>
    have hfirst : textMember? (e.1, Json.str e.2) = some e := rfl
    rw [List.map_cons, List.mapM_cons, hfirst, ih]
    rfl

theorem properties?_toJson (p : Properties) : properties? p.toJson = some p := by
  rw [toJson_eq, properties?, mapM_textMember?, Option.map_some]
  exact congrArg some (OrderedMap.ext (OrderedMap.entries_ofList p.inOrder))

end Document

/-! ## The values and their texts -/

variable {key : String}

theorem Properties.hasKey_toJson_iff (p : Properties) : p.toJson.HasKey key ↔ key ∈ p.keys := by
  rw [Document.toJson_eq, Json.hasKey_obj_iff]
  constructor
  · intro h
    obtain ⟨e, he, hkey⟩ := h
    obtain ⟨d, hd, rfl⟩ := List.mem_map.1 he
    rcases hkey with rfl | ⟨_, hin, -⟩
    · exact List.mem_map_of_mem hd
    · nomatch hin
  · intro h
    obtain ⟨d, hd, rfl⟩ := List.mem_map.1 h
    exact ⟨_, List.mem_map_of_mem hd, .inl rfl⟩

theorem Properties.canonical_toJson (p : Properties) : p.toJson.Canonical := by
  apply Json.canonical_ofRecord
  intro e he
  obtain ⟨d, -, rfl⟩ := List.mem_map.1 he
  exact Json.canonical_str d.2

theorem Properties.numberFree_toJson (p : Properties) : p.toJson.NumberFree := by
  apply Json.numberFree_obj
  intro e he
  obtain ⟨d, -, rfl⟩ := List.mem_map.1 he
  exact Json.numberFree_str d.2

namespace Sections

variable {sections : Sections}

theorem hasKey_toJson_iff : sections.toJson.HasKey key ↔ ∃ e ∈ sections.entries, e.1 = key ∨ key ∈ e.2.keys := by
  simp only [toJson, Json.hasKey_obj_iff, List.mem_map, exists_exists_and_eq_and, Properties.hasKey_toJson_iff]

theorem canonical_toJson (h : sections.entries.Pairwise (InOrder .indexFirst)) : sections.toJson.Canonical := by
  have hr : sections.toJson = .ofRecord ⟨_, OrderedMap.inOrder_map (fun _ p => Properties.toJson p) h⟩ := rfl
  rw [hr]
  apply Json.canonical_ofRecord
  intro e he
  obtain ⟨d, -, rfl⟩ := List.mem_map.1 he
  exact d.2.canonical_toJson

theorem numberFree_toJson : sections.toJson.NumberFree := by
  apply Json.numberFree_obj
  intro e he
  obtain ⟨d, -, rfl⟩ := List.mem_map.1 he
  exact d.2.numberFree_toJson

theorem read?_text (h : sections.entries.Pairwise (InOrder .indexFirst)) : Json.read? sections.toJson.text = some sections.toJson :=
  Json.read?_text (canonical_toJson h) numberFree_toJson

end Sections

end LayeredProfiles
