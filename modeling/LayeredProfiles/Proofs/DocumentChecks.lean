/-
What a validator tells of a document.

All that is used of the validator is how it checks texts and records of them (`Validator.ChecksRecords`). On values whose objects
stand in record order, without the reserved name, that is what `Document.check` says: the sections that a value is, or its issues
member by member.

Results:
- `Checked.all_eq_ok_iff`, `Checked.issues_all`: the results of members as one, when all are sound and when not.
- `Document.check_schema`: the validator's check of a document is `Document.check`.
- `Document.check_eq_ok_iff`: a document is accepted as the sections that it is, member by member.
- `Document.exists_check_iff`: and exactly when it is an object of objects of strings.
-/
import LayeredProfiles.Proofs.SectionDocuments

namespace LayeredProfiles

namespace Checked

variable {α β : Type} {l : List (String × Checked α)} {r : List (String × α)} {members : List (String × Json)}
  {f : Json → Checked α} {write : α → Json}

/-- what is wrong, if anything is -/
def issues : Checked α → List Issue
  | .ok _ => []
  | .error issues => issues

theorem all_cons_eq_ok_iff {key : String} {c : Checked α} :
    all ((key, c) :: l) = .ok r ↔ ∃ a done, c = .ok a ∧ all l = .ok done ∧ r = (key, a) :: done := by
  cases c <;> cases hrest : all l <;> simp [all, under, both, hrest, Except.mapError, Except.map, eq_comm]

theorem all_eq_ok_iff : all l = .ok r ↔ l = r.map fun e => (e.1, .ok e.2) := by
  induction l generalizing r with
  | nil => cases r <;> simp [all]
  | cons e l ih =>
    rcases e with ⟨key, c⟩
    rw [all_cons_eq_ok_iff]
    constructor
    · rintro ⟨a, done, rfl, hdone, rfl⟩
      rw [List.map_cons, ih.1 hdone]
    · intro h
      cases r with
      | nil => cases h
      | cons d r =>
        obtain ⟨hd, hr⟩ := List.cons.inj h
        obtain ⟨rfl, rfl⟩ := Prod.ext_iff.1 hd
        exact ⟨d.2, r, rfl, ih.2 hr, rfl⟩

theorem issues_map (g : α → β) (c : Checked α) : issues (c.map g) = c.issues := by
  cases c <;> rfl

theorem issues_under (key : String) (c : Checked α) : (under key c).issues = c.issues.map (.under key) := by
  cases c <;> rfl

theorem issues_both (c : Checked α) (d : Checked β) : (both c d).issues = c.issues ++ d.issues := by
  cases c <;> cases d <;> simp [both, issues]

theorem issues_all (l : List (String × Checked α)) : (all l).issues = l.flatMap fun e => e.2.issues.map (.under e.1) := by
  induction l with
  | nil => rfl
  | cons e l ih => rw [all, issues_map, issues_both, issues_under, ih, List.flatMap_cons]

theorem eq_error_of_ne_ok {c : Checked α} (h : ∀ a, c ≠ .ok a) : c = .error c.issues := by
  cases c with
  | ok a => exact absurd rfl (h a)
  | error issues => rfl

/-- members with sound results are the ones that are written as these -/
theorem map_eq_iff (hf : ∀ e ∈ members, ∀ a, f e.2 = .ok a ↔ e.2 = write a) :
    (members.map fun e => (e.1, f e.2)) = r.map (fun e => (e.1, .ok e.2)) ↔ members = r.map fun e => (e.1, write e.2) := by
  induction members generalizing r with
  | nil => cases r <;> simp
  | cons e members ih =>
    obtain ⟨he, hf⟩ := List.forall_mem_cons.1 hf
    cases r with
    | nil => simp
    | cons d r => simp only [List.map_cons, List.cons.injEq, Prod.ext_iff, ih hf, he]

theorem exists_map_eq_iff : (∃ r : List (String × α), (members.map fun e => (e.1, f e.2)) = r.map fun e => (e.1, .ok e.2)) ↔
    ∀ e ∈ members, ∃ a, f e.2 = .ok a := by
  induction members with
  | nil => exact iff_of_true ⟨[], rfl⟩ (by simp)
  | cons e members ih =>
    rw [List.forall_mem_cons, ← ih]
    constructor
    · rintro ⟨_ | ⟨d, r⟩, hr⟩
      · cases hr
      · obtain ⟨hd, hr⟩ := List.cons.inj hr
        exact ⟨⟨d.2, (Prod.ext_iff.1 hd).2⟩, r, hr⟩
    · rintro ⟨⟨a, ha⟩, r, hr⟩
      exact ⟨(e.1, a) :: r, by simp [ha, hr]⟩

end Checked

namespace Document

open Checked (all issues)

variable {z : Validator} {α : Type} {schema : Schema α} {f : Json → Checked α} {write : α → Json} {v : Json} {r : Record α}

/-! ## The check -/

def checkText : Json → Checked String
  | .str s => .ok s
  | v => .error [⟨[], "Invalid input: expected string, received " ++ v.typeWord⟩]

/-- the check of a record, from that of its values -/
def checkRecord (f : Json → Checked α) : Json → Checked (Record α)
  | .obj members => (all (members.map fun e => (e.1, f e.2))).map .ofList
  | v => .error [⟨[], "Invalid input: expected record, received " ++ v.typeWord⟩]

def check : Json → Checked (Record Properties) := checkRecord (checkRecord checkText)

theorem check_string (hz : z.ChecksRecords) (v : Json) : z.check .string (some v) = .ok (checkText v) := by
  by_cases hv : ∃ s, v = .str s
  · obtain ⟨s, rfl⟩ := hv
    exact hz.string s
  · have hother : ∀ s, v ≠ .str s := fun s hs => hv ⟨s, hs⟩
    rw [hz.noString v hother]
    cases v with
    | str s => exact absurd rfl (hother s)
    | null | bool | num | arr | obj => rfl

theorem check_record (hz : z.ChecksRecords) (hc : v.Canonical) (hkey : ¬ v.HasKey reservedName)
    (hf : ∀ w, w.Canonical → ¬ w.HasKey reservedName → z.check schema (some w) = .ok (f w)) :
    z.check (.record schema) (some v) = .ok (checkRecord f v) := by
  by_cases hv : ∃ members, v = .obj members
  · obtain ⟨members, rfl⟩ := hv
    have hnames : ∀ e ∈ members, e.1 ≠ reservedName ∧ ¬ e.2.HasKey reservedName := by
      intro e he
      exact not_or.1 fun h => hkey (Json.hasKey_obj_iff.2 ⟨e, he, h⟩)
    apply hz.record schema ⟨members, hc members .self⟩
    · intro hmem
      obtain ⟨e, he, hname⟩ := List.mem_map.1 hmem
      exact (hnames e he).1 hname
    · exact fun e he => hf e.2 (hc.member he) (hnames e he).2
  · have hother : ∀ members, v ≠ .obj members := fun members h => hv ⟨members, h⟩
    rw [hz.noRecord schema v hother]
    cases v with
    | obj members => exact absurd rfl (hother members)
    | null | bool | num | str | arr => rfl

/-- the validator's check of a document -/
theorem check_schema (hz : z.ChecksRecords) (hc : v.Canonical) (hkey : ¬ v.HasKey reservedName) :
    z.check Document.schema (some v) = .ok (check v) :=
  check_record hz hc hkey fun _ hw hname => check_record hz hw hname fun u _ _ => check_string hz u

/-! ## Accepted documents -/

theorem checkText_eq_ok_iff {s : String} : checkText v = .ok s ↔ v = .str s := by
  cases v <;> simp [checkText]

/-- a record is accepted as what it is, member by member -/
theorem checkRecord_eq_ok_iff (hc : v.Canonical) (hf : ∀ w, w.Canonical → ∀ a, f w = .ok a ↔ w = write a) :
    checkRecord f v = .ok r ↔ v = .obj (r.entries.map fun e => (e.1, write e.2)) := by
  cases v with
  | obj members =>
    have hmembers : ∀ l, all (members.map fun e => (e.1, f e.2)) = .ok l ↔ members = l.map fun e => (e.1, write e.2) := by
      intro l
      rw [Checked.all_eq_ok_iff, Checked.map_eq_iff fun e he => hf e.2 (hc.member he)]
    rw [Json.obj.injEq, ← hmembers, checkRecord]
    have hofList : ∀ l, all (members.map fun e => (e.1, f e.2)) = .ok l → (OrderedMap.ofList l : Record α).entries = l := by
      intro l hl
      have horder := hc members .self
      rw [(hmembers l).1 hl, List.pairwise_map] at horder
      exact OrderedMap.entries_ofList (horder.imp fun hab => hab)
    constructor
    · intro h
      cases hall : all (members.map fun e => (e.1, f e.2)) with
      | error issues =>
        rw [hall] at h
        cases h
      | ok l =>
        rw [hall] at h
        cases h
        rw [hofList l hall]
    · intro h
      rw [h]
      exact congrArg Except.ok (OrderedMap.ext (hofList _ h))
  | null | bool | num | str | arr => simp [checkRecord]

theorem check_eq_ok_iff {r : Record Properties} (hc : v.Canonical) : check v = .ok r ↔ v = Sections.toJson r.toTable :=
  checkRecord_eq_ok_iff hc fun _ hw _ => checkRecord_eq_ok_iff hw fun _ _ _ => checkText_eq_ok_iff

theorem exists_checkRecord_iff :
    (∃ r, checkRecord f v = .ok r) ↔ ∃ members, v = .obj members ∧ ∀ e ∈ members, ∃ a, f e.2 = .ok a := by
  cases v with
  | obj members =>
    simp only [checkRecord, Json.obj.injEq, exists_eq_left', ← Checked.exists_map_eq_iff, ← Checked.all_eq_ok_iff]
    cases all (members.map fun e => (e.1, f e.2)) <;> simp [Except.map]
  | null | bool | num | str | arr => simp [checkRecord]

/-- exactly the values that hold sections are accepted -/
theorem exists_check_iff : (∃ r, check v = .ok r) ↔ v.IsSections := by
  simp only [check, exists_checkRecord_iff, checkText_eq_ok_iff]
  rfl

end Document

end LayeredProfiles
