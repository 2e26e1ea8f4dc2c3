/-
The profiles built from any sections, also from such as resolving would refuse.

Building asks of a declared parent only whether it stands before its child. So a handle is given or left out by positions alone,
whatever cycles and open links the declarations make. A handle always leads towards the front (`handle?_eq_some_iff`), and so k
handles one after the other lead at least k positions to the front (`follow_descends`): following them comes to an end from every name.

Main statement: `built_profiles_exact`.
-/
import Mathlib.Tactic
import LayeredProfiles.Proofs.RoundTrip

namespace LayeredProfiles

/-! ## Following handles -/

/-- the parent that the handle of a profile names -/
def handle? (profiles : Table Profile) (name : String) : Option String := (profiles.get? name).bind Profile.parent?

/-- the name that so many handles lead to -/
def follow (profiles : Table Profile) : Nat → String → Option String
  | 0, name => some name
  | k + 1, name => (handle? profiles name).bind (follow profiles k)

/-! ## Building -/

variable {m : Sections} {name parent : String}

theorem parent?_ofSection_iff {p : Properties} :
    (Profile.ofSection (m.keys.takeWhile (· ≠ name)) name p).parent? = some parent ↔
      p.declaredParent? = some parent ∧ m.keys.idxOf parent < m.keys.idxOf name := by
  rw [← mem_takeWhile_iff_idxOf_lt]
  simp [Profile.ofSection, Option.filter_eq_some_iff]

theorem get?_buildProfiles_eq_some_iff {profile : Profile} :
    (buildProfiles m).get? name = some profile ↔
      ∃ p, m.get? name = some p ∧ profile = .ofSection (m.keys.takeWhile (· ≠ name)) name p := by
  rw [show (buildProfiles m).get? name = _ from profile?_ofSorted m name, Option.map_eq_some_iff]
  simp only [eq_comm]

/-- a profile has a handle on a parent when it declares that parent and the parent stands before it -/
theorem handle?_eq_some_iff :
    handle? (buildProfiles m) name = some parent ↔
      m.parentOf? name = some parent ∧ m.keys.idxOf parent < m.keys.idxOf name := by
  rw [handle?, show (buildProfiles m).get? name = _ from profile?_ofSorted m name, Sections.parentOf?]
  cases m.get? name with
  | none => simp
  | some p => exact parent?_ofSection_iff

/-- each handle leads at least one position towards the front -/
theorem follow_descends {k : Nat} {reached : String} (h : follow (buildProfiles m) k name = some reached) :
    m.keys.idxOf reached + k ≤ m.keys.idxOf name := by
  induction k generalizing name with
  | zero =>
    obtain rfl := Option.some.inj h
    exact le_rfl
  | succ k ih =>
    obtain ⟨parent, hp, hfollow⟩ := Option.bind_eq_some_iff.1 h
    have hstep := (handle?_eq_some_iff.1 hp).2
    have hrest := ih hfollow
    omega

theorem follow_ends (m : Sections) (name : String) : follow (buildProfiles m) (m.keys.idxOf name + 1) name = none := by
  cases h : follow (buildProfiles m) (m.keys.idxOf name + 1) name with
  | none => rfl
  | some reached =>
    have hlt := follow_descends h
    omega

theorem not_cyclic_handle? (m : Sections) : ¬ Cyclic (handle? (buildProfiles m)) :=
  not_cyclic_of_descending m.keys.idxOf fun _ _ h => (handle?_eq_some_iff.1 h).2

/-- no declared parent is left without a handle exactly when parents stand first -/
theorem resolves_all_iff :
    (∀ name profile, (buildProfiles m).get? name = some profile → profile.parent? = profile.declaredParent?) ↔ m.TopDown := by
  simp only [get?_buildProfiles_eq_some_iff]
  constructor
  · intro h child parent hp
    obtain ⟨p, hg, hd⟩ := Option.bind_eq_some_iff.1 hp
    have hkept : (Profile.ofSection (m.keys.takeWhile (· ≠ child)) child p).parent? = p.declaredParent? := h child _ ⟨p, hg, rfl⟩
    exact (parent?_ofSection_iff.1 (hkept.trans hd)).2
  · rintro ht name _ ⟨p, hg, rfl⟩
    apply Option.ext
    intro parent
    rw [parent?_ofSection_iff]
    exact ⟨And.left, fun hd => ⟨hd, ht name parent ((Sections.parentOf?_of_get? hg).trans hd)⟩⟩

/-! ## Main result -/

/-- **Building is safe on any sections.** There is one profile for each section, in the same order, under its own name and with
exactly the properties of the section. It has a handle exactly on the parent that it declares, and only if a section of that name
stands before it. So whatever the sections declare, k handles lead k positions or more towards the front; from every name the
handles come to an end, and they make no cycle. And no declared parent is left out exactly when parents stand first. -/
theorem built_profiles_exact (m : Sections) :
    (buildProfiles m).keys = m.keys ∧
      (∀ name p, m.get? name = some p → ∃ profile, (buildProfiles m).get? name = some profile ∧
        profile.name = name ∧ profile.properties = p ∧
        ∀ parent, profile.parent? = some parent ↔
          p.declaredParent? = some parent ∧ m.keys.idxOf parent < m.keys.idxOf name) ∧
      (∀ name k reached, follow (buildProfiles m) k name = some reached → m.keys.idxOf reached + k ≤ m.keys.idxOf name) ∧
      (∀ name, follow (buildProfiles m) (m.keys.idxOf name + 1) name = none) ∧
      ¬ Cyclic (handle? (buildProfiles m)) ∧
      ((∀ name profile, (buildProfiles m).get? name = some profile → profile.parent? = profile.declaredParent?) ↔
        m.TopDown) := by
  refine ⟨names_ofSorted m, fun name p hg => ?_, fun name k reached h => follow_descends h, follow_ends m, not_cyclic_handle? m,
    resolves_all_iff⟩
  exact ⟨_, get?_buildProfiles_eq_some_iff.2 ⟨p, hg, rfl⟩, rfl, rfl, fun parent => parent?_ofSection_iff⟩

/-- of two that declare each other the later one has a handle; one that declares itself, and one whose parent is not there, have none -/
example :
    let built := buildProfiles (.ofList [("a", .ofList [(parentProperty, "b")]), ("b", .ofList [(parentProperty, "a")]),
      ("c", .ofList [(parentProperty, "c")]), ("d", .ofList [(parentProperty, "e")])])
    built.keys.map (handle? built) = [none, some "a", none, none] := by
  decide

end LayeredProfiles
