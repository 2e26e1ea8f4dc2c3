/-
The same profiles in both dialects.

A configuration may write the names of profiles in many ways, with more or fewer blanks; a credentials source has one way for each.
Whatever the ways, names that are read apart are written apart (`entries_respell`), so no section is lost in writing, and reading
gives every section back where it stood (`normalize_respell`). This holds of both dialects for one reason, with a credentials source
as the sections under their own names.

Main statement: `dialects_round_trip`.
-/
import Mathlib.Tactic
import LayeredProfiles.Proofs.Normalization

namespace LayeredProfiles

namespace Sections

variable {kind : SourceKind} {m : Sections} {spell : String → String}

/-- the sections under other names, each where it stands; two sections that come to the same name would become one -/
def respell (spell : String → String) (m : Sections) : Sections := .ofList (m.entries.map fun e => (spell e.1, e.2))

theorem respell_id (m : Sections) : m.respell id = m := by
  have hsame : (m.entries.map fun e => (id e.1, e.2)) = m.entries := by simp
  rw [respell, hsame, OrderedMap.ofList_entries]

section Spelled

variable (spelled : ∀ n ∈ m.keys, kind.Spells (spell n) n)
include spelled

/-- names that spell different profile names are different, so no two sections become one -/
theorem entries_respell : (m.respell spell).entries = m.entries.map fun e => (spell e.1, e.2) := by
  refine OrderedMap.entries_ofList (List.pairwise_map.2 (m.inOrder.imp_of_mem fun {d e} hd he hde => ⟨fun hs => ?_, rfl⟩))
  have hspelled := spelled d.1 (List.mem_map_of_mem hd)
  rw [show spell d.1 = spell e.1 from hs] at hspelled
  exact hde.1 (hspelled.unique (spelled e.1 (List.mem_map_of_mem he)))

theorem keys_respell : (m.respell spell).keys = m.keys.map spell := by
  rw [OrderedMap.keys, entries_respell spelled, OrderedMap.keys, List.map_map, List.map_map]
  rfl

theorem profileName?_spell {n : String} (hn : n ∈ m.keys) : kind.profileName? (spell n) = some n :=
  SourceKind.profileName?_eq_some_iff.2 (spelled n hn)

/-- every name is read as the one that was written -/
theorem filterMap_keys_respell : (m.respell spell).keys.filterMap kind.profileName? = m.keys := by
  rw [keys_respell spelled, List.filterMap_map]
  calc m.keys.filterMap (kind.profileName? ∘ spell)
      = m.keys.filterMap some := List.filterMap_congr fun n hn => profileName?_spell spelled hn
    _ = m.keys := List.filterMap_some

theorem normalize_respell : (m.respell spell).normalize kind = ⟨m, []⟩ := by
  have hnodup : ((m.respell spell).keys.filterMap kind.profileName?).Nodup := by
    rw [filterMap_keys_respell spelled]
    exact m.nodup_keys
  have hsections : ((m.respell spell).normalize kind).sections = m := by
    apply OrderedMap.ext
    rw [normalize, entries_renameBy _ _ hnodup, entries_respell spelled, List.filterMap_map]
    calc m.entries.filterMap ((fun e => (kind.profileName? e.1).map fun name => (name, e.2)) ∘ fun e => (spell e.1, e.2))
        = m.entries.filterMap some := by
          refine List.filterMap_congr fun e he => ?_
          simp [profileName?_spell spelled (List.mem_map_of_mem he : e.1 ∈ m.keys)]
      _ = m.entries := List.filterMap_some
  have hignored : ((m.respell spell).normalize kind).ignored = [] := by
    refine List.eq_nil_iff_forall_not_mem.2 fun written hw => ?_
    obtain ⟨hkey, hnone⟩ := (mem_ignored_iff kind.profileName? _).1 hw
    rw [keys_respell spelled] at hkey
    obtain ⟨n, hn, rfl⟩ := List.mem_map.1 hkey
    rw [profileName?_spell spelled hn] at hnone
    cases hnone
  exact (Normalized.mk.injEq _ _ _ _).mpr ⟨hsections, hignored⟩

end Spelled

theorem isName_of_mem_configuration {n : String} (hn : n ∈ (m.normalize .configuration).sections.keys) : SourceKind.IsName n := by
  obtain ⟨spelled, -, ha⟩ := (mem_keys_renameBy SourceKind.configuration.profileName? m).1 hn
  obtain ⟨hname, -⟩ := SourceKind.profileName?_eq_some_iff.1 ha
  exact hname

/-! ## Main result -/

/-- **Dialect round trip.** Take sections whose names are not empty, have no blank at either end and do not begin with the mark, and
write each name in any of the ways of a configuration. No two sections become one, and reading the result as a configuration gives
the same sections in the same order, each with its keys in the same order, and ignores nothing; so does reading the sections
themselves as credentials. And whatever a configuration holds, no name that is read from it is empty or has a blank at an end. -/
theorem dialects_round_trip (named : ∀ n ∈ m.keys, SourceKind.IsName n ∧ ¬ SourceKind.Marked n)
    (written : ∀ n ∈ m.keys, SourceKind.Writes n (spell n)) :
    (m.respell spell).entries = (m.entries.map fun e => (spell e.1, e.2)) ∧
      (m.respell spell).normalize .configuration = ⟨m, []⟩ ∧
      m.normalize .credentials = ⟨m, []⟩ ∧
      ∀ input : Sections, ∀ n ∈ (input.normalize .configuration).sections.keys, SourceKind.IsName n := by
  have hconfiguration : ∀ n ∈ m.keys, SourceKind.configuration.Spells (spell n) n := fun n hn =>
    .configuration (named n hn).1 (written n hn)
  have hcredentials : ∀ n ∈ m.keys, SourceKind.credentials.Spells (id n) n := fun n hn => .credentials (named n hn).2
  refine ⟨entries_respell hconfiguration, normalize_respell hconfiguration, ?_, fun input n hn =>
    isName_of_mem_configuration hn⟩
  have hself := normalize_respell hcredentials
  rwa [respell_id] at hself

/-- the default profile, a name with blanks inside and a number -/
def crew : Sections :=
  .ofList [("default", .ofList [("region", "eu-west-1")]), ("night  crew", .ofList [("role", "ops"), ("10", "b"), ("9", "a")]),
    ("7", .ofList [(parentProperty, "default")])]

/-- the default name plainly, every other one behind the mark with a tab before it, and a no-break space and a blank after it -/
def spaced (n : String) : String :=
  if n = SourceKind.defaultName then n else SourceKind.mark ++ "\t" ++ n ++ "\u00a0 "

/-- both ways of writing the crew are read as the crew -/
theorem round_trip_of_crew :
    (crew.respell spaced).keys = ["default", "profile \tnight  crew\u00a0 ", "profile \t7\u00a0 "] ∧
      (crew.respell spaced).normalize .configuration = ⟨crew, []⟩ ∧ crew.normalize .credentials = ⟨crew, []⟩ := by
  have hwritten : ∀ n ∈ crew.keys, SourceKind.Writes n (spaced n) := by
    intro n _
    by_cases hn : n = SourceKind.defaultName
    · subst hn
      exact .plain
    · rw [spaced, if_neg hn]
      exact .marked (by decide) (by decide)
  obtain ⟨-, hconfiguration, hcredentials, -⟩ := dialects_round_trip (by decide) hwritten
  exact ⟨by decide, hconfiguration, hcredentials⟩

end Sections

end LayeredProfiles
