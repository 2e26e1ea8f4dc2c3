/-
The lineage of a profile: the profile, its parent, the parent of that one, and so on.

`Store.lineage` finds it in one pass over the profiles from the back. Names are unique and a handle points towards the front, so
the profiles that the pass has left behind are never asked for again: what it finds after a profile is the lineage of the parent.

Results:
- `Store.lineage_of_profile`: a lineage is the profile followed by the lineage of its parent.
- `Resolved.names_lineage`: in a resolved store the names of a lineage are the parent walk of the sections.
- `Resolved.name_parentOf?`: the parent that a name looks up has the name that the section declares.
-/
import Mathlib.Tactic
import LayeredProfiles.Proofs.StoreInvariant

namespace LayeredProfiles

variable {m : Sections} {s : Store} {n : String} {p : Profile}

namespace Store

/-! ## The pass from the back -/

theorem lineageFrom_append {later : List (String × Profile)} (hl : ∀ e ∈ later, e.1 ≠ n)
    (earlier : List (String × Profile)) : lineageFrom (later ++ earlier) n = lineageFrom earlier n := by
  induction later with
  | nil => rfl
  | cons e later ih =>
    rw [List.cons_append, lineageFrom, if_neg (hl e List.mem_cons_self)]
    exact ih fun d hd => hl d (List.mem_cons_of_mem e hd)

/-- the lineage of a name is found among the profiles up to its own -/
theorem lineage_eq_lineageFrom {front back : List (String × Profile)} (he : s.profiles.entries = front ++ back)
    (hn : n ∈ front.map (·.1)) : s.lineage n = lineageFrom front.reverse n := by
  have hd : (front.map (·.1) ++ back.map (·.1)).Nodup := by
    have h := s.profiles.nodup_keys
    rwa [OrderedMap.keys, he, List.map_append] at h
  rw [lineage, he, List.reverse_append]
  refine lineageFrom_append (fun e hb heq => ?_) front.reverse
  have hback : n ∈ back.map (·.1) := heq ▸ List.mem_map_of_mem (List.mem_reverse.1 hb)
  exact (List.nodup_append.1 hd).2.2 n hn n hback rfl

theorem lineage_of_profile (h : s.profile? n = some p) : s.lineage n = p :: p.parent?.elim [] s.lineage := by
  obtain ⟨front, back, he⟩ := List.append_of_mem (OrderedMap.mem_of_get?_eq h)
  have hcut : s.profiles.entries = (front ++ [(n, p)]) ++ back := by simp [he]
  have hpass : s.lineage n = p :: p.parent?.elim [] (lineageFrom front.reverse) := by
    rw [lineage_eq_lineageFrom hcut (by simp), List.reverse_append, List.reverse_singleton, List.singleton_append,
      lineageFrom, if_pos rfl]
    cases p.parent? <;> rfl
  cases hp : p.parent? with
  | none => rw [hpass, hp]; rfl
  | some parent =>
    have hfront : parent ∈ front.map (·.1) := (s.settled front n p back he).2 parent hp
    rw [hpass, hp, Option.elim_some, Option.elim_some, lineage_eq_lineageFrom he hfront]

theorem lineage_of_none (h : s.profile? n = none) : s.lineage n = [] := by
  have hall : ∀ e ∈ s.profiles.entries.reverse, e.1 ≠ n := fun e he =>
    (OrderedMap.find?_eq_none_iff n s.profiles.entries).1 h e (List.mem_reverse.1 he)
  have hskip := lineageFrom_append hall []
  rw [List.append_nil] at hskip
  exact hskip

end Store

/-! ## Lineages and walks -/

namespace Resolved

theorem names_lineage (hr : Resolved m s) {k : Nat} (hn : m.Rooted n k) :
    (s.lineage n).map Profile.name = m.walk n (k + 1) := by
  induction hn with
  | @root n here top =>
    obtain ⟨p, hg⟩ := (m.contains_iff n).1 here
    have hd : p.declaredParent? = none := (Sections.parentOf?_of_get? hg).symm.trans top
    have hp : s.profile? n = some ⟨n, p, none⟩ := by rw [hr.profile, hg, Option.map_some, hd]
    rw [Store.lineage_of_profile hp, Sections.walk_of_root top]
    rfl
  | @link n parent k up _ ih =>
    obtain ⟨p, hg⟩ := (m.contains_iff n).1 (Sections.contains_of_parentOf? up)
    have hd : p.declaredParent? = some parent := (Sections.parentOf?_of_get? hg).symm.trans up
    have hp : s.profile? n = some ⟨n, p, some parent⟩ := by rw [hr.profile, hg, Option.map_some, hd]
    rw [Store.lineage_of_profile hp, Sections.walk_of_link up, List.map_cons, Option.elim_some, ih]

theorem name_parentOf? (hr : Resolved m s) (n : String) :
    ((s.profile? n).bind s.parentOf?).map Profile.name = m.parentOf? n := by
  rw [hr.profile]
  cases hg : m.get? n with
  | none => simp [Sections.parentOf?, hg]
  | some p =>
    have hlink : m.parentOf? n = p.declaredParent? := Sections.parentOf?_of_get? hg
    rw [Option.map_some, Option.bind_some, Store.parentOf?, hlink]
    cases hd : p.declaredParent? with
    | none => rfl
    | some parent =>
      obtain ⟨q, hq, hs⟩ := hr.profile?_parent (hlink.trans hd)
      rw [Option.bind_some, hs, Option.map_some, hq]

end Resolved

end LayeredProfiles
