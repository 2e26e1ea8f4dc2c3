/-
Climbing from a profile to its ancestors, round by round.

A lineage can be found by a loop with no memory but the profiles it has passed and no bound: each round passes the profile at hand
and goes on to its parent (`Store.round`). Whatever the store, after k rounds the loop has passed the first k profiles of the lineage
and stands at the next one (`Store.iterate_round`), so all that the loop does is read off the lineage. In the stores that the
operations give, the parent stands at an earlier position, and so the number of rounds is bounded by the position of the name.

Main statement: `lineage_climbs_to_root`.
-/
import Mathlib.Tactic
import LayeredProfiles.Proofs.Lineage
import LayeredProfiles.Proofs.RoundTrip

namespace LayeredProfiles

variable {s : Store} {n : String} {p q : Profile}

namespace Store

/-! ## Rounds -/

/-- a climb under way: the profile at hand, if there is one, and those that it has passed -/
structure Climber where
  current? : Option Profile
  passed : List Profile
  deriving DecidableEq

/-- one round: the profile at hand is passed, and its parent is next; without a profile at hand the climb is over -/
def round (s : Store) (c : Climber) : Climber :=
  match c.current? with
  | none => c
  | some p => ⟨s.parentOf? p, c.passed ++ [p]⟩

theorem round_over (s : Store) (passed : List Profile) (k : Nat) : s.round^[k] ⟨none, passed⟩ = ⟨none, passed⟩ :=
  Function.iterate_fixed rfl k

/-- after k rounds the first k profiles of the lineage are passed, and the next one is at hand -/
theorem iterate_round (s : Store) (n : String) (passed : List Profile) (k : Nat) :
    s.round^[k] ⟨s.profile? n, passed⟩ = ⟨(s.lineage n)[k]?, passed ++ (s.lineage n).take k⟩ := by
  induction k generalizing n passed with
  | zero =>
    cases hp : s.profile? n with
    | none => simp [lineage_of_none hp]
    | some p => simp [lineage_of_profile hp]
  | succ k ih =>
    cases hp : s.profile? n with
    | none => simp [lineage_of_none hp, round_over]
    | some p =>
      have hround : s.round ⟨some p, passed⟩ = ⟨s.parentOf? p, passed ++ [p]⟩ := rfl
      rw [Function.iterate_succ_apply, hround, lineage_of_profile hp, parentOf?]
      cases p.parent? with
      | none => simp [round_over]
      | some parent => simp [ih]

/-- the next profile of a lineage is the parent of the one before -/
theorem getElem?_lineage_succ (s : Store) (n : String) (k : Nat) :
    (s.lineage n)[k + 1]? = (s.lineage n)[k]?.bind s.parentOf? := by
  have hnext := s.iterate_round n [] (k + 1)
  rw [Function.iterate_succ_apply', iterate_round] at hnext
  cases hk : (s.lineage n)[k]? with
  | none =>
    rw [hk] at hnext
    exact (congrArg Climber.current? hnext).symm
  | some p =>
    rw [hk] at hnext
    exact (congrArg Climber.current? hnext).symm

theorem lineage_eq_nil_iff : s.lineage n = [] ↔ s.has n = false := by
  unfold has
  rw [OrderedMap.contains_eq_false_iff]
  constructor
  · intro h
    cases hp : s.profile? n with
    | none => exact hp
    | some p => simp [lineage_of_profile hp] at h
  · exact lineage_of_none

theorem head?_lineage (s : Store) (n : String) : (s.lineage n).head? = s.profile? n := by
  cases hp : s.profile? n with
  | none => rw [lineage_of_none hp, List.head?_nil]
  | some p => rw [lineage_of_profile hp, List.head?_cons]

theorem lineage_isChain (s : Store) (n : String) :
    (s.lineage n).IsChain fun child parent => s.parentOf? child = some parent := by
  rw [List.isChain_iff_getElem]
  intro k hk
  have hnext := s.getElem?_lineage_succ n k
  rw [List.getElem?_eq_getElem hk, List.getElem?_eq_getElem (Nat.lt_of_succ_lt hk)] at hnext
  exact hnext.symm

/-- there is no parent after the last profile -/
theorem parentOf?_last (h : q ∈ (s.lineage n).getLast?) : s.parentOf? q = none := by
  have hnext := s.getElem?_lineage_succ n ((s.lineage n).length - 1)
  rw [← List.getLast?_eq_getElem?, Option.mem_def.1 h] at hnext
  rw [← Option.bind_some q s.parentOf?, ← hnext, List.getElem?_eq_none_iff]
  omega

theorem mem_of_mem_lineage (h : q ∈ s.lineage n) : ∃ a, s.profile? a = some q := by
  obtain ⟨k, hk⟩ := List.mem_iff_getElem?.1 h
  cases k with
  | zero => exact ⟨n, by rw [← hk, ← head?_lineage, List.head?_eq_getElem?]⟩
  | succ k =>
    rw [getElem?_lineage_succ] at hk
    obtain ⟨child, -, hp⟩ := Option.bind_eq_some_iff.1 hk
    obtain ⟨parent, -, hq⟩ := Option.bind_eq_some_iff.1 hp
    exact ⟨parent, hq⟩

end Store

/-! ## Stores that show their sections -/

namespace Resolved

variable {m : Sections}

/-- links lead towards the front, so there are no more of them than names before -/
theorem rooted_le_idxOf (hr : Resolved m s) {k : Nat} (hn : m.Rooted n k) : k ≤ s.names.idxOf n := by
  induction hn with
  | root => exact Nat.zero_le _
  | link up _ ih => exact Nat.succ_le_of_lt (ih.trans_lt (hr.before _ _ up))

theorem name_of_profile? (hr : Resolved m s) (h : s.profile? n = some p) : p.name = n := by
  rw [hr.profile] at h
  obtain ⟨properties, -, rfl⟩ := Option.map_eq_some_iff.1 h
  rfl

/-- a profile without parent in the store declares none -/
theorem declaredParent?_of_parentOf? (hr : Resolved m s) (h : s.profile? n = some p) (hp : s.parentOf? p = none) :
    p.declaredParent? = none := by
  rw [hr.profile] at h
  obtain ⟨properties, hg, rfl⟩ := Option.map_eq_some_iff.1 h
  cases hd : properties.declaredParent? with
  | none => exact hd
  | some parent =>
    obtain ⟨q, -, hq⟩ := hr.profile?_parent ((Sections.parentOf?_of_get? hg).trans hd)
    simp [Store.parentOf?, hd, hq] at hp

end Resolved

namespace Store.Made

theorem exists_rooted (h : s.Made) (hn : s.has n = true) : ∃ k, s.toSections.Rooted n k :=
  Sections.sound_iff_rooted.1 (h.sound (s.contains_toSections n ▸ hn))

theorem names_lineage_nodup (h : s.Made) (n : String) : ((s.lineage n).map Profile.name).Nodup := by
  cases hn : s.has n with
  | false => simp [lineage_eq_nil_iff.2 hn]
  | true =>
    obtain ⟨k, hk⟩ := h.exists_rooted hn
    rw [h.resolved.names_lineage hk]
    exact hk.walk_nodup (k + 1)

theorem length_lineage_le (h : s.Made) (n : String) : (s.lineage n).length ≤ s.names.idxOf n + 1 := by
  cases hn : s.has n with
  | false => simp [lineage_eq_nil_iff.2 hn]
  | true =>
    obtain ⟨k, hk⟩ := h.exists_rooted hn
    have hlength : (s.lineage n).length = k + 1 := by
      rw [← List.length_map Profile.name, h.resolved.names_lineage hk, hk.length_walk]
    rw [hlength]
    exact Nat.succ_le_succ (h.resolved.rooted_le_idxOf hk)

/-- behind a profile its lineage is that of its parent -/
theorem tail_lineage (h : s.Made) (n : String) :
    (s.lineage n).tail = ((s.profile? n).bind s.parentOf?).elim [] fun parent => s.lineage parent.name := by
  cases hp : s.profile? n with
  | none => simp [lineage_of_none hp]
  | some p =>
    rw [lineage_of_profile hp, List.tail_cons, Option.bind_some, parentOf?]
    cases p.parent? with
    | none => rfl
    | some parent =>
      rw [Option.elim_some, Option.bind_some]
      cases hq : s.profile? parent with
      | none => rw [lineage_of_none hq, Option.elim_none]
      | some q => rw [Option.elim_some, h.resolved.name_of_profile? hq]

end Store.Made

/-! ## Main result -/

/-- **Lineages climb to a root.** The climb from a name is over after no more rounds than its position and one, and what it has
passed then is the lineage. This is empty exactly when there is no profile of the name. Else it begins with that profile, goes on
from child to parent, ends at a profile that declares no parent, and repeats no name; and what comes behind the first profile is the
lineage of its parent. -/
theorem lineage_climbs_to_root (h : s.Made) (n : String) :
    (∃ k ≤ s.names.idxOf n + 1, s.round^[k] ⟨s.profile? n, []⟩ = ⟨none, s.lineage n⟩) ∧
      (s.lineage n = [] ↔ s.has n = false) ∧
      (s.lineage n).head? = s.profile? n ∧
      ((s.lineage n).IsChain fun child parent => s.parentOf? child = some parent) ∧
      (∀ root ∈ (s.lineage n).getLast?, root.declaredParent? = none) ∧
      ((s.lineage n).map Profile.name).Nodup ∧
      (s.lineage n).length ≤ s.names.idxOf n + 1 ∧
      (s.lineage n).tail = ((s.profile? n).bind s.parentOf?).elim [] fun parent => s.lineage parent.name := by
  refine ⟨⟨_, h.length_lineage_le n, ?_⟩, Store.lineage_eq_nil_iff, s.head?_lineage n, s.lineage_isChain n, ?_,
    h.names_lineage_nodup n, h.length_lineage_le n, h.tail_lineage n⟩
  · rw [Store.iterate_round, List.getElem?_eq_none le_rfl, List.take_length, List.nil_append]
  · intro root hroot
    obtain ⟨a, ha⟩ := Store.mem_of_mem_lineage (List.mem_of_getLast? hroot)
    exact h.resolved.declaredParent?_of_parentOf? ha (Store.parentOf?_last hroot)

/-- two branches from one root, the one of them longer -/
def branches : Sections :=
  .ofList [("root", .ofList [("region", "eu-west-1")]), ("7", .ofList [(parentProperty, "root")]),
    ("ops", .ofList [(parentProperty, "root")]), ("dev", .ofList [(parentProperty, "7"), ("output", "json")])]

/-- from the last position `dev` climbs over `7` to `root`; what is behind `dev` is the lineage of `7`, and `test` has none -/
theorem lineage_of_dev_among_branches :
    (Store.ofSorted branches).Made ∧ (Store.ofSorted branches).names = ["root", "7", "ops", "dev"] ∧
      ((Store.ofSorted branches).lineage "dev").map Profile.name = ["dev", "7", "root"] ∧
      (∃ k ≤ 4, (Store.ofSorted branches).round^[k] ⟨(Store.ofSorted branches).profile? "dev", []⟩ =
        ⟨none, (Store.ofSorted branches).lineage "dev"⟩) ∧
      (Store.ofSorted branches).lineage "test" = [] := by
  have hmade : (Store.ofSorted branches).Made := Sections.TopDown.made (by decide)
  obtain ⟨hends, -⟩ := lineage_climbs_to_root hmade "dev"
  obtain ⟨-, hempty, -⟩ := lineage_climbs_to_root hmade "test"
  exact ⟨hmade, by decide, by decide, hends, hempty.2 (by decide)⟩

end LayeredProfiles
