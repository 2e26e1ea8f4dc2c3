/-
Which changes to a list of stores leave its aggregate as it is.

Of its stores an aggregate shows names and values only, each value being that of the first store that has it. So a store may be
replaced by an equal one, and a store may go whose names and properties are all there before it. The merged sections then stand in
another order and resolving climbs other walks, but they agree (`merge_agrees_of_shadowed`), and that is enough for the outcome.

Main statement: `aggregation_respects_equality`.
-/
import Mathlib.Tactic
import LayeredProfiles.Proofs.EqualStores

namespace LayeredProfiles

namespace Store

/-- both give a store or neither does, and when they do the stores are equal -/
def SameOutcome (r r' : Except ParentFault Store) : Prop :=
  ((∃ s, r = .ok s) ↔ ∃ t, r' = .ok t) ∧ ∀ s t, r = .ok s → r' = .ok t → s.equals t = true

/-- every profile, and every property of every profile, is there in some of the stores before, with whatever value -/
structure ShadowedBy (s : Store) (before : List Store) : Prop where
  profiles : ∀ n, s.has n = true → ∃ e ∈ before, e.has n = true
  properties : ∀ n key, (s.property? n key).isSome = true → ∃ e ∈ before, (e.property? n key).isSome = true

end Store

namespace Sections

variable {m m' : Sections} {before after : List Sections} {t : Sections}

theorem Agrees.sameOutcome (h : m.Agrees m') : Store.SameOutcome (Store.resolve m) (Store.resolve m') := by
  refine ⟨⟨h.resolve_ok, h.symm.resolve_ok⟩, fun s t hs ht => ?_⟩
  exact ((resolved_of_resolve hs).equals_iff (resolved_of_resolve ht)).2 h

theorem merge_agrees_of_shadowed (names : ∀ n, t.contains n = true → ∃ u ∈ before, u.contains n = true)
    (values : ∀ n key, (t.value? n key).isSome = true → ∃ u ∈ before, (u.value? n key).isSome = true) :
    (merge (before ++ t :: after)).Agrees (merge (before ++ after)) := by
  refine ⟨fun n => ?_, fun n key => ?_⟩
  · rw [Bool.eq_iff_iff, contains_merge, contains_merge]
    constructor
    · rintro ⟨u, hu, hn⟩
      rcases List.mem_append.1 hu with hu | hu
      · exact ⟨u, List.mem_append_left after hu, hn⟩
      rcases List.mem_cons.1 hu with rfl | hu
      · obtain ⟨v, hv, hvn⟩ := names n hn
        exact ⟨v, List.mem_append_left after hv, hvn⟩
      · exact ⟨u, List.mem_append_right before hu, hn⟩
    · rintro ⟨u, hu, hn⟩
      rcases List.mem_append.1 hu with hu | hu
      · exact ⟨u, List.mem_append_left _ hu, hn⟩
      · exact ⟨u, List.mem_append_right before (List.mem_cons_of_mem t hu), hn⟩
  · rw [value?_merge, value?_merge, List.findSome?_append, List.findSome?_append, List.findSome?_cons]
    cases ht : t.value? n key with
    | none => rfl
    | some v =>
      -- some table before has a value too, and the first such decides
      have hfound : (before.findSome? fun u => u.value? n key).isSome = true :=
        List.findSome?_isSome_iff.2 (values n key (by rw [ht]; rfl))
      obtain ⟨w, hw⟩ := Option.isSome_iff_exists.1 hfound
      rw [hw, Option.some_or, Option.some_or]

end Sections

namespace Store

variable {s t e : Store} {before after : List Store}

theorem aggregate_replace (h : s.equals t = true) :
    SameOutcome (aggregate (before ++ s :: after)) (aggregate (before ++ t :: after)) := by
  have hrefl : ∀ l : List Sections, List.Forall₂ Sections.Agrees l l := fun l =>
    List.forall₂_same.2 fun m _ => Sections.Agrees.refl m
  unfold aggregate
  rw [List.map_append, List.map_cons, List.map_append, List.map_cons]
  apply Sections.Agrees.sameOutcome
  apply Sections.merge_agrees
  exact List.rel_append (hrefl _) (.cons (agrees_of_equals h) (hrefl _))

theorem ShadowedBy.aggregate_delete (h : s.ShadowedBy before) :
    SameOutcome (aggregate (before ++ s :: after)) (aggregate (before ++ after)) := by
  unfold aggregate
  rw [List.map_append, List.map_cons, List.map_append]
  apply Sections.Agrees.sameOutcome
  refine Sections.merge_agrees_of_shadowed (fun n hn => ?_) fun n key hv => ?_
  · rw [contains_toSections] at hn
    obtain ⟨e, he, hen⟩ := h.profiles n hn
    exact ⟨e.toSections, List.mem_map_of_mem he, (e.contains_toSections n).trans hen⟩
  · rw [value?_toSections] at hv
    obtain ⟨e, he, hev⟩ := h.properties n key hv
    exact ⟨e.toSections, List.mem_map_of_mem he, by rwa [value?_toSections]⟩

theorem shadowedBy_of_equals (he : e ∈ before) (h : e.equals s = true) : s.ShadowedBy before := by
  have hagree := agrees_of_equals h
  refine ⟨fun n hn => ⟨e, he, ?_⟩, fun n key hv => ⟨e, he, ?_⟩⟩
  · rwa [← contains_toSections, hagree.names, contains_toSections]
  · rwa [← value?_toSections, hagree.values, value?_toSections]

/-- shadowing can be tested profile by profile -/
theorem shadowedBy_iff :
    s.ShadowedBy before ↔ ∀ d ∈ s.profiles.entries, (∃ e ∈ before, e.has d.1 = true) ∧
      ∀ key ∈ d.2.properties.keys, ∃ e ∈ before, (e.property? d.1 key).isSome = true := by
  constructor
  · intro h d hd
    have hp : s.profile? d.1 = some d.2 := OrderedMap.get?_eq_of_mem hd
    refine ⟨h.profiles d.1 ((s.profiles.contains_iff d.1).2 ⟨d.2, hp⟩), fun key hk => h.properties d.1 key ?_⟩
    rw [property?, hp]
    exact (d.2.properties.mem_keys_iff key).1 hk
  · intro h
    refine ⟨fun n hn => ?_, fun n key hv => ?_⟩
    · obtain ⟨p, hp⟩ := (s.profiles.contains_iff n).1 hn
      exact (h (n, p) (OrderedMap.mem_of_get?_eq hp)).1
    · obtain ⟨v, hv⟩ := Option.isSome_iff_exists.1 hv
      obtain ⟨p, hp, hpv⟩ := Option.bind_eq_some_iff.1 hv
      have hk : key ∈ p.properties.keys := (p.properties.mem_keys_iff key).2 ((p.properties.contains_iff key).2 ⟨v, hpv⟩)
      exact (h (n, p) (OrderedMap.mem_of_get?_eq hp)).2 key hk

instance (s : Store) (before : List Store) : Decidable (s.ShadowedBy before) := decidable_of_iff' _ shadowedBy_iff

end Store

/-! ## Main result -/

/-- **What an aggregate depends on.** Put an equal store in the place of any store of a list, or leave out a store that is
shadowed by those before it: whether there is an aggregate stays as it was, and so does the aggregate up to equality. A store that
equals an earlier one is shadowed. -/
theorem aggregation_respects_equality (before after : List Store) (s : Store) :
    (∀ t : Store, s.equals t = true →
        Store.SameOutcome (Store.aggregate (before ++ s :: after)) (Store.aggregate (before ++ t :: after))) ∧
      (s.ShadowedBy before →
        Store.SameOutcome (Store.aggregate (before ++ s :: after)) (Store.aggregate (before ++ after))) ∧
      ∀ e ∈ before, e.equals s = true → s.ShadowedBy before :=
  ⟨fun _ h => Store.aggregate_replace h, fun h => h.aggregate_delete, fun _ he h => Store.shadowedBy_of_equals he h⟩

/-- `dev` below `base` -/
def personal : Sections :=
  .ofList [("base", .empty), ("dev", .ofList [(parentProperty, "base"), ("region", "eu-west-1")])]

/-- `ci` below `ops`, and what `dev` has not set -/
def shared : Sections :=
  .ofList [("ops", .empty), ("ci", .ofList [(parentProperty, "ops")]), ("dev", .ofList [("output", "json")])]

/-- everything is there in one of the two, but with `ci` below `dev` -/
def covered : Sections :=
  .ofList [("ops", .empty), ("dev", .ofList [("region", "us-east-1"), ("output", "text")]),
    ("ci", .ofList [(parentProperty, "dev")])]

/-- the same in another order -/
def coveredAnew : Sections :=
  .ofList [("dev", .ofList [("output", "text"), ("region", "us-east-1")]), ("ci", .ofList [(parentProperty, "dev")]),
    ("ops", .empty)]

/-- a parent for `ops`, and a key for `dev` -/
def bottom : Sections :=
  .ofList [("root", .empty), ("ops", .ofList [(parentProperty, "root")]), ("dev", .ofList [("key", "k1")])]

/-- neither of the two first stores shadows the third alone, but both do: with it, with an equal one or without it the aggregate
is the same -/
theorem aggregate_of_covered :
    let upper := [Store.ofSorted personal, .ofSorted shared]
    ((∀ e ∈ upper, ¬ (Store.ofSorted covered).ShadowedBy [e]) ∧ (Store.ofSorted covered).ShadowedBy upper) ∧
      ∃ u v w, Store.aggregate (upper ++ .ofSorted covered :: [.ofSorted bottom]) = .ok u ∧
        Store.aggregate (upper ++ .ofSorted coveredAnew :: [.ofSorted bottom]) = .ok v ∧
        Store.aggregate (upper ++ [.ofSorted bottom]) = .ok w ∧ u.equals v = true ∧ u.equals w = true := by
  intro upper
  have hshadowed : (Store.ofSorted covered).ShadowedBy upper := by decide
  obtain ⟨hreplace, hdelete, -⟩ := aggregation_respects_equality upper [.ofSorted bottom] (.ofSorted covered)
  obtain ⟨hiff, hequal⟩ := hreplace (.ofSorted coveredAnew) (by decide)
  obtain ⟨hiff', hequal'⟩ := hdelete hshadowed
  obtain ⟨u, hu⟩ : ∃ u, Store.aggregate (upper ++ Store.ofSorted covered :: [Store.ofSorted bottom]) = .ok u :=
    (Store.resolve_ok_iff _).2 (by decide)
  obtain ⟨v, hv⟩ := hiff.1 ⟨u, hu⟩
  obtain ⟨w, hw⟩ := hiff'.1 ⟨u, hu⟩
  exact ⟨⟨by decide, hshadowed⟩, u, v, w, hu, hv, hw, hequal u v hu hv, hequal' u w hu hw⟩

end LayeredProfiles
