/-
Aggregating stores group by group gives what aggregating them at once gives.

The stores that groups are aggregated to have their profiles in another order than the flat merge, and their handles resolved
anew. But they show sections that agree with the merged sections of their group, and merging merged groups is merging all
(`Sections.merge_flatten`).

Main statement: `grouped_aggregation_agrees`.
-/
import Mathlib.Tactic
import LayeredProfiles.Proofs.AggregationFaults
import LayeredProfiles.Proofs.MergeViews
import LayeredProfiles.Proofs.StoreEquality

namespace LayeredProfiles

/-! ## Stores aggregated in groups -/

section Groups

variable {groups : List (List Store)} {results : List Store}

theorem agrees_of_groups (built : List.Forall₂ (fun g s => Store.aggregate g = .ok s) groups results) :
    (Sections.merge (groups.flatten.map Store.toSections)).Agrees (Sections.merge (results.map Store.toSections)) := by
  rw [List.map_flatten, Sections.merge_flatten, List.map_map]
  apply Sections.merge_agrees
  induction built with
  | nil => exact .nil
  | cons hg _ ih => exact .cons (resolved_of_resolve hg).agrees_toSections.symm ih

theorem made_of_groups (made : ∀ g ∈ groups, ∀ s ∈ g, s.Made)
    (built : List.Forall₂ (fun g s => Store.aggregate g = .ok s) groups results) : ∀ s ∈ results, s.Made := by
  induction built with
  | nil => simp
  | @cons g t groups results hg _ ih =>
    intro s hs
    rcases List.mem_cons.1 hs with rfl | hs
    · exact .aggregate (made g List.mem_cons_self) hg
    · exact ih (fun g hg => made g (List.mem_cons_of_mem _ hg)) s hs

end Groups

/-! ## Main result -/

/-- **Incremental aggregation.** Cut stores into consecutive groups that can each be aggregated. Then all of them at once can be
aggregated exactly when the groups' results can; the two stores are equal then, and the two faults circular otherwise. -/
theorem grouped_aggregation_agrees {groups : List (List Store)} {results : List Store}
    (made : ∀ g ∈ groups, ∀ s ∈ g, s.Made)
    (built : List.Forall₂ (fun g s => Store.aggregate g = .ok s) groups results) :
    ((∃ s, Store.aggregate groups.flatten = .ok s) ↔ ∃ t, Store.aggregate results = .ok t) ∧
      (∀ s t, Store.aggregate groups.flatten = .ok s → Store.aggregate results = .ok t → s.equals t = true) ∧
      (∀ f, Store.aggregate groups.flatten = .error f → ∃ chain, f = .circular chain) ∧
      ∀ f, Store.aggregate results = .error f → ∃ chain, f = .circular chain := by
  have hagree := agrees_of_groups built
  have hflat : ∀ s ∈ groups.flatten, s.Made := by
    intro s hs
    obtain ⟨g, hg, hsg⟩ := List.mem_flatten.1 hs
    exact made g hg s hsg
  refine ⟨⟨hagree.resolve_ok, hagree.symm.resolve_ok⟩, fun s t hs ht => ?_, fun f hf => ?_, fun f hf => ?_⟩
  · exact ((resolved_of_resolve hs).equals_iff (resolved_of_resolve ht)).2 hagree
  · exact Store.circular_of_aggregate hflat hf
  · exact Store.circular_of_aggregate (made_of_groups made built) hf

def team : Sections :=
  .ofList [("base", .empty), ("dev", .ofList [(parentProperty, "base"), ("region", "eu-west-1")])]

def site : Sections := .ofList [("root", .ofList [("region", "us-east-1")]), ("base", .ofList [(parentProperty, "root")])]

/-- `dev` without parent, and what the others leave open -/
def fallback : Sections := .ofList [("dev", .ofList [("output", "json")]), ("root", .ofList [("output", "text")])]

/-- the two upper stores first, and the third then, or all three at once -/
theorem aggregate_of_team_and_site_then_fallback :
    ∃ r s t, Store.aggregate [.ofSorted team, .ofSorted site] = .ok r ∧
      Store.aggregate [.ofSorted team, .ofSorted site, .ofSorted fallback] = .ok s ∧
      Store.aggregate [r, .ofSorted fallback] = .ok t ∧ s.equals t = true := by
  have hdown : ∀ m ∈ [team, site, fallback], m.TopDown := by decide
  obtain ⟨r, hr⟩ : ∃ r, Store.aggregate [.ofSorted team, .ofSorted site] = .ok r :=
    (Store.resolve_ok_iff _).2 (by decide)
  obtain ⟨s, hs⟩ : ∃ s, Store.aggregate [.ofSorted team, .ofSorted site, .ofSorted fallback] = .ok s :=
    (Store.resolve_ok_iff _).2 (by decide)
  have hlast : Store.aggregate [.ofSorted fallback] = .ok (.ofSorted fallback) := (hdown fallback (by simp)).resolve_eq
  have hbuilt : List.Forall₂ (fun g s => Store.aggregate g = .ok s)
      [[.ofSorted team, .ofSorted site], [.ofSorted fallback]] [r, .ofSorted fallback] := .cons hr (.cons hlast .nil)
  obtain ⟨hiff, hequal, -, -⟩ := grouped_aggregation_agrees (fun g hg u hu => by
    have hu : u ∈ [team, site, fallback].map Store.ofSorted := List.mem_flatten.2 ⟨g, hg, hu⟩
    obtain ⟨m, hm, rfl⟩ := List.mem_map.1 hu
    exact (hdown m hm).made) hbuilt
  obtain ⟨t, ht⟩ := hiff.1 ⟨s, hs⟩
  exact ⟨r, s, t, hr, hs, ht, hequal s t hs ht⟩

end LayeredProfiles
