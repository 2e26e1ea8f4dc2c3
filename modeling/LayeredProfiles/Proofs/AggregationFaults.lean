/-
Why an aggregate can fail.

Among several stores the first that declares a parent for a name is the `supplier?` of that link. Each store alone is closed, so
the merged sections are closed too and no parent can be missing. Each store alone has no cycle, so a cycle in the merged
sections takes its links from at least two of them.

Main statement: `aggregation_fails_by_cycle`.
-/
import Mathlib.Tactic
import LayeredProfiles.Proofs.RoundTrip

namespace LayeredProfiles

namespace Sections

theorem merge_closed {tables : List Sections} (h : ∀ t ∈ tables, t.Closed) : (merge tables).Closed := by
  intro child parent hp
  rw [parentOf?_eq_value?, value?_merge] at hp
  obtain ⟨t, ht, hv⟩ := List.exists_of_findSome?_eq_some hp
  exact (contains_merge tables parent).2 ⟨t, ht, h t ht child parent hv⟩

end Sections

namespace Store

variable {stores : List Store}

/-! ## Suppliers -/

/-- the parent that the profile of a name declares -/
def declaredParent? (s : Store) (name : String) : Option String := (s.profile? name).bind Profile.declaredParent?

/-- the first store that declares a parent for a name -/
def supplier? (stores : List Store) (name : String) : Option Store :=
  stores.find? fun s => (s.declaredParent? name).isSome

/-- the parent that it declares -/
def suppliedParent? (stores : List Store) (name : String) : Option String :=
  (supplier? stores name).bind fun s => s.declaredParent? name

theorem parentOf?_toSections (s : Store) (name : String) : s.toSections.parentOf? name = s.declaredParent? name := by
  rw [Sections.parentOf?, get?_toSections, declaredParent?]
  cases s.profile? name <;> rfl

/-- the merged sections declare what the suppliers do -/
theorem parentOf?_merge (stores : List Store) (name : String) :
    (Sections.merge (stores.map toSections)).parentOf? name = suppliedParent? stores name := by
  rw [Sections.parentOf?_eq_value?, Sections.value?_merge, List.findSome?_map, suppliedParent?, supplier?]
  induction stores with
  | nil => rfl
  | cons s stores ih =>
    have hs : s.toSections.value? name parentProperty = s.declaredParent? name := s.parentOf?_toSections name
    cases hd : s.declaredParent? name with
    | none => simpa [hs, hd] using ih
    | some parent => simp [hs, hd]

theorem exists_supplier {child parent : String} (h : suppliedParent? stores child = some parent) :
    ∃ s ∈ stores, supplier? stores child = some s ∧ s.declaredParent? child = some parent := by
  obtain ⟨s, hs, hp⟩ := Option.bind_eq_some_iff.1 h
  exact ⟨s, List.mem_of_find?_eq_some hs, hs, hp⟩

/-! ## What stores have on their own -/

theorem Made.not_cyclic {s : Store} (h : s.Made) : ¬ Cyclic s.declaredParent? := by
  have hs : s.toSections.parentOf? = s.declaredParent? := funext s.parentOf?_toSections
  rw [← hs]
  exact h.toSections_topDown.not_cyclic

theorem merge_toSections_closed (made : ∀ s ∈ stores, s.Made) : (Sections.merge (stores.map toSections)).Closed := by
  apply Sections.merge_closed
  intro t ht
  obtain ⟨s, hs, rfl⟩ := List.mem_map.1 ht
  exact (made s hs).toSections_topDown.closed

theorem circular_of_aggregate (made : ∀ s ∈ stores, s.Made) {f : ParentFault} (h : aggregate stores = .error f) :
    ∃ chain, f = .circular chain :=
  circular_of_closed (merge_toSections_closed made) h

/-! ## Where the links of a cycle come from -/

/-- a cycle has links of two stores: a store that supplied all of them would have the cycle itself -/
theorem exists_two_suppliers (made : ∀ s ∈ stores, s.Made) {name : String} {between : List String}
    (hc : (name :: between ++ [name]).IsChain fun child parent => suppliedParent? stores child = some parent) :
    ∃ a ∈ name :: between, ∃ b ∈ name :: between, ∃ s ∈ stores, ∃ t ∈ stores,
      supplier? stores a = some s ∧ supplier? stores b = some t ∧ s ≠ t := by
  obtain ⟨parent, hp⟩ := exists_link_of_mem hc List.mem_cons_self
  obtain ⟨s, hs, hsupply, -⟩ := exists_supplier hp
  by_contra hone
  have hall : ∀ a b, a ∈ name :: between ++ [name] → suppliedParent? stores a = some b → s.declaredParent? a = some b := by
    intro a b ha hab
    obtain ⟨t, ht, htsupply, hd⟩ := exists_supplier hab
    have hmem : a ∈ name :: between := by simpa [or_comm] using ha
    have hst : s = t := by
      by_contra hne
      exact hone ⟨name, List.mem_cons_self, a, hmem, s, hs, t, ht, hsupply, htsupply, hne⟩
    rw [hst]
    exact hd
  exact (made s hs).not_cyclic ⟨name, between, hc.imp_of_mem_imp fun a b ha _ => hall a b ha⟩

/-- a chain that leads into a cycle of supplied parents, where the links of the cycle are of two different stores or more -/
def Crossed (stores : List Store) (chain : List String) : Prop :=
  ∃ lead again between,
    chain = lead ++ again :: between ++ [again] ∧ (lead ++ again :: between).Nodup ∧
      (chain.IsChain fun child parent => suppliedParent? stores child = some parent) ∧
      ∃ a ∈ again :: between, ∃ b ∈ again :: between, ∃ s ∈ stores, ∃ t ∈ stores,
        supplier? stores a = some s ∧ supplier? stores b = some t ∧ s ≠ t

theorem crossed_of_aggregate (made : ∀ s ∈ stores, s.Made) {chain : List String}
    (h : aggregate stores = .error (.circular chain)) : Crossed stores chain := by
  obtain ⟨n, -, hf⟩ := exists_walkFault h
  obtain ⟨lead, again, between, rfl, hd, hc⟩ := hf.circular_shape
  rw [funext (parentOf?_merge stores)] at hc
  exact ⟨lead, again, between, rfl, hd, hc, exists_two_suppliers made (isChain_of_lead hc)⟩

theorem Crossed.two_le_length {chain : List String} (h : Crossed stores chain) : 2 ≤ stores.length := by
  obtain ⟨lead, again, between, -, -, -, a, -, b, -, s, hs, t, ht, -, -, hne⟩ := h
  rcases stores with _ | ⟨u, _ | ⟨v, rest⟩⟩
  · cases hs
  · rw [List.mem_singleton] at hs ht
    exact absurd (hs.trans ht.symm) hne
  · exact Nat.le_add_left 2 rest.length

end Store

/-! ## Main result -/

/-- **How aggregation fails.** Stores that the operations give are aggregated unless the merged parents have a cycle, and no
parent is ever missing. The chain that is reported is a way into a cycle and the cycle itself, whose links come from at least two
different stores; so fewer than two stores never fail. -/
theorem aggregation_fails_by_cycle {stores : List Store} (made : ∀ s ∈ stores, s.Made) :
    (∀ parent, Store.aggregate stores ≠ .error (.missing parent)) ∧
      ((∃ f, Store.aggregate stores = .error f) ↔ Cyclic (Store.suppliedParent? stores)) ∧
      (∀ f, Store.aggregate stores = .error f → ∃ chain, f = .circular chain ∧ Store.Crossed stores chain) ∧
      (stores.length < 2 → ∃ s, Store.aggregate stores = .ok s) := by
  have hfault : ∀ f, Store.aggregate stores = .error f → ∃ chain, f = .circular chain ∧ Store.Crossed stores chain := by
    intro f h
    obtain ⟨chain, rfl⟩ := Store.circular_of_aggregate made h
    exact ⟨chain, rfl, Store.crossed_of_aggregate made h⟩
  refine ⟨fun parent h => ?_, ?_, hfault, fun hlt => ?_⟩
  · obtain ⟨chain, hf, -⟩ := hfault _ h
    cases hf
  · rw [← funext (Store.parentOf?_merge stores)]
    exact Store.resolve_error_iff_cyclic (Store.merge_toSections_closed made)
  · cases h : Store.aggregate stores with
    | ok s => exact ⟨s, rfl⟩
    | error f =>
      obtain ⟨chain, -, hc⟩ := hfault f h
      exact absurd hc.two_le_length (by omega)

/-- `c` has its parent on the way to `b` -/
def outward : Sections :=
  .ofList [("b", .empty), ("a", .ofList [(parentProperty, "b")]), ("c", .ofList [(parentProperty, "a")])]

/-- the way back from `b` -/
def homeward : Sections := .ofList [("a", .empty), ("b", .ofList [(parentProperty, "a")])]

/-- each of the two resolves; together `a` has its parent from the one and `b` from the other -/
theorem aggregate_of_outward_and_homeward :
    ∃ s t, Store.resolve outward = .ok s ∧ Store.resolve homeward = .ok t ∧ (∃ u, Store.aggregate [t] = .ok u) ∧
      ∃ chain, Store.aggregate [s, t] = .error (.circular chain) ∧ Store.Crossed [s, t] chain := by
  have hs : outward.TopDown := by decide
  have ht : homeward.TopDown := by decide
  have hmade : ∀ u ∈ [Store.ofSorted outward, Store.ofSorted homeward], u.Made := by
    intro u hu
    rcases List.mem_pair.1 hu with rfl | rfl
    · exact hs.made
    · exact ht.made
  obtain ⟨-, hiff, hfault, -⟩ := aggregation_fails_by_cycle hmade
  obtain ⟨f, hf⟩ := hiff.2 ⟨"a", ["b"], by decide⟩
  obtain ⟨chain, rfl, hc⟩ := hfault f hf
  have hone := (aggregation_fails_by_cycle fun u hu => List.mem_singleton.1 hu ▸ ht.made).2.2.2
  exact ⟨_, _, hs.resolve_eq, ht.resolve_eq, hone (by decide), chain, hf, hc⟩

end LayeredProfiles
