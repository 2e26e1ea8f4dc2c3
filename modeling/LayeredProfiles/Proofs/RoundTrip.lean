/-
Stores give back the sections they were made of, and resolving these gives the store again.

Sections that stand with parents first stay as they are: each name finds its whole walk placed but for itself, so it is placed
next. The sections that a store shows stand so. Two maps with the same keys in the same order and the same look-ups are one map
(`OrderedMap.ext_get?`), so the store that is resolved from them is not only equal to the first, but the same.

Main statement: `sections_round_trip`.
-/
import Mathlib.Tactic
import LayeredProfiles.Proofs.ParentCycle
import LayeredProfiles.Proofs.StoreInvariant

namespace LayeredProfiles

/-! ## Parents first already -/

namespace Sections

variable {m : Sections}

theorem topDown_iff : m.TopDown ↔ ∀ n ∈ m.keys, ∀ parent ∈ m.parentOf? n, m.keys.idxOf parent < m.keys.idxOf n := by
  constructor
  · intro h n _ parent hp
    exact h n parent hp
  · intro h n parent hp
    exact h n ((m.mem_keys_iff n).2 (contains_of_parentOf? hp)) parent hp

instance (m : Sections) : Decidable m.TopDown := decidable_of_iff' _ topDown_iff

theorem TopDown.not_cyclic (ht : m.TopDown) : ¬ Cyclic m.parentOf? := not_cyclic_of_descending m.keys.idxOf ht

theorem TopDown.sound (ht : m.TopDown) {n : String} (hn : n ∈ m.keys) : m.Sound n :=
  (Store.resolve_ok_iff m).1 ((Store.resolve_ok_iff_closed m).2 ⟨ht.closed, ht.not_cyclic⟩) n hn

/-- the parent of the name that comes next is among the names before it -/
theorem TopDown.mem_front (ht : m.TopDown) {front back : List String} {n parent : String} (hk : m.keys = front ++ n :: back)
    (hp : m.parentOf? n = some parent) : parent ∈ front := by
  have hlt := ht n parent hp
  rw [hk, List.idxOf_append_of_notMem (OrderedMap.notMem_front hk), List.idxOf_cons_self] at hlt
  by_contra h
  rw [List.idxOf_append_of_notMem h] at hlt
  omega

/-- the walks of the first names hold no names but these, and in the same order -/
theorem TopDown.rootFirst_eq (ht : m.TopDown) {front back : List String} (hk : m.keys = front ++ back) :
    m.rootFirst front = front := by
  induction front using List.reverseRecOn generalizing back with
  | nil => rfl
  | append_singleton front n ih =>
    rw [List.append_assoc, List.singleton_append] at hk
    have hfront := ih hk
    have hs : m.Sound n := ht.sound (by simp [hk])
    have hnew : ∀ a ∈ [n], a ∉ m.rootFirst front := by
      intro a ha
      rw [List.mem_singleton.1 ha, hfront]
      exact OrderedMap.notMem_front hk
    -- the walk of the name is the name, and then the walk of a name that came before
    obtain ⟨tail, ha, hold⟩ : ∃ tail, m.ancestry n = [n] ++ tail ∧ ∀ a ∈ tail, a ∈ m.rootFirst front := by
      cases hp : m.parentOf? n with
      | none => exact ⟨[], hs.ancestry_of_root hp, by simp⟩
      | some parent =>
        refine ⟨m.ancestry parent, hs.ancestry_of_link hp, fun a ha => ?_⟩
        exact mem_rootFirst.2 ⟨parent, ht.mem_front hk hp, ha⟩
    calc m.rootFirst (front ++ [n])
        = m.rootFirst front ++ [n].reverse := rootFirst_append_singleton ha (List.nodup_singleton n) hnew hold
      _ = front ++ [n] := by rw [hfront, List.reverse_singleton]

theorem TopDown.parentsFirst_eq (ht : m.TopDown) : m.parentsFirst = .ok m := by
  obtain ⟨sorted, h⟩ := m.parentsFirst_ok_iff.2 fun n hn => ht.sound hn
  have hf := finished_of_parentsFirst h
  have hkeys : sorted.keys = m.keys := hf.order.trans (ht.rootFirst_eq (List.append_nil m.keys).symm)
  rw [h, OrderedMap.ext_get? hkeys hf.get]

theorem TopDown.resolve_eq (ht : m.TopDown) : Store.resolve m = .ok (.ofSorted m) :=
  Store.resolve_of_ok ht.parentsFirst_eq

theorem TopDown.made (ht : m.TopDown) : (Store.ofSorted m).Made := @Store.Made.resolve (.table m) _ ht.resolve_eq

end Sections

/-! ## The sections of a store -/

section Stores

variable {m : Sections} {s t : Store}

theorem Store.ext_profile? (hn : s.names = t.names) (hp : ∀ n, s.profile? n = t.profile? n) : s = t := by
  have h : s.profiles = t.profiles := OrderedMap.ext_get? hn hp
  cases s
  cases t
  simpa using h

theorem Resolved.ofSorted_toSections (hr : Resolved m s) : Store.ofSorted s.toSections = s := by
  apply Store.ext_profile?
  · rw [names_ofSorted, Store.keys_toSections]
  · intro n
    rw [(resolved_ofSorted hr.toSections_topDown).profile, hr.profile, hr.get?_toSections]

theorem Store.Made.toSections_topDown (h : s.Made) : s.toSections.TopDown := by
  obtain ⟨m, hr⟩ := h.exists_resolved
  exact hr.toSections_topDown

theorem Store.Made.resolve_toSections (h : s.Made) : Store.resolve s.toSections = .ok s := by
  obtain ⟨m, hr⟩ := h.exists_resolved
  rw [hr.toSections_topDown.resolve_eq, hr.ofSorted_toSections]

theorem Store.Made.resolved (h : s.Made) : Resolved s.toSections s := resolved_of_resolve h.resolve_toSections

theorem Store.Made.sound (h : s.Made) {n : String} (hn : s.toSections.contains n = true) : s.toSections.Sound n :=
  h.toSections_topDown.sound ((s.toSections.mem_keys_iff n).2 hn)

end Stores

/-! ## Merging with nothing -/

namespace Sections

variable {tables : List Sections}

/-- sections under new names go behind the others, as they are -/
theorem entries_foldl_contribute {l : List (String × Properties)} (hl : l.Pairwise fun a b => a.1 ≠ b.1) {m : Sections}
    (hnew : ∀ e ∈ l, m.contains e.1 = false) :
    (l.foldl (fun m e => m.contribute e.1 e.2) m).entries = m.entries ++ l := by
  induction l generalizing m with
  | nil => simp
  | cons e l ih =>
    obtain ⟨he, hl⟩ := List.pairwise_cons.1 hl
    have hg : m.get? e.1 = none := (m.contains_eq_false_iff e.1).1 (hnew e List.mem_cons_self)
    have hstep : (m.contribute e.1 e.2).entries = m.entries ++ [e] := by
      rw [contribute, hg]
      exact OrderedMap.enter_of_new e.1 e.2 m.entries hg
    rw [List.foldl_cons, ih hl, hstep, List.append_assoc, List.singleton_append]
    intro d hd
    rw [contains_contribute, hnew d (List.mem_cons_of_mem e hd)]
    simpa using (he d hd).symm

theorem layer_empty (m : Sections) : layer .empty m = m :=
  OrderedMap.ext (entries_foldl_contribute (m.inOrder.imp fun h => h.1) fun _ _ => rfl)

theorem merge_append_of_empty {before : List Sections} (h : ∀ t ∈ before, t = .empty) :
    merge (before ++ tables) = merge tables := by
  induction before with
  | nil => rfl
  | cons t before ih =>
    obtain rfl := h t List.mem_cons_self
    exact ih fun t ht => h t (List.mem_cons_of_mem _ ht)

/-- one table among empty ones -/
theorem merge_among_empty {before after : List Sections} (m : Sections) (h : ∀ t ∈ before ++ after, t = .empty) :
    merge (before ++ m :: after) = m := by
  have hafter : merge after = .empty := by
    rw [← List.append_nil after]
    exact merge_append_of_empty fun t ht => h t (List.mem_append_right before ht)
  calc merge (before ++ m :: after)
      = merge (m :: after) := merge_append_of_empty fun t ht => h t (List.mem_append_left after ht)
    _ = (merge after).layer m := rfl
    _ = m := by rw [hafter, layer_empty]

end Sections

theorem Store.toSections_of_size_zero {s : Store} (h : s.size = 0) : s.toSections = .empty := by
  apply OrderedMap.ext
  have he : s.profiles.entries = [] := List.length_eq_zero_iff.1 h
  simp [Store.toSections, OrderedMap.mapValues, he]

/-! ## Main result -/

/-- **Exact round trip.** Sections in which every declared parent stands before its child are their own order. So a store is
resolved again from the sections it shows, and aggregated again from itself and any number of empty stores around it: not only
an equal store, but the same profiles with the same handles and property maps, all in the same order. -/
theorem sections_round_trip :
    (∀ m : Sections, m.TopDown → m.parentsFirst = .ok m) ∧
      ∀ s : Store, s.Made →
        Store.resolve s.toSections = .ok s ∧
          ∀ before after : List Store, (∀ e ∈ before ++ after, e.size = 0) →
            Store.aggregate (before ++ s :: after) = .ok s := by
  refine ⟨fun m ht => ht.parentsFirst_eq, fun s hs => ⟨hs.resolve_toSections, ?_⟩⟩
  intro before after hempty
  have hmerge : Sections.merge ((before ++ s :: after).map Store.toSections) = s.toSections := by
    rw [List.map_append, List.map_cons]
    apply Sections.merge_among_empty
    rw [← List.map_append]
    intro t ht
    obtain ⟨e, he, rfl⟩ := List.mem_map.1 ht
    exact Store.toSections_of_size_zero (hempty e he)
  rw [Store.aggregate, hmerge]
  exact hs.resolve_toSections

/-- three generations, each after its parent, and a name that is a number -/
def generations : Sections :=
  .ofList [("root", .ofList [("region", "eu-west-1")]), ("7", .ofList [(parentProperty, "root"), ("0", "first")]),
    ("dev", .ofList [(parentProperty, "7")])]

/-- they are their own order, and their store comes back from its sections and from an aggregate with empty stores -/
theorem round_trip_of_generations :
    generations.parentsFirst = .ok generations ∧
      ∃ s, s.Made ∧ Store.resolve generations = .ok s ∧ Store.resolve s.toSections = .ok s ∧
        Store.aggregate [.empty, s, .empty, .empty] = .ok s := by
  obtain ⟨hsections, hstores⟩ := sections_round_trip
  have ht : generations.TopDown := by decide
  obtain ⟨hresolve, haggregate⟩ := hstores (.ofSorted generations) ht.made
  refine ⟨hsections generations ht, .ofSorted generations, ht.made, ht.resolve_eq, hresolve, ?_⟩
  exact haggregate [.empty] [.empty, .empty] (by decide)

end LayeredProfiles
