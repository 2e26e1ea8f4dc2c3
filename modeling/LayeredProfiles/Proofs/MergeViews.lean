/-
What the merge of several tables shows, in full: names, keys and values, each with its place.

Values and places follow opposite rules. A table is laid over those that come after it, so the first table that has a property
decides its value. But a name or an ordinary key stays where it first came to stand, and the last table is laid down first. The
array indices of a section stand where their numbers put them. Since names, keys and values are all that there is to see
(`Sections.ext_views`), the laws of merging are read off from them.

Main statements: `merge_exact`, `merge_ordered_monoid`.
-/
import Mathlib.Tactic
import LayeredProfiles.Proofs.KeyArrangement
import LayeredProfiles.Proofs.RoundTrip

namespace LayeredProfiles

namespace Sections

/-! ## Names -/

theorem keys_layer (lower upper : Sections) : (lower.layer upper).keys = (lower.keys ++ upper.keys).eraseDups :=
  keys_foldl_contribute upper.entries lower

theorem keys_merge (tables : List Sections) : (merge tables).keys = (tables.reverse.flatMap OrderedMap.keys).eraseDups := by
  induction tables with
  | nil => rfl
  | cons t tables ih =>
    rw [merge_cons, keys_layer, ih, eraseDups_eraseDups_append, List.reverse_cons, List.flatMap_append,
      List.flatMap_singleton]

/-! ## Keys -/

theorem flatMap_entries {l : List (String × Properties)} (hl : l.Pairwise fun a b => a.1 ≠ b.1) (n : String) :
    (l.flatMap fun e => if e.1 = n then e.2.keys else []) = (OrderedMap.find? n l).elim [] OrderedMap.keys := by
  induction l with
  | nil => rfl
  | cons e l ih =>
    obtain ⟨he, hl⟩ := List.pairwise_cons.1 hl
    rw [List.flatMap_cons, ih hl]
    by_cases hn : e.1 = n
    · have hnone : OrderedMap.find? n l = none := (OrderedMap.find?_eq_none_iff n l).2 fun d hd => hn ▸ (he d hd).symm
      simp [OrderedMap.find?, hn, hnone]
    · simp [OrderedMap.find?, hn]

theorem filter_keysOf_layer (lower upper : Sections) (n : String) :
    ((lower.layer upper).keysOf n).filter ordinary =
      ((lower.keysOf n ++ upper.keysOf n).filter ordinary).eraseDups := by
  have hu : (upper.entries.flatMap fun e => if e.1 = n then e.2.keys else []) = upper.keysOf n :=
    flatMap_entries (upper.inOrder.imp fun h => h.1) n
  rw [← hu]
  exact filter_keysOf_foldl_contribute upper.entries lower n

theorem filter_keysOf_merge (tables : List Sections) (n : String) :
    ((merge tables).keysOf n).filter ordinary =
      ((tables.reverse.flatMap fun t => t.keysOf n).filter ordinary).eraseDups := by
  induction tables with
  | nil => rfl
  | cons t tables ih =>
    rw [merge_cons, filter_keysOf_layer, List.filter_append, ih, eraseDups_eraseDups_append, ← List.filter_append,
      List.reverse_cons, List.flatMap_append, List.flatMap_singleton]

theorem mem_keysOf_merge {tables : List Sections} {n key : String} :
    key ∈ (merge tables).keysOf n ↔ ∃ t ∈ tables, key ∈ t.keysOf n := by
  simp only [mem_keysOf, ← Option.isSome_iff_exists, value?_merge, List.findSome?_isSome_iff]

theorem keysOf_merge (tables : List Sections) (n : String) :
    (merge tables).keysOf n = recordKeys (tables.reverse.flatMap fun t => t.keysOf n) := by
  rw [← recordKeys_keysOf]
  refine recordKeys_congr (fun key => ?_) ?_
  · simp only [mem_keysOf_merge, List.mem_flatMap, List.mem_reverse]
  · rw [filter_keysOf_merge, eraseDups_of_nodup (nodup_eraseDups _)]

/-! ## Laws -/

theorem merge_append (xs ys : List Sections) : merge (xs ++ ys) = merge [merge xs, merge ys] := by
  refine ext_views ?_ (fun n => ?_) fun n key => ?_
  · calc (merge (xs ++ ys)).keys
        = (ys.reverse.flatMap OrderedMap.keys ++ xs.reverse.flatMap OrderedMap.keys).eraseDups := by
          rw [keys_merge, List.reverse_append, List.flatMap_append]
      _ = ((merge ys).keys ++ (merge xs).keys).eraseDups := by
          rw [keys_merge ys, keys_merge xs, eraseDups_append_eraseDups]
      _ = (merge [merge xs, merge ys]).keys := by simp [keys_merge [merge xs, merge ys]]
  · calc (merge (xs ++ ys)).keysOf n
        = recordKeys ((ys.reverse.flatMap fun t => t.keysOf n) ++ xs.reverse.flatMap fun t => t.keysOf n) := by
          rw [keysOf_merge, List.reverse_append, List.flatMap_append]
      _ = recordKeys ((merge ys).keysOf n ++ (merge xs).keysOf n) := by
          rw [keysOf_merge ys, keysOf_merge xs, recordKeys_append_recordKeys]
      _ = (merge [merge xs, merge ys]).keysOf n := by simp [keysOf_merge [merge xs, merge ys]]
  · calc (merge (xs ++ ys)).value? n key
        = ((merge xs).value? n key).or ((merge ys).value? n key) := by
          rw [value?_merge, value?_merge, value?_merge, List.findSome?_append]
      _ = (merge [merge xs, merge ys]).value? n key := by
          rw [value?_merge [merge xs, merge ys], List.findSome?_cons, List.findSome?_singleton]
          cases (merge xs).value? n key <;> rfl

theorem merge_singleton (m : Sections) : merge [m] = m := layer_empty m

theorem merge_flatten (groups : List (List Sections)) : merge groups.flatten = merge (groups.map merge) := by
  induction groups with
  | nil => rfl
  | cons g groups ih =>
    have hcons := merge_append [merge g] (groups.map merge)
    rw [merge_singleton, List.singleton_append] at hcons
    rw [List.flatten_cons, merge_append, ih, List.map_cons, hcons]

theorem merge_self (m : Sections) : merge [m, m] = merge [m] := by
  refine ext_views ?_ (fun n => ?_) fun n key => ?_
  · rw [keys_merge, keys_merge]
    simp [eraseDups_append_self]
  · rw [keysOf_merge, keysOf_merge]
    simp [recordKeys_append_self]
  · rw [value?_merge, value?_merge]
    simp only [List.findSome?_cons, List.findSome?_nil]
    cases m.value? n key <;> rfl

/-! ## Main results -/

/-- **Exact merge.** A merge has the names of all tables. The value of a property is that of the first table that has it; there is
none exactly when no table has one. The names stand in the order in which they first occur when the tables are read from the last
to the first; and so do the keys of each section, but with the array indices ahead, in ascending order. Which keys are array indices
is said in `arrayIndex?_eq_some_iff`. -/
theorem merge_exact (tables : List Sections) (n key : String) :
    ((merge tables).contains n = true ↔ ∃ t ∈ tables, t.contains n = true) ∧
      (∀ v, (merge tables).value? n key = some v ↔
        ∃ before t after, tables = before ++ t :: after ∧ t.value? n key = some v ∧
          ∀ u ∈ before, u.value? n key = none) ∧
      ((merge tables).value? n key = none ↔ ∀ t ∈ tables, t.value? n key = none) ∧
      (merge tables).keys = (tables.reverse.flatMap OrderedMap.keys).eraseDups ∧
      (merge tables).keysOf n = recordKeys (tables.reverse.flatMap fun t => t.keysOf n) := by
  refine ⟨contains_merge tables n, fun v => ?_, ?_, keys_merge tables, keysOf_merge tables n⟩
  · rw [value?_merge, List.findSome?_eq_some_iff]
  · rw [value?_merge, List.findSome?_eq_none_iff]

/-- `a` has the value of `x` from the upper table, but its place and that of its key `y` from the lower one -/
example :
    let merged := merge [.ofList [("c", .empty), ("a", .ofList [("x", "1"), ("9", "1")])],
      .ofList [("b", .empty), ("a", .ofList [("y", "2"), ("10", "2"), ("x", "2")])]]
    merged.keys = ["b", "a", "c"] ∧ merged.keysOf "a" = ["9", "10", "y", "x"] ∧ merged.value? "a" "x" = some "1" := by
  decide

/-- **Merging is an ordered monoid.** Tables may be merged part by part, the empty table is neutral on both sides, and a table
merged with itself is itself: the same sections in the same order, each with its keys in the same order. -/
theorem merge_ordered_monoid :
    (∀ xs ys : List Sections, merge (xs ++ ys) = merge [merge xs, merge ys]) ∧
      merge [] = .empty ∧
      (∀ m : Sections, merge [m, .empty] = m ∧ merge [.empty, m] = m ∧ merge [m] = m) ∧
      ∀ m : Sections, merge [m, m] = merge [m] := by
  refine ⟨merge_append, rfl, fun m => ⟨?_, ?_, merge_singleton m⟩, merge_self⟩
  · exact merge_singleton m
  · exact merge_singleton m

end Sections

end LayeredProfiles
