/-
What equality of stores means, and what equal stores have in common.

The test looks every profile of one store up in the other, and every property of a profile, and compares the numbers. As no key
occurs twice, that is an equivalence. In stores that the operations give, a handle is what the properties declare, so only names,
keys and values are left to differ (`agrees_toSections_iff`), in whatever order they stand; and the walks over the declared
parents do not depend on an order either.

Main statement: `store_equality_exact`.
-/
import Mathlib.Tactic
import LayeredProfiles.Proofs.Lineage
import LayeredProfiles.Proofs.RoundTrip
import LayeredProfiles.Proofs.StoreEquality

namespace LayeredProfiles

theorem Profile.equals_equivalence : Equivalence fun p q : Profile => p.equals q = true where
  refl p := equals_iff.2 ⟨rfl, rfl, fun _ => rfl⟩
  symm h := by
    obtain ⟨hn, hp, hv⟩ := equals_iff.1 h
    exact equals_iff.2 ⟨hn.symm, hp.symm, fun key => (hv key).symm⟩
  trans h h' := by
    obtain ⟨hn, hp, hv⟩ := equals_iff.1 h
    obtain ⟨hn', hp', hv'⟩ := equals_iff.1 h'
    exact equals_iff.2 ⟨hn.trans hn', hp.trans hp', fun key => (hv key).trans (hv' key)⟩

theorem option_rel_equivalence {α : Type} {r : α → α → Prop} (h : Equivalence r) : Equivalence (Option.Rel r) where
  refl x := by
    cases x with
    | none => exact .none
    | some a => exact .some (h.refl a)
  symm hxy := by
    cases hxy with
    | none => exact .none
    | some hab => exact .some (h.symm hab)
  trans hxy hyz := by
    cases hxy with
    | none => exact hyz
    | some hab =>
      cases hyz with
      | some hbc => exact .some (h.trans hab hbc)

namespace Store

variable {a b : Store} {n : String}

theorem equals_equivalence : Equivalence fun a b : Store => a.equals b = true := by
  have hrel := option_rel_equivalence Profile.equals_equivalence
  refine ⟨fun a => equals_iff.2 fun n => hrel.refl _, fun h => equals_iff.2 fun n => ?_, fun h h' => equals_iff.2 fun n => ?_⟩
  · exact hrel.symm (equals_iff.1 h n)
  · exact hrel.trans (equals_iff.1 h n) (equals_iff.1 h' n)

/-! ## Contents -/

/-- the same names, and under each name the same keys with the same values, whatever the order of either -/
structure SameContents (a b : Store) : Prop where
  names : ∀ n, n ∈ a.names ↔ n ∈ b.names
  keys : ∀ n p q, a.profile? n = some p → b.profile? n = some q →
    ∀ key, key ∈ p.properties.keys ↔ key ∈ q.properties.keys
  values : ∀ n p q, a.profile? n = some p → b.profile? n = some q → ∀ key, p.property? key = q.property? key

theorem profile?_of_equals (h : a.equals b = true) (n : String) :
    (a.profile? n = none ∧ b.profile? n = none) ∨
      ∃ p q, a.profile? n = some p ∧ b.profile? n = some q ∧ p.equals q = true := by
  have hn := equals_iff.1 h n
  generalize a.profile? n = x at hn ⊢
  generalize b.profile? n = y at hn ⊢
  cases hn with
  | none => exact .inl ⟨rfl, rfl⟩
  | some hpq => exact .inr ⟨_, _, rfl, rfl, hpq⟩

theorem agrees_of_equals (h : a.equals b = true) : a.toSections.Agrees b.toSections := by
  refine ⟨fun n => ?_, fun n key => ?_⟩
  · rw [OrderedMap.contains, OrderedMap.contains, get?_toSections, get?_toSections]
    rcases profile?_of_equals h n with ⟨hp, hq⟩ | ⟨p, q, hp, hq, -⟩
    · rw [hp, hq]
    · rw [hp, hq]
      rfl
  · rw [value?_toSections, value?_toSections, property?, property?]
    rcases profile?_of_equals h n with ⟨hp, hq⟩ | ⟨p, q, hp, hq, hpq⟩
    · rw [hp, hq]
    · rw [hp, hq]
      exact (Profile.equals_iff.1 hpq).2.2 key

theorem agrees_toSections_iff : a.toSections.Agrees b.toSections ↔ a.SameContents b := by
  constructor
  · intro h
    have hv : ∀ n p q, a.profile? n = some p → b.profile? n = some q → ∀ key, p.property? key = q.property? key := by
      intro n p q hp hq key
      have hval := h.values n key
      rwa [value?_toSections, value?_toSections, property?, property?, hp, hq] at hval
    refine ⟨fun n => ?_, fun n p q hp hq key => ?_, hv⟩
    · rw [mem_names_iff, mem_names_iff, ← contains_toSections, ← contains_toSections, h.names]
    · have hval : p.properties.get? key = q.properties.get? key := hv n p q hp hq key
      rw [OrderedMap.mem_keys_iff, OrderedMap.mem_keys_iff, OrderedMap.contains, OrderedMap.contains, hval]
  · intro h
    have hhas : ∀ n, a.has n = b.has n := by
      intro n
      rw [Bool.eq_iff_iff, ← mem_names_iff, ← mem_names_iff, h.names]
    refine ⟨fun n => ?_, fun n key => ?_⟩
    · rw [contains_toSections, contains_toSections, hhas]
    · have hn : (a.profile? n).isSome = (b.profile? n).isSome := hhas n
      rw [value?_toSections, value?_toSections, property?, property?]
      cases hp : a.profile? n with
      | none => cases hq : b.profile? n <;> simp [hp, hq] at hn ⊢
      | some p =>
        cases hq : b.profile? n with
        | none => simp [hp, hq] at hn
        | some q => exact h.values n p q hp hq key

/-! ## What equal stores answer -/

theorem names_lineage_congr (ha : a.Made) (hb : b.Made) (h : a.toSections.Agrees b.toSections) (n : String) :
    (a.lineage n).map Profile.name = (b.lineage n).map Profile.name := by
  cases hn : a.toSections.contains n with
  | true =>
    obtain ⟨k, hk⟩ := Sections.sound_iff_rooted.1 (ha.sound hn)
    rw [ha.resolved.names_lineage hk, hb.resolved.names_lineage (h.rooted hk), h.walk_eq]
  | false =>
    have hnone : ∀ s : Store, s.toSections.contains n = false → s.lineage n = [] := by
      intro s hs
      refine lineage_of_none ?_
      rwa [OrderedMap.contains_eq_false_iff, get?_toSections, Option.map_eq_none_iff] at hs
    rw [hnone a hn, hnone b ((h.names n).symm.trans hn)]

theorem size_eq_of_equals (h : a.equals b = true) : a.size = b.size := by
  unfold equals at h
  exact beq_iff_eq.1 (Bool.and_eq_true_iff.1 h).1

end Store

/-! ## Main result -/

/-- **Equality of stores.** It is an equivalence. Two stores that the operations give are equal exactly when they have the same
names and under each name the same keys with the same values, in whatever order: of two profiles under one name the properties
alone decide, and the handles never do. Equal stores have the same size, and for every name and key the same answer on whether
there is a profile, on its properties, on the name of its parent and on the names of its lineage. -/
theorem store_equality_exact :
    (Equivalence fun a b : Store => a.equals b = true) ∧
      ∀ a b : Store, a.Made → b.Made →
        (a.equals b = true ↔ a.SameContents b) ∧
          (∀ n p q, a.profile? n = some p → b.profile? n = some q →
            (p.equals q = true ↔ ∀ key, p.property? key = q.property? key)) ∧
          (a.equals b = true →
            a.size = b.size ∧
              ∀ n, a.has n = b.has n ∧ (∀ key, a.property? n key = b.property? n key) ∧
                ((a.profile? n).bind a.parentOf?).map Profile.name = ((b.profile? n).bind b.parentOf?).map Profile.name ∧
                (a.lineage n).map Profile.name = (b.lineage n).map Profile.name) := by
  refine ⟨Store.equals_equivalence, fun a b ha hb => ?_⟩
  have hra := ha.resolved
  have hrb := hb.resolved
  have hiff : a.equals b = true ↔ a.toSections.Agrees b.toSections := hra.equals_iff hrb
  refine ⟨hiff.trans Store.agrees_toSections_iff, fun n p q hp hq => ?_,
    fun h => ⟨Store.size_eq_of_equals h, fun n => ?_⟩⟩
  · -- both profiles are what the sections say, handle included
    obtain ⟨P, -, rfl⟩ := Option.map_eq_some_iff.1 ((hra.profile n).symm.trans hp)
    obtain ⟨Q, -, rfl⟩ := Option.map_eq_some_iff.1 ((hrb.profile n).symm.trans hq)
    rw [Profile.equals_iff]
    exact ⟨fun h => h.2.2, fun h => ⟨rfl, h parentProperty, h⟩⟩
  · have hagree := hiff.1 h
    refine ⟨?_, fun key => ?_, ?_, Store.names_lineage_congr ha hb hagree n⟩
    · rw [hra.has_iff, hrb.has_iff, hagree.names]
    · rw [hra.property?_eq, hrb.property?_eq, hagree.values]
    · rw [hra.name_parentOf?, hrb.name_parentOf?, hagree.parentOf?]

/-- `ci` is below `dev`, and `ops` stands last -/
def branchesFirst : Sections :=
  .ofList [("base", .empty), ("dev", .ofList [("output", "json"), (parentProperty, "base")]),
    ("ci", .ofList [(parentProperty, "dev")]), ("ops", .ofList [(parentProperty, "base")])]

/-- the same with `ops` before the others, and the keys of `dev` swapped -/
def branchesLast : Sections :=
  .ofList [("base", .empty), ("ops", .ofList [(parentProperty, "base")]),
    ("dev", .ofList [(parentProperty, "base"), ("output", "json")]), ("ci", .ofList [(parentProperty, "dev")])]

/-- the two stores have their profiles in another order, are equal both ways, and lead from `ci` over `dev` to `base` -/
theorem equality_of_branches :
    ∃ a b : Store, a.Made ∧ b.Made ∧ a.names ≠ b.names ∧ a.equals b = true ∧ b.equals a = true ∧
      ((b.profile? "ci").bind b.parentOf?).map Profile.name = some "dev" ∧
      (b.lineage "ci").map Profile.name = ["ci", "dev", "base"] := by
  have ha : branchesFirst.TopDown := by decide
  have hb : branchesLast.TopDown := by decide
  obtain ⟨hequiv, hstores⟩ := store_equality_exact
  obtain ⟨hiff, -, hsame⟩ := hstores _ _ ha.made hb.made
  have h : (Store.ofSorted branchesFirst).equals (.ofSorted branchesLast) = true := by decide
  obtain ⟨-, hci⟩ := hsame h
  obtain ⟨-, -, hparent, hlineage⟩ := hci "ci"
  refine ⟨_, _, ha.made, hb.made, by decide, h, hequiv.symm h, hparent.symm.trans ?_, hlineage.symm.trans ?_⟩
  · decide
  · decide

end LayeredProfiles
