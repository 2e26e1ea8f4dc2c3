/-
Resolving does not depend on the order in which sections are enumerated.

Sections are `Reordered` when the names stand in another order, and the properties under each name too. They agree then
(`reordered_iff_agrees`), and agreement decides whether there is a store, and which up to equality. Which fault is reported does
depend on the order, for the first unsound name decides; but where only one kind of fault is there, both orders report that kind.

Main statement: `resolution_order_free`.
-/
import Mathlib.Tactic
import LayeredProfiles.Proofs.ParentCycle
import LayeredProfiles.Proofs.StoreEquality

namespace LayeredProfiles

/-! ## The same entries in other maps -/

namespace OrderedMap

variable {o o' : KeyOrder} {α : Type}

/-- entered into maps of whatever orders, the same entries are found under the same keys -/
theorem get?_foldl_insert_congr (l : List (String × α)) {m : OrderedMap o α} {m' : OrderedMap o' α}
    (h : ∀ key, m.get? key = m'.get? key) (key : String) :
    (l.foldl (fun m e => m.insert e.1 e.2) m).get? key = (l.foldl (fun m e => m.insert e.1 e.2) m').get? key := by
  induction l generalizing m m' with
  | nil => exact h key
  | cons e l ih =>
    apply ih
    intro k
    rw [get?_insert, get?_insert, h]

theorem get?_ofList_congr (l : List (String × α)) (key : String) :
    (ofList l : OrderedMap o α).get? key = (ofList l : OrderedMap o' α).get? key := by
  apply get?_foldl_insert_congr
  intro k
  rfl

end OrderedMap

namespace Sections

variable {m m' : Sections}

/-- the same sections with the same properties, the names in any order and the keys of each section in any order -/
structure Reordered (m m' : Sections) : Prop where
  names : m.keys.Perm m'.keys
  properties : ∀ e ∈ m.entries, ∀ e' ∈ m'.entries, e.1 = e'.1 → e.2.entries.Perm e'.2.entries

theorem reordered_iff_agrees : m.Reordered m' ↔ m.Agrees m' := by
  constructor
  · intro h
    have hnames : ∀ n, m.contains n = m'.contains n := by
      intro n
      rw [Bool.eq_iff_iff, ← m.mem_keys_iff, ← m'.mem_keys_iff, h.names.mem_iff]
    refine ⟨hnames, fun n key => ?_⟩
    unfold value?
    cases hg : m.get? n with
    | none =>
      rw [(m'.contains_eq_false_iff n).1 ((hnames n).symm.trans ((m.contains_eq_false_iff n).2 hg))]
    | some p =>
      obtain ⟨p', hg'⟩ := (m'.contains_iff n).1 ((hnames n).symm.trans ((m.contains_iff n).2 ⟨p, hg⟩))
      have hp := h.properties _ (OrderedMap.mem_of_get?_eq hg) _ (OrderedMap.mem_of_get?_eq hg') rfl
      rw [hg']
      exact OrderedMap.perm_iff_get?.1 hp key
  · intro h
    refine ⟨OrderedMap.keys_perm h.names, fun e he e' he' hn => ?_⟩
    rw [OrderedMap.perm_iff_get?]
    intro key
    have hv := h.values e.1 key
    rw [value?, value?, OrderedMap.get?_eq_of_mem he, hn, OrderedMap.get?_eq_of_mem he'] at hv
    exact hv

end Sections

theorem SectionInput.table_agrees_record (pairs : List (String × Properties)) :
    (SectionInput.table (.ofList pairs)).toSections.Agrees (SectionInput.record (.ofList pairs)).toSections := by
  apply Sections.agrees_of_get?
  intro name
  show (OrderedMap.ofList pairs : Table Properties).get? name = (OrderedMap.ofList pairs : Record Properties).get? name
  exact OrderedMap.get?_ofList_congr pairs name

/-! ## Main result -/

/-- **Resolution does not depend on the order.** The same pairs given as a table and as a record are the same sections in two
orders. Of two inputs that hold the same sections, both resolve or none; the stores are equal; and a fault is circular in both
when every declared parent is there, and missing in both when there is no cycle. -/
theorem resolution_order_free :
    (∀ pairs : List (String × Properties),
      (SectionInput.table (.ofList pairs)).toSections.Reordered (SectionInput.record (.ofList pairs)).toSections) ∧
    ∀ input input' : SectionInput, input.toSections.Reordered input'.toSections →
      ((∃ s, Store.resolve input.toSections = .ok s) ↔ ∃ t, Store.resolve input'.toSections = .ok t) ∧
      (∀ s t, Store.resolve input.toSections = .ok s → Store.resolve input'.toSections = .ok t → s.equals t = true) ∧
      (input.toSections.Closed →
        ∀ f, Store.resolve input.toSections = .error f ∨ Store.resolve input'.toSections = .error f →
          ∃ chain, f = .circular chain) ∧
      (¬ Cyclic input.toSections.parentOf? →
        ∀ f, Store.resolve input.toSections = .error f ∨ Store.resolve input'.toSections = .error f →
          ∃ parent, f = .missing parent) := by
  refine ⟨fun pairs => Sections.reordered_iff_agrees.2 (SectionInput.table_agrees_record pairs), ?_⟩
  intro input input' same
  have h := Sections.reordered_iff_agrees.1 same
  refine ⟨⟨h.resolve_ok, h.symm.resolve_ok⟩, fun s t hs ht => ?_, fun hclosed f hf => ?_, fun hacyclic f hf => ?_⟩
  · exact ((resolved_of_resolve hs).equals_iff (resolved_of_resolve ht)).2 h
  · rcases hf with hf | hf
    · exact Store.circular_of_closed hclosed hf
    · exact Store.circular_of_closed (h.closed hclosed) hf
  · rcases hf with hf | hf
    · exact Store.missing_of_acyclic hacyclic hf
    · rw [funext h.parentOf?] at hacyclic
      exact Store.missing_of_acyclic hacyclic hf

/-- children before their parents, as they were written -/
def asWritten : SectionInput :=
  .table (.ofList [("dev", .ofList [("region", "eu-west-1"), (parentProperty, "2")]), ("2", .ofList [(parentProperty, "10")]),
    ("10", .empty)])

/-- the same in a record, where the numbers come first; the keys of `dev` are swapped -/
def asRecord : SectionInput :=
  .record (.ofList [("dev", .ofList [(parentProperty, "2"), ("region", "eu-west-1")]), ("10", .empty),
    ("2", .ofList [(parentProperty, "10")])])

/-- the climbs begin at different names and give equal stores -/
theorem resolution_of_asWritten_and_asRecord :
    asWritten.toSections.keys ≠ asRecord.toSections.keys ∧
      ∃ s t, Store.resolve asWritten.toSections = .ok s ∧ Store.resolve asRecord.toSections = .ok t ∧
        s.equals t = true := by
  obtain ⟨-, hfree⟩ := resolution_order_free
  obtain ⟨hiff, hequal, -, -⟩ := hfree asWritten asRecord ⟨by decide, by decide⟩
  obtain ⟨s, hs⟩ := (Store.resolve_ok_iff asWritten.toSections).2 (by decide)
  obtain ⟨t, ht⟩ := hiff.1 ⟨s, hs⟩
  exact ⟨by decide, s, t, hs, ht, hequal s t hs ht⟩

end LayeredProfiles
