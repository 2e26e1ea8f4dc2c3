/-
Which sections can be put in an order with parents first, what the order is, and which fault is reported otherwise.

Main statements:
- `resolution_outcome`: the sections can be ordered, and resolved to a store, exactly when every name is sound. Otherwise the
  fault is that of the walk of the first name that is not.
- `linearization_exact`: the order is that of the walks of the names, each from its root down, without repetition.

The climb looks at no more than the pending sections, stops at a placed parent and reports the first fault it meets. That it
sees the same as the whole walks is the invariant of `ClimbInvariant`; here its end states are read off.
-/
import LayeredProfiles.Proofs.ClimbInvariant
import LayeredProfiles.Store

namespace LayeredProfiles

open Climb

namespace Sections

variable {m sorted : Sections} {n : String}

/-- the first name of the sections, in their order, that is not sound -/
def FirstUnsound (m : Sections) (n : String) : Prop :=
  ∃ front back, m.keys = front ++ n :: back ∧ (∀ a ∈ front, m.Sound a) ∧ ¬ m.Sound n

theorem FirstUnsound.unique {n' : String} (h : m.FirstUnsound n) (h' : m.FirstUnsound n') : n = n' := by
  obtain ⟨front, back, hk, hf, hn⟩ := h
  obtain ⟨front', back', hk', hf', hn'⟩ := h'
  rcases List.append_eq_append_iff.1 (hk.symm.trans hk') with ⟨c, hc, hd⟩ | ⟨c, hc, hd⟩
  · cases c with
    | nil => exact (List.cons.inj hd).1
    | cons a c => exact absurd (hf' n (by simp [hc, (List.cons.inj hd).1])) hn
  · cases c with
    | nil => exact (List.cons.inj hd).1.symm
    | cons a c => exact absurd (hf n' (by simp [hc, (List.cons.inj hd).1])) hn'

/-- the two ends that a run can have -/
theorem parentsFirst_cases (m : Sections) :
    (∃ sorted, m.parentsFirst = .ok sorted ∧ Finished m sorted) ∨
      ∃ f n, m.parentsFirst = .error f ∧ m.FirstUnsound n ∧ m.WalkFault n f := by
  obtain ⟨t, ht, ⟨sorted, hd, hr⟩ | ⟨f, hf, hr⟩⟩ := run_ends (.start : Reachable m (start m))
  · exact .inl ⟨sorted, hr, finished (reachable_inv ht) hd⟩
  · obtain ⟨front, n, back, hk, hs, hw⟩ := fault_spec (reachable_inv ht) hf
    exact .inr ⟨f, n, hr, ⟨front, back, hk, hs, hw.not_sound⟩, hw⟩

theorem finished_of_parentsFirst (h : m.parentsFirst = .ok sorted) : Finished m sorted := by
  rcases parentsFirst_cases m with ⟨sorted', h', hf⟩ | ⟨f, n, h', -, -⟩
  · rw [h] at h'
    cases h'
    exact hf
  · rw [h] at h'
    cases h'

theorem parentsFirst_ok_iff (m : Sections) : (∃ sorted, m.parentsFirst = .ok sorted) ↔ ∀ n ∈ m.keys, m.Sound n := by
  constructor
  · rintro ⟨sorted, h⟩
    exact (finished_of_parentsFirst h).sound
  · intro hs
    rcases parentsFirst_cases m with ⟨sorted, h, -⟩ | ⟨f, n, -, ⟨front, back, hk, -, hn⟩, -⟩
    · exact ⟨sorted, h⟩
    · exact absurd (hs n (by simp [hk])) hn

theorem parentsFirst_error_iff (m : Sections) (f : ParentFault) :
    m.parentsFirst = .error f ↔ ∃ n, m.FirstUnsound n ∧ m.WalkFault n f := by
  constructor
  · intro h
    rcases parentsFirst_cases m with ⟨sorted, h', -⟩ | ⟨f', n, h', hn, hw⟩
    · rw [h] at h'
      cases h'
    · rw [h] at h'
      cases h'
      exact ⟨n, hn, hw⟩
  · rintro ⟨n, hn, hw⟩
    rcases parentsFirst_cases m with ⟨sorted, -, hf⟩ | ⟨f', n', h', hn', hw'⟩
    · obtain ⟨front, back, hk, -, hun⟩ := hn
      exact absurd (hf.sound n (by simp [hk])) hun
    · obtain rfl := hn.unique hn'
      rw [h', hw.unique hw']

/-- a declared parent is the second name of the walk, whatever it is called -/
theorem walk_two {parent : String} (h : m.parentOf? n = some parent) : m.walk n 2 = [n, parent] := by
  have hc : [n, parent].IsChain fun child parent => m.parentOf? child = some parent := by simpa using h
  exact walk_of_chain rfl hc

/-- a section that is its own parent is a circle of one -/
theorem walkFault_self (h : m.parentOf? n = some n) : m.WalkFault n (.circular [n, n]) := by
  have hw : m.walk n ([n].length + 1) = [n] ++ [n] := walk_two h
  exact .circular hw (List.nodup_singleton n) (List.mem_singleton_self n)

end Sections

namespace Store

variable {m sorted : Sections}

theorem resolve_of_ok (h : m.parentsFirst = .ok sorted) : resolve m = .ok (ofSorted sorted) := by
  rw [resolve, h]
  rfl

theorem resolve_of_error {f : ParentFault} (h : m.parentsFirst = .error f) : resolve m = .error f := by
  rw [resolve, h]
  rfl

theorem parentsFirst_of_resolve {s : Store} (h : resolve m = .ok s) :
    ∃ sorted, m.parentsFirst = .ok sorted ∧ s = ofSorted sorted := by
  cases hp : m.parentsFirst with
  | ok sorted =>
    rw [resolve_of_ok hp] at h
    cases h
    exact ⟨sorted, rfl, rfl⟩
  | error f =>
    rw [resolve_of_error hp] at h
    cases h

theorem resolve_ok_iff (m : Sections) : (∃ s, resolve m = .ok s) ↔ ∀ n ∈ m.keys, m.Sound n := by
  rw [← Sections.parentsFirst_ok_iff]
  constructor
  · rintro ⟨s, h⟩
    obtain ⟨sorted, hp, -⟩ := parentsFirst_of_resolve h
    exact ⟨sorted, hp⟩
  · rintro ⟨sorted, hp⟩
    exact ⟨ofSorted sorted, resolve_of_ok hp⟩

theorem resolve_error_iff (m : Sections) (f : ParentFault) : resolve m = .error f ↔ m.parentsFirst = .error f := by
  constructor
  · intro h
    cases hp : m.parentsFirst with
    | ok sorted =>
      rw [resolve_of_ok hp] at h
      cases h
    | error g =>
      rw [resolve_of_error hp] at h
      cases h
      rfl
  · exact resolve_of_error

end Store

/-! ## Main results -/

/-- **Exact outcome of resolution.** Sections are put in order, and resolved to a store, exactly when all names are sound.
Otherwise the fault is that of the walk of the first name that is not: the name without section that the walk comes to, or the
walk up to the first name that it repeats. An empty parent is declared like any other, and a section that is its own parent
is a circle of one. -/
theorem resolution_outcome (m : Sections) :
    ((∃ sorted, m.parentsFirst = .ok sorted) ↔ ∀ n ∈ m.keys, m.Sound n) ∧
      ((∃ s, Store.resolve m = .ok s) ↔ ∀ n ∈ m.keys, m.Sound n) ∧
      (∀ f, m.parentsFirst = .error f ↔ ∃ n, m.FirstUnsound n ∧ m.WalkFault n f) ∧
      (∀ f, Store.resolve m = .error f ↔ ∃ n, m.FirstUnsound n ∧ m.WalkFault n f) ∧
      (∀ n p, m.get? n = some p → p.get? parentProperty = some "" → m.walk n 2 = [n, ""]) ∧
      ∀ n, m.parentOf? n = some n → m.WalkFault n (.circular [n, n]) := by
  refine ⟨m.parentsFirst_ok_iff, Store.resolve_ok_iff m, m.parentsFirst_error_iff, fun f => ?_, fun n p hp hq => ?_,
    fun n h => Sections.walkFault_self h⟩
  · rw [Store.resolve_error_iff, m.parentsFirst_error_iff]
  · exact Sections.walk_two ((Sections.parentOf?_of_get? hp).trans hq)

/-- **Exact linearization.** The ordered sections are the given ones. Their names stand in the order of the walks of the given
names, each whole and from its root down, without the names that occurred before; so every parent is before its children. -/
theorem linearization_exact (m sorted : Sections) (h : m.parentsFirst = .ok sorted) :
    (sorted.keys = (m.keys.flatMap fun n => (m.ancestry n).reverse).eraseDups ∧
      ∀ n ∈ m.keys, ∃ root, (m.ancestry n).getLast? = some root ∧ m.parentOf? root = none) ∧
    (sorted.keys.Perm m.keys ∧ sorted.keys.Nodup) ∧
    (∀ n, sorted.get? n = m.get? n) ∧
    ∀ child parent, m.parentOf? child = some parent → sorted.keys.idxOf parent < sorted.keys.idxOf child := by
  have hf := Sections.finished_of_parentsFirst h
  have hmem : ∀ n, n ∈ sorted.keys ↔ n ∈ m.keys := fun n => by
    rw [sorted.mem_keys_iff, m.mem_keys_iff, OrderedMap.contains, OrderedMap.contains, hf.get n]
  refine ⟨⟨hf.order, fun n hn => (hf.sound n hn).ancestry_ends⟩, ⟨?_, sorted.nodup_keys⟩, hf.get, fun child parent hp => ?_⟩
  · exact (List.perm_ext_iff_of_nodup sorted.nodup_keys m.nodup_keys).2 hmem
  · exact hf.topDown child parent ((Sections.parentOf?_congr (hf.get child)).trans hp)

/-- a grandchild and a child that stand before their parents -/
def shuffled : Sections :=
  .ofList [("c", .ofList [(parentProperty, "b")]), ("d", .ofList [(parentProperty, "a")]), ("a", .empty),
    ("b", .ofList [(parentProperty, "a")])]

/-- the walk of `c` comes first, from its root down; `d` follows, its root being placed -/
theorem linearization_of_shuffled :
    ∃ sorted, shuffled.parentsFirst = .ok sorted ∧ sorted.keys = ["a", "b", "c", "d"] ∧
      (∀ n, sorted.get? n = shuffled.get? n) ∧ sorted.keys.idxOf "b" < sorted.keys.idxOf "c" := by
  obtain ⟨sorted, h⟩ := shuffled.parentsFirst_ok_iff.2 (by decide)
  obtain ⟨⟨hk, -⟩, -, hg, hp⟩ := linearization_exact shuffled sorted h
  exact ⟨sorted, h, hk.trans (by decide), hg, hp "c" "b" (by decide)⟩

end LayeredProfiles
