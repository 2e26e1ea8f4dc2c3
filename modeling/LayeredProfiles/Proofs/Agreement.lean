/-
Sections that agree: the same names, and the same value of every property, in whatever order they stand.

Whether sections can be resolved depends on no more than that. Merging sections that agree gives sections that agree, so the
order in which sections reach a merge does not matter for what it holds.
-/
import LayeredProfiles.Proofs.ParentOrder

namespace LayeredProfiles

namespace Sections

/-- the same names, and the same value of every property -/
structure Agrees (m m' : Sections) : Prop where
  names : ∀ n, m.contains n = m'.contains n
  values : ∀ n key, m.value? n key = m'.value? n key

variable {m m' : Sections}

theorem Agrees.refl (m : Sections) : m.Agrees m := ⟨fun _ => rfl, fun _ _ => rfl⟩

theorem Agrees.symm (h : m.Agrees m') : m'.Agrees m :=
  ⟨fun n => (h.names n).symm, fun n key => (h.values n key).symm⟩

theorem Agrees.trans {m'' : Sections} (h : m.Agrees m') (h' : m'.Agrees m'') : m.Agrees m'' :=
  ⟨fun n => (h.names n).trans (h'.names n), fun n key => (h.values n key).trans (h'.values n key)⟩

theorem agrees_of_get? (h : ∀ n, m.get? n = m'.get? n) : m.Agrees m' where
  names n := by rw [OrderedMap.contains, OrderedMap.contains, h]
  values n key := by rw [value?, value?, h]

theorem Agrees.parentOf? (h : m.Agrees m') (n : String) : m.parentOf? n = m'.parentOf? n := h.values n parentProperty

theorem Agrees.mem_keys (h : m.Agrees m') (n : String) : n ∈ m.keys ↔ n ∈ m'.keys := by
  rw [m.mem_keys_iff, m'.mem_keys_iff, h.names]

theorem Agrees.closed (h : m.Agrees m') (hc : m.Closed) : m'.Closed := by
  intro child parent hp
  rw [← h.names]
  exact hc child parent ((h.parentOf? child).trans hp)

theorem Agrees.walk_eq (h : m.Agrees m') (n : String) (k : Nat) : m.walk n k = m'.walk n k := by
  induction k generalizing n with
  | zero => rfl
  | succ k ih =>
    have hp := h.parentOf? n
    cases hq : m.parentOf? n with
    | none => rw [walk_of_root hq, walk_of_root (hp.symm.trans hq)]
    | some parent => rw [walk_of_link hq, walk_of_link (hp.symm.trans hq), ih]

theorem Agrees.rooted (h : m.Agrees m') {n : String} {k : Nat} (hr : m.Rooted n k) : m'.Rooted n k := by
  induction hr with
  | root here top => exact .root (h.names _ ▸ here) (h.parentOf? _ ▸ top)
  | link up _ ih => exact .link (h.parentOf? _ ▸ up) ih

theorem Agrees.sound_iff (h : m.Agrees m') (n : String) : m.Sound n ↔ m'.Sound n := by
  rw [sound_iff_rooted, sound_iff_rooted]
  exact ⟨fun ⟨k, hr⟩ => ⟨k, h.rooted hr⟩, fun ⟨k, hr⟩ => ⟨k, h.symm.rooted hr⟩⟩

theorem Agrees.resolve_ok (h : m.Agrees m') (hr : ∃ s, Store.resolve m = .ok s) : ∃ s, Store.resolve m' = .ok s := by
  rw [Store.resolve_ok_iff] at hr ⊢
  intro n hn
  exact (h.sound_iff n).1 (hr n ((h.mem_keys n).2 hn))

theorem merge_agrees {tables tables' : List Sections} (h : List.Forall₂ Agrees tables tables') :
    (merge tables).Agrees (merge tables') := by
  induction h with
  | nil => exact ⟨fun _ => rfl, fun _ _ => rfl⟩
  | @cons t t' tables tables' ht _ ih =>
    refine ⟨fun n => ?_, fun n key => ?_⟩
    · rw [Bool.eq_iff_iff, merge_cons, merge_cons, contains_layer, contains_layer, ht.names, ih.names]
    · rw [merge_cons, merge_cons, value?_layer, value?_layer, ht.values, ih.values]

end Sections

end LayeredProfiles
