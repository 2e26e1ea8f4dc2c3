/-
What it means that two stores, or two profiles, are equal.

Both tests compare the number of entries and look up each entry of one side in the other. Since no key occurs twice, that is
the same as comparing every look-up (`all_entries_iff`).

Results:
- `Profile.equals_iff`: equal profiles have the same name, the same handle and the same value of every property.
- `Resolved.equals_iff`: resolved stores are equal exactly when the sections they show agree.
-/
import LayeredProfiles.Proofs.Agreement
import LayeredProfiles.Proofs.StoreInvariant

namespace LayeredProfiles

namespace OrderedMap

variable {o o' : KeyOrder} {α β : Type} {m : OrderedMap o α} {m' : OrderedMap o' β}

theorem size_eq_length_keys (m : OrderedMap o α) : m.size = m.keys.length := by
  simp [size, keys]

theorem keys_perm (h : ∀ key, m.contains key = m'.contains key) : m.keys.Perm m'.keys := by
  refine (List.perm_ext_iff_of_nodup m.nodup_keys m'.nodup_keys).2 fun key => ?_
  rw [mem_keys_iff, mem_keys_iff, h]

/-- as many entries, and each entry found on the other side: then all look-ups match -/
theorem all_entries_iff (m : OrderedMap o α) (m' : OrderedMap o' β) (r : α → β → Bool) :
    (m.size = m'.size ∧ ∀ e ∈ m.entries, (m'.get? e.1).any (r e.2) = true) ↔
      ∀ key, Option.Rel (fun a b => r a b = true) (m.get? key) (m'.get? key) := by
  constructor
  · rintro ⟨hsize, hall⟩ key
    -- every key is found on the other side, and there are as many: so none is left over there
    have hsub : ∀ k ∈ m.keys, k ∈ m'.keys := by
      intro k hk
      obtain ⟨e, he, rfl⟩ := List.mem_map.1 hk
      obtain ⟨b, hb, -⟩ := (Option.any_eq_true _ _).1 (hall e he)
      exact (m'.mem_keys_iff e.1).2 ((m'.contains_iff e.1).2 ⟨b, hb⟩)
    have hperm : m.keys.Perm m'.keys := (m.nodup_keys.subperm hsub).perm_of_length_le <| by
      rw [← size_eq_length_keys, ← size_eq_length_keys, hsize]
    cases hg : m.get? key with
    | some a =>
      obtain ⟨b, hb, hab⟩ := (Option.any_eq_true _ _).1 (hall (key, a) (mem_of_get?_eq hg))
      rw [hb]
      exact .some hab
    | none =>
      have hk : key ∉ m.keys := by
        rw [mem_keys_iff, (m.contains_eq_false_iff key).2 hg]
        simp
      have hk' : m'.contains key = false := by
        rw [← Bool.not_eq_true, ← mem_keys_iff, ← hperm.mem_iff]
        exact hk
      rw [(m'.contains_eq_false_iff key).1 hk']
      exact .none
  · intro h
    refine ⟨?_, fun e he => ?_⟩
    · rw [size_eq_length_keys, size_eq_length_keys]
      refine (keys_perm fun key => ?_).length_eq
      have hk := h key
      unfold contains
      cases hg : m.get? key <;> cases hg' : m'.get? key <;> rw [hg, hg'] at hk <;> cases hk <;> rfl
    · have he' := h e.1
      rw [get?_eq_of_mem he] at he'
      cases hg' : m'.get? e.1 with
      | none =>
        rw [hg'] at he'
        cases he'
      | some b =>
        rw [hg'] at he'
        cases he' with
        | some hab => simpa using hab

end OrderedMap

theorem Profile.equals_iff {p q : Profile} :
    p.equals q = true ↔ p.name = q.name ∧ p.parent? = q.parent? ∧ ∀ key, p.property? key = q.property? key := by
  have hentry : ∀ e : String × String,
      (q.property? e.1 == some e.2) = (q.properties.get? e.1).any fun v => e.2 == v := by
    intro e
    unfold Profile.property?
    cases q.properties.get? e.1 <;> simp [eq_comm]
  have hrel : ∀ key, Option.Rel (fun a b => (a == b) = true) (p.properties.get? key) (q.properties.get? key) ↔
      p.property? key = q.property? key := by
    intro key
    unfold Profile.property?
    cases p.properties.get? key <;> cases q.properties.get? key <;> simp
  have hall := OrderedMap.all_entries_iff p.properties q.properties fun a b => a == b
  unfold equals
  simp only [Bool.and_eq_true, beq_iff_eq, List.all_eq_true, hentry, and_assoc]
  rw [hall]
  simp only [hrel]

theorem Store.equals_iff {s t : Store} :
    s.equals t = true ↔ ∀ n, Option.Rel (fun p q => p.equals q = true) (s.profile? n) (t.profile? n) := by
  unfold equals
  simp only [Bool.and_eq_true, beq_iff_eq, List.all_eq_true]
  exact OrderedMap.all_entries_iff s.profiles t.profiles Profile.equals

/-- **Equality of resolved stores.** It is the agreement of the sections that they show: the handles follow. -/
theorem Resolved.equals_iff {m m' : Sections} {s t : Store} (hs : Resolved m s) (ht : Resolved m' t) :
    s.equals t = true ↔ m.Agrees m' := by
  have hn : ∀ n, Option.Rel (fun p q => p.equals q = true) (s.profile? n) (t.profile? n) ↔
      m.contains n = m'.contains n ∧ ∀ key, m.value? n key = m'.value? n key := by
    intro n
    rw [hs.profile, ht.profile]
    unfold OrderedMap.contains Sections.value?
    cases m.get? n with
    | none => cases m'.get? n <;> simp
    | some p =>
      cases m'.get? n with
      | none => simp
      | some q =>
        simp only [Option.map_some, Option.rel_some_some, Profile.equals_iff, Option.isSome_some, Option.bind_some,
          true_and]
        exact ⟨And.right, fun h => ⟨h parentProperty, h⟩⟩
  rw [Store.equals_iff]
  simp only [hn, forall_and]
  exact ⟨fun h => ⟨h.1, h.2⟩, fun h => ⟨h.names, h.values⟩⟩

end LayeredProfiles
