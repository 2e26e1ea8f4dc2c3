/-
Cycles of declared parents, and which of the two faults resolving reports.

A parent relation is `Cyclic` when some chain of parents leads back to the name it began with. Resolving can fail for no other
reason than a cycle or a declared parent that is not there, and where only one of the two is the case, the fault is of that kind.

Results:
- `not_cyclic_of_descending`: parents that stand before their children make no cycle.
- `WalkFault.circular_shape`: the chain of a circular fault is a way in, and then a cycle.
- `Store.resolve_ok_iff_closed`, `Store.resolve_error_iff_cyclic`: sections resolve exactly when they are closed and have no
  cycle.
- `Store.circular_of_closed`, `Store.missing_of_acyclic`: the kind of the fault when only one kind is possible.
-/
import Mathlib.Tactic
import LayeredProfiles.Proofs.ParentOrder

namespace LayeredProfiles

/-- some chain of parents leads from a name back to it -/
def Cyclic (up : String → Option String) : Prop :=
  ∃ name between, (name :: between ++ [name]).IsChain fun child parent => up child = some parent

theorem not_cyclic_of_descending {up : String → Option String} (position : String → Nat)
    (h : ∀ child parent, up child = some parent → position parent < position child) : ¬ Cyclic up := by
  rintro ⟨name, between, hc⟩
  have hdown : (name :: between ++ [name]).IsChain fun a b => position a > position b := hc.imp fun a b hab => h a b hab
  have hlast := (List.pairwise_cons.1 hdown.pairwise).1 name (by simp)
  exact Nat.lt_irrefl _ hlast

/-- in a chain every name but the last has a next one -/
theorem exists_link_of_mem {r : String → String → Prop} {l : List String} {a last : String} (hc : (l ++ [last]).IsChain r)
    (ha : a ∈ l) : ∃ b, r a b := by
  obtain ⟨front, back, rfl⟩ := List.append_of_mem ha
  obtain ⟨b, hb⟩ := Climb.exists_head?_concat back last
  rw [List.append_assoc, List.cons_append] at hc
  exact ⟨b, (List.isChain_cons.1 hc.right_of_append).1 b hb⟩

/-- the cycle at the end of a chain that leads into one -/
theorem isChain_of_lead {r : String → String → Prop} {lead between : List String} {again : String}
    (hc : (lead ++ again :: between ++ [again]).IsChain r) : (again :: between ++ [again]).IsChain r := by
  rw [List.append_assoc] at hc
  exact hc.right_of_append

namespace Sections

variable {m : Sections} {n : String}

/-! ## Walks as chains -/

theorem eq_of_head?_walk {a : String} {k : Nat} (ha : a ∈ (m.walk n k).head?) : a = n := by
  cases k with
  | zero => simp [walk] at ha
  | succ k => simpa [walk, eq_comm] using ha

/-- on a walk each name declares the next one -/
theorem walk_isChain (m : Sections) (n : String) (k : Nat) :
    (m.walk n k).IsChain fun child parent => m.parentOf? child = some parent := by
  induction k generalizing n with
  | zero => exact .nil
  | succ k ih =>
    cases hp : m.parentOf? n with
    | none =>
      rw [walk_of_root hp]
      exact List.isChain_singleton n
    | some parent =>
      rw [walk_of_link hp]
      refine List.isChain_cons.2 ⟨fun a ha => ?_, ih parent⟩
      rw [eq_of_head?_walk ha, hp]

/-! ## Cycles and open links among the sections -/

theorem not_sound_of_cycle {between : List String}
    (hc : (n :: between ++ [n]).IsChain fun child parent => m.parentOf? child = some parent) : ¬ m.Sound n := by
  intro hs
  have hd := hs.distinct (n :: between ++ [n]).length
  rw [walk_of_chain rfl hc] at hd
  simp at hd

/-- a name on a cycle has a section, since it declares a parent -/
theorem contains_of_cycle {between : List String}
    (hc : (n :: between ++ [n]).IsChain fun child parent => m.parentOf? child = some parent) : m.contains n = true := by
  obtain ⟨parent, hp⟩ := exists_link_of_mem hc List.mem_cons_self
  exact contains_of_parentOf? hp

/-- the chain of a circular fault: a way in, and then from the repeated name back to it -/
theorem WalkFault.circular_shape {chain : List String} (hf : m.WalkFault n (.circular chain)) :
    ∃ lead again between, chain = lead ++ again :: between ++ [again] ∧ (lead ++ again :: between).Nodup ∧
      chain.IsChain fun child parent => m.parentOf? child = some parent := by
  cases hf with
  | @circular path again along distinct repeated =>
    obtain ⟨lead, between, rfl, -⟩ := List.eq_append_cons_of_mem repeated
    refine ⟨lead, again, between, rfl, distinct, ?_⟩
    rw [← along]
    exact m.walk_isChain n _

theorem WalkFault.cyclic {chain : List String} (hf : m.WalkFault n (.circular chain)) : Cyclic m.parentOf? := by
  obtain ⟨lead, again, between, rfl, -, hc⟩ := hf.circular_shape
  exact ⟨again, between, isChain_of_lead hc⟩

theorem WalkFault.not_closed {parent : String} (hf : m.WalkFault n (.missing parent)) (hn : m.contains n = true) :
    ¬ m.Closed := by
  intro hclosed
  cases hf with
  | @missing path parent along _ absent =>
    have hc := along ▸ m.walk_isChain n (path.length + 1)
    rcases List.eq_nil_or_concat path with rfl | ⟨front, last, rfl⟩
    · -- the walk is the name alone
      have hhead : parent ∈ (m.walk n 1).head? := congrArg List.head? along
      rw [eq_of_head?_walk hhead, hn] at absent
      cases absent
    · have hp : m.parentOf? last = some parent := (List.isChain_append.1 hc).2.2 last (by simp) parent (by simp)
      simp [hclosed last parent hp] at absent

end Sections

/-! ## The outcome of resolving -/

namespace Store

variable {m : Sections}

theorem exists_walkFault {f : ParentFault} (h : resolve m = .error f) : ∃ n, m.contains n = true ∧ m.WalkFault n f := by
  rw [resolve_error_iff, Sections.parentsFirst_error_iff] at h
  obtain ⟨n, ⟨front, back, hk, -, -⟩, hf⟩ := h
  exact ⟨n, (m.mem_keys_iff n).1 (by simp [hk]), hf⟩

theorem circular_of_closed (hc : m.Closed) {f : ParentFault} (h : resolve m = .error f) : ∃ chain, f = .circular chain := by
  obtain ⟨n, hn, hf⟩ := exists_walkFault h
  cases f with
  | circular chain => exact ⟨chain, rfl⟩
  | missing parent => exact absurd hc (hf.not_closed hn)

theorem missing_of_acyclic (ha : ¬ Cyclic m.parentOf?) {f : ParentFault} (h : resolve m = .error f) :
    ∃ parent, f = .missing parent := by
  obtain ⟨n, -, hf⟩ := exists_walkFault h
  cases f with
  | circular chain => exact absurd hf.cyclic ha
  | missing parent => exact ⟨parent, rfl⟩

theorem resolve_ok_iff_closed (m : Sections) : (∃ s, resolve m = .ok s) ↔ m.Closed ∧ ¬ Cyclic m.parentOf? := by
  constructor
  · intro h
    rw [resolve_ok_iff] at h
    refine ⟨fun child parent hp => ?_, ?_⟩
    · have hs := h child ((m.mem_keys_iff child).2 (Sections.contains_of_parentOf? hp))
      exact (hs.of_link hp).within 1 parent (by simp [Sections.walk])
    · rintro ⟨name, between, hc⟩
      exact Sections.not_sound_of_cycle hc (h name ((m.mem_keys_iff name).2 (Sections.contains_of_cycle hc)))
  · rintro ⟨hclosed, hacyclic⟩
    cases h : resolve m with
    | ok s => exact ⟨s, rfl⟩
    | error f =>
      obtain ⟨chain, rfl⟩ := circular_of_closed hclosed h
      obtain ⟨parent, hf⟩ := missing_of_acyclic hacyclic h
      cases hf

theorem resolve_error_iff_cyclic (hc : m.Closed) : (∃ f, resolve m = .error f) ↔ Cyclic m.parentOf? := by
  constructor
  · rintro ⟨f, h⟩
    obtain ⟨n, -, hf⟩ := exists_walkFault h
    obtain ⟨chain, rfl⟩ := circular_of_closed hc h
    exact hf.cyclic
  · intro hcyclic
    cases h : resolve m with
    | ok s => exact absurd hcyclic ((resolve_ok_iff_closed m).1 ⟨s, h⟩).2
    | error f => exact ⟨f, rfl⟩

end Store

end LayeredProfiles
