/-
What holds of every store, however it was made.

Building profiles drops the handle on a parent that does not stand before its child (`profile?_ofSorted`). With parents first
none is dropped, so a resolved store shows the given sections, each profile with a handle on the parent it declares
(`Resolved`). `Store.Made` are the stores that the operations give, in any number of steps; each of them is resolved from some sections.

Main statement: `made_store_invariant`.
-/
import LayeredProfiles.Proofs.Agreement
import LayeredProfiles.Proofs.BuildResults

namespace LayeredProfiles

variable {m sorted : Sections} {s : Store} {n parent : String}

/-! ## Building -/

theorem find?_buildAfter (before : List String) (l : List (String × Properties)) (n : String) :
    OrderedMap.find? n (buildAfter before l) =
      (OrderedMap.find? n l).map fun p => .ofSection (before ++ (l.map (·.1)).takeWhile (· ≠ n)) n p := by
  induction l generalizing before with
  | nil => rfl
  | cons e l ih =>
    obtain ⟨name, p⟩ := e
    by_cases hn : name = n
    · simp [buildAfter, OrderedMap.find?, hn]
    · simp [buildAfter, OrderedMap.find?, hn, ih]

/-- the profile of a section has a handle on its declared parent when that stands before it -/
theorem profile?_ofSorted (m : Sections) (n : String) :
    (Store.ofSorted m).profile? n = (m.get? n).map fun p => .ofSection (m.keys.takeWhile (· ≠ n)) n p :=
  find?_buildAfter [] m.entries n

theorem names_ofSorted (m : Sections) : (Store.ofSorted m).names = m.keys := keys_buildAfter [] m.entries

theorem mem_takeWhile_iff_idxOf_lt {l : List String} {a b : String} : a ∈ l.takeWhile (· ≠ b) ↔ l.idxOf a < l.idxOf b := by
  induction l with
  | nil => simp
  | cons c l ih =>
    by_cases hcb : c = b
    · simp [hcb]
    · rw [List.takeWhile_cons_of_pos (by simpa using hcb), List.mem_cons, List.idxOf_cons_ne l hcb]
      by_cases hca : c = a
      · simp [hca]
      · rw [List.idxOf_cons_ne l hca, Nat.succ_lt_succ_iff, ← ih]
        simp [Ne.symm hca]

theorem Store.keys_toSections (s : Store) : s.toSections.keys = s.names := OrderedMap.keys_mapValues _ s.profiles

theorem Store.get?_toSections (s : Store) (n : String) : s.toSections.get? n = (s.profile? n).map Profile.properties :=
  OrderedMap.get?_mapValues (fun _ (p : Profile) => p.properties) s.profiles n

theorem Store.value?_toSections (s : Store) (n key : String) : s.toSections.value? n key = s.property? n key := by
  rw [Sections.value?, Store.get?_toSections, Store.property?]
  cases s.profile? n <;> rfl

theorem Store.contains_toSections (s : Store) (n : String) : s.toSections.contains n = s.has n := by
  rw [OrderedMap.contains, Store.get?_toSections, Option.isSome_map]
  rfl

theorem Store.mem_names_iff (s : Store) (n : String) : n ∈ s.names ↔ s.has n = true := s.profiles.mem_keys_iff n

/-! ## Resolved stores -/

/-- a store shows sections: a profile of each, with a handle on the parent it declares, which is there and stands before it -/
structure Resolved (m : Sections) (s : Store) : Prop where
  profile : ∀ n, s.profile? n = (m.get? n).map fun p => ⟨n, p, p.declaredParent?⟩
  before : ∀ child parent, m.parentOf? child = some parent → s.names.idxOf parent < s.names.idxOf child

theorem resolved_ofSorted (ht : sorted.TopDown) : Resolved sorted (.ofSorted sorted) where
  profile n := by
    rw [profile?_ofSorted]
    cases hg : sorted.get? n with
    | none => rfl
    | some p =>
      have hkept : p.declaredParent?.filter (· ∈ sorted.keys.takeWhile (· ≠ n)) = p.declaredParent? := by
        cases hd : p.declaredParent? with
        | none => rfl
        | some parent =>
          have hmem := mem_takeWhile_iff_idxOf_lt.2 (ht n parent ((Sections.parentOf?_of_get? hg).trans hd))
          exact Option.filter_some_pos (by simpa using hmem)
      simp only [Option.map_some, Profile.ofSection, hkept]
  before child parent hp := by
    rw [names_ofSorted]
    exact ht child parent hp

theorem resolved_of_resolve (h : Store.resolve m = .ok s) : Resolved m s := by
  obtain ⟨sorted, hp, rfl⟩ := Store.parentsFirst_of_resolve h
  have hf := Sections.finished_of_parentsFirst hp
  have hr := resolved_ofSorted hf.topDown
  refine { profile := fun n => ?_, before := fun child parent hl => ?_ }
  · rw [hr.profile, hf.get]
  · exact hr.before child parent ((Sections.parentOf?_congr (hf.get child)).trans hl)

namespace Resolved

theorem has_iff (hr : Resolved m s) (n : String) : s.has n = m.contains n := by
  have hp := hr.profile n
  rw [Store.profile?] at hp
  rw [Store.has, OrderedMap.contains, hp, Option.isSome_map]
  rfl

theorem property?_eq (hr : Resolved m s) (n key : String) : s.property? n key = m.value? n key := by
  rw [Store.property?, hr.profile, Sections.value?]
  cases m.get? n <;> rfl

theorem parent?_eq (hr : Resolved m s) (n : String) : ((s.profile? n).bind Profile.parent?) = m.parentOf? n := by
  rw [hr.profile, Sections.parentOf?]
  cases m.get? n <;> rfl

/-- the sections that the store shows are those it was resolved from -/
theorem get?_toSections (hr : Resolved m s) (n : String) : s.toSections.get? n = m.get? n := by
  rw [Store.get?_toSections, hr.profile]
  cases m.get? n <;> rfl

theorem agrees_toSections (hr : Resolved m s) : s.toSections.Agrees m := Sections.agrees_of_get? hr.get?_toSections

theorem toSections_topDown (hr : Resolved m s) : s.toSections.TopDown := by
  intro child parent hp
  rw [Store.keys_toSections]
  exact hr.before child parent ((Sections.parentOf?_congr (hr.get?_toSections child)).symm.trans hp)

theorem closed (hr : Resolved m s) : m.Closed := hr.agrees_toSections.closed hr.toSections_topDown.closed

/-- the parent that a section declares is a profile of the store -/
theorem profile?_parent (hr : Resolved m s) (hp : m.parentOf? n = some parent) :
    ∃ q, q.name = parent ∧ s.profile? parent = some q := by
  obtain ⟨p, hg⟩ := (m.contains_iff parent).1 (hr.closed n parent hp)
  exact ⟨⟨parent, p, p.declaredParent?⟩, rfl, by rw [hr.profile, hg]; rfl⟩

end Resolved

/-! ## Stores that the operations give -/

/-- the stores that are made from nothing by any number of operations -/
inductive Store.Made : Store → Prop where
  | empty : Made .empty
  | resolve {input : SectionInput} {s : Store} (given : Store.resolve input.toSections = .ok s) : Made s
  | aggregate {stores : List Store} {s : Store} (before : ∀ t ∈ stores, Made t)
      (given : Store.aggregate stores = .ok s) : Made s
  | aggregator {a : Aggregator} {s : Store} (before : ∀ t ∈ a.stores, Made t) (given : a.build.result = .ok s) : Made s
  | builder {b : Builder} {host : Host} {s : Store} (given : (b.build host).result = .ok s) : Made s
  | load {host : Host} {logger : Logger} {entries : List SourceEntry} {s : Store}
      (given : (loadStore host logger entries).result = .ok s) : Made s

theorem parentsFirst_empty : Sections.parentsFirst .empty = .ok .empty := by
  rw [Sections.parentsFirst, Climb.run]
  rfl

/-- every store is resolved from some sections in the end -/
theorem Store.Made.exists_resolved (h : s.Made) : ∃ m, Resolved m s := by
  cases h with
  | empty => exact ⟨.empty, resolved_of_resolve (Store.resolve_of_ok parentsFirst_empty)⟩
  | resolve given => exact ⟨_, resolved_of_resolve given⟩
  | aggregate _ given => exact ⟨_, resolved_of_resolve given⟩
  | aggregator _ given => exact ⟨_, resolved_of_resolve (Aggregator.build_ok_iff.1 given)⟩
  | builder given =>
    obtain ⟨source, kind, raw, -, -, -, hr⟩ := Builder.build_ok_iff.1 given
    exact ⟨_, resolved_of_resolve hr⟩
  | load given =>
    obtain ⟨stores, -, ha⟩ := loadStore_ok_iff.1 given
    exact ⟨_, resolved_of_resolve ha⟩

/-- **Store invariant.** In every store that the operations give, names are unique and each profile is under its own. Its handle
is exactly the parent that it declares; that parent is a profile of the store at an earlier position, and it is what looking up
the parent gives, by the profile and by its name. -/
theorem made_store_invariant (h : s.Made) {name : String} {p : Profile} (hp : (name, p) ∈ s.profiles.entries) :
    (p.name = name ∧ s.profile? name = some p ∧ s.names.Nodup) ∧
      p.parent? = p.declaredParent? ∧
      ∀ parent, p.declaredParent? = some parent →
        s.names.idxOf parent < s.names.idxOf p.name ∧
          ∃ q, q.name = parent ∧ s.profile? parent = some q ∧ s.parentOf? p = some q ∧
            (s.profile? p.name).bind s.parentOf? = some q := by
  obtain ⟨m, hr⟩ := h.exists_resolved
  have hget : s.profile? name = some p := OrderedMap.get?_eq_of_mem hp
  obtain ⟨properties, hm, rfl⟩ : ∃ properties, m.get? name = some properties ∧
      ⟨name, properties, properties.declaredParent?⟩ = p := by
    rw [hr.profile] at hget
    exact Option.map_eq_some_iff.1 hget
  refine ⟨⟨rfl, hget, s.profiles.nodup_keys⟩, rfl, fun parent hd => ?_⟩
  have hlink : m.parentOf? name = some parent := (Sections.parentOf?_of_get? hm).trans hd
  have hd' : properties.declaredParent? = some parent := hd
  obtain ⟨q, hq, hs⟩ := hr.profile?_parent hlink
  have hparent : s.parentOf? ⟨name, properties, properties.declaredParent?⟩ = some q := by
    simp [Store.parentOf?, hd', hs]
  exact ⟨hr.before name parent hlink, q, hq, hs, hparent, by rw [hget]; exact hparent⟩

/-- `dev` has no parent yet, `base` has one -/
def upper : Sections :=
  .ofList [("dev", .ofList [("region", "eu-west-1")]), ("base", .ofList [(parentProperty, "root")]), ("root", .empty)]

/-- `dev` has a parent, `base` has none -/
def lower : Sections := .ofList [("dev", .ofList [(parentProperty, "base")]), ("base", .ofList [("region", "us-east-1")])]

/-- in the aggregate `dev` has its parent from the lower store, and this one has its own from the upper store -/
theorem aggregate_of_mixed_parents :
    ∃ (s : Store) (p q : Profile), s.Made ∧ ("dev", p) ∈ s.profiles.entries ∧ p.parent? = some "base" ∧
      s.names.idxOf "base" < s.names.idxOf p.name ∧ s.parentOf? p = some q ∧ q.parent? = some "root" := by
  obtain ⟨u, hu⟩ := (Store.resolve_ok_iff upper).2 (by decide)
  obtain ⟨l, hl⟩ := (Store.resolve_ok_iff lower).2 (by decide)
  have hagree := Sections.merge_agrees <|
    .cons (resolved_of_resolve hu).agrees_toSections (.cons (resolved_of_resolve hl).agrees_toSections .nil)
  obtain ⟨s, hs⟩ := hagree.symm.resolve_ok ((Store.resolve_ok_iff _).2 (by decide))
  have hmade : s.Made := by
    refine @Store.Made.aggregate [u, l] s (fun t ht => ?_) hs
    rcases List.mem_pair.1 ht with rfl | rfl
    · exact @Store.Made.resolve (.table upper) _ hu
    · exact @Store.Made.resolve (.table lower) _ hl
  have hr := resolved_of_resolve hs
  have hdev : s.has "dev" = true := by
    rw [hr.has_iff, hagree.names]
    decide
  obtain ⟨p, hp⟩ := (s.profiles.contains_iff "dev").1 hdev
  have hparent : p.parent? = some "base" := by
    have h := hr.parent?_eq "dev"
    rw [Store.profile?, hp, hagree.parentOf?] at h
    exact h.trans (by decide)
  obtain ⟨-, hd, hup⟩ := made_store_invariant hmade (OrderedMap.mem_of_get?_eq hp)
  obtain ⟨hlt, q, -, hq, hpq, -⟩ := hup "base" (hd ▸ hparent)
  have hroot : q.parent? = some "root" := by
    have h := hr.parent?_eq "base"
    rw [hq, hagree.parentOf?] at h
    exact h.trans (by decide)
  exact ⟨s, p, q, hmade, OrderedMap.mem_of_get?_eq hp, hparent, hlt, hpq, hroot⟩

end LayeredProfiles
