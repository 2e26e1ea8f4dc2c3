/-
What a store that was loaded from several sources holds.

Two rules meet. Within a source, of several sections that come to one profile name, the last one that has a property gives its
value (`Sections.lastValue?`). Across sources the first one does. The stores that are built in between put their profiles in
another order, but show the sections they were resolved from (`Resolved`), so the merge sees sections that agree with the normalized
ones.

Main statement: `load_precedence`.
-/
import LayeredProfiles.FileTree
import LayeredProfiles.Proofs.StoreEquality

namespace LayeredProfiles

variable {host : Host} {logger : Logger} {entries : List SourceEntry} {loaded : List (SourceKind × Sections)}
  {stores : List Store} {store : Store}

/-- the value that a source gives a property of a profile: that of its last section that comes to the profile's name and has
the property -/
def Sections.lastValue? (kind : SourceKind) (raw : Sections) (name key : String) : Option String :=
  raw.entries.reverse.findSome? fun e => if kind.profileName? e.1 = some name then e.2.get? key else none

/-- the sections of each source under profile names -/
def normalizedSections (loaded : List (SourceKind × Sections)) : List Sections :=
  loaded.map fun e => (e.2.normalize e.1).sections

theorem contains_merge_normalized (n : String) :
    (Sections.merge (normalizedSections loaded)).contains n = true ↔
      ∃ e ∈ loaded, ∃ spelled ∈ e.2.keys, e.1.profileName? spelled = some n := by
  rw [Sections.contains_merge, normalizedSections]
  simp only [List.mem_map, exists_exists_and_eq_and]
  refine exists_congr fun e => and_congr_right fun _ => ?_
  exact Sections.contains_renameBy e.1.profileName? e.2 n

theorem value?_merge_normalized (n key : String) :
    (Sections.merge (normalizedSections loaded)).value? n key =
      loaded.findSome? fun e => e.2.lastValue? e.1 n key := by
  rw [Sections.value?_merge, normalizedSections, List.findSome?_map]
  congr 1
  funext e
  exact Sections.value?_renameBy e.1.profileName? e.2 n key

/-! ## The stores in between -/

/-- each store was resolved from what its entry loads -/
theorem exists_loaded
    (h : List.Forall₂ (fun entry store => (SourceEntry.build entry host logger).result = .ok store) entries stores) :
    ∃ loaded, entries.map (·.loaded? host) = loaded.map some ∧
      List.Forall₂ (fun e store => Store.resolve (Sections.normalize e.1 e.2).sections = .ok store) loaded stores := by
  induction h with
  | nil => exact ⟨[], rfl, .nil⟩
  | cons hb _ ih =>
    obtain ⟨kind, raw, hl, hr⟩ := SourceEntry.build_ok_iff.1 hb
    obtain ⟨loaded, hls, hrs⟩ := ih
    exact ⟨(kind, raw) :: loaded, by simp [hl, hls], .cons hr hrs⟩

/-- the stores show sections that agree with the normalized ones -/
theorem agrees_of_resolved
    (h : List.Forall₂ (fun e store => Store.resolve (Sections.normalize e.1 e.2).sections = .ok store) loaded stores) :
    (Sections.merge (stores.map Store.toSections)).Agrees (Sections.merge (normalizedSections loaded)) := by
  apply Sections.merge_agrees
  unfold normalizedSections
  induction h with
  | nil => exact .nil
  | cons hr _ ih =>
    exact .cons (resolved_of_resolve hr).agrees_toSections ih

/-- loading gives a store when the sections of each source resolve, and all of them merged -/
theorem exists_loadStore (hl : entries.map (·.loaded? host) = loaded.map some)
    (each : ∀ e ∈ loaded, ∃ s, Store.resolve (e.2.normalize e.1).sections = .ok s)
    (merged : ∃ s, Store.resolve (Sections.merge (normalizedSections loaded)) = .ok s) :
    ∃ store, (loadStore host logger entries).result = .ok store := by
  obtain ⟨stores, hb, hr⟩ : ∃ stores,
      List.Forall₂ (fun entry store => (SourceEntry.build entry host logger).result = .ok store) entries stores ∧
        List.Forall₂ (fun e store => Store.resolve (Sections.normalize e.1 e.2).sections = .ok store) loaded stores := by
    clear merged
    induction loaded generalizing entries with
    | nil =>
      obtain rfl : entries = [] := by simpa using hl
      exact ⟨[], .nil, .nil⟩
    | cons e loaded ih =>
      cases entries with
      | nil => simp at hl
      | cons entry entries =>
        simp only [List.map_cons, List.cons.injEq] at hl
        obtain ⟨s, hs⟩ := each e (by simp)
        obtain ⟨stores, hb, hr⟩ := ih hl.2 fun d hd => each d (List.mem_cons_of_mem e hd)
        exact ⟨s :: stores, .cons (SourceEntry.build_ok_iff.2 ⟨e.1, e.2, hl.1, hs⟩) hb, .cons hs hr⟩
  obtain ⟨store, ha⟩ := (agrees_of_resolved hr).symm.resolve_ok merged
  exact ⟨store, loadStore_ok_iff.2 ⟨stores, hb, ha⟩⟩

/-! ## Main result -/

/-- **Precedence.** A store that was loaded has a profile exactly when a section of some source comes to its name. A property, and
so the parent, has the value of the first source that gives it one, and there that of the last section that does. The store
equals the one that is resolved from the merge of the normalized sections of the sources. -/
theorem load_precedence (h : (loadStore host logger entries).result = .ok store) :
    ∃ loaded : List (SourceKind × Sections),
      entries.map (·.loaded? host) = loaded.map some ∧
      (∀ n, store.has n = true ↔ ∃ e ∈ loaded, ∃ spelled ∈ e.2.keys, e.1.profileName? spelled = some n) ∧
      (∀ n key, store.property? n key = loaded.findSome? fun e => e.2.lastValue? e.1 n key) ∧
      (∀ n, (store.profile? n).bind Profile.parent? = loaded.findSome? fun e => e.2.lastValue? e.1 n parentProperty) ∧
      ∃ t, Store.resolve (Sections.merge (loaded.map fun e => (e.2.normalize e.1).sections)) = .ok t ∧
        store.equals t = true := by
  obtain ⟨stores, hb, ha⟩ := loadStore_ok_iff.1 h
  obtain ⟨loaded, hl, hr⟩ := exists_loaded hb
  have hstore : Resolved (Sections.merge (stores.map Store.toSections)) store := resolved_of_resolve ha
  have hagree := agrees_of_resolved hr
  obtain ⟨t, ht⟩ := hagree.resolve_ok ⟨store, ha⟩
  refine ⟨loaded, hl, fun n => ?_, fun n key => ?_, fun n => ?_, t, ht, ?_⟩
  · rw [hstore.has_iff, hagree.names, contains_merge_normalized]
  · rw [hstore.property?_eq, hagree.values, value?_merge_normalized]
  · rw [hstore.parent?_eq, hagree.parentOf?, Sections.parentOf?_eq_value?, value?_merge_normalized]
  · exact (hstore.equals_iff (resolved_of_resolve ht)).2 hagree

/-- two sections that come to `dev`, and one that does not fit -/
def configured : Sections :=
  .ofList [("profile dev", .ofList [("region", "eu-west-1"), (parentProperty, "gone")]), ("profile base", .empty),
    ("profile  dev", .ofList [(parentProperty, "base")]), ("dev", .ofList [("region", "sa-east-1")])]

def secrets : Sections :=
  .ofList [("dev", .ofList [("region", "us-east-1"), ("key", "k1"), (parentProperty, "ops")]), ("ops", .empty)]

def bareHost : Host := FileTree.host ⟨[]⟩

/-- the configuration before the secrets -/
def configuredThenSecrets : List SourceEntry :=
  [⟨.inline "configured" (.table configured), .str "configuration"⟩, ⟨.inline "secrets" (.table secrets), .str "credentials"⟩]

/-- `dev` has its region from the first of its sections, its parent from the second and its key from the other source -/
theorem load_of_configured_then_secrets :
    ∃ store, (loadStore bareHost (.root .empty) configuredThenSecrets).result = .ok store ∧ store.has "dev" = true ∧
      store.property? "dev" "region" = some "eu-west-1" ∧ store.property? "dev" "key" = some "k1" ∧
      (store.profile? "dev").bind Profile.parent? = some "base" := by
  have hl : configuredThenSecrets.map (·.loaded? bareHost) =
      [(.configuration, configured), (.credentials, secrets)].map some := rfl
  obtain ⟨store, h⟩ := exists_loadStore hl
    (fun e he => by
      rcases List.mem_pair.1 he with rfl | rfl
      · exact (Store.resolve_ok_iff _).2 (by decide)
      · exact (Store.resolve_ok_iff _).2 (by decide))
    ((Store.resolve_ok_iff _).2 (by decide))
  obtain ⟨loaded, hl', hnames, hvalues, hparent, -⟩ := load_precedence h
  obtain rfl := List.map_injective_iff.2 (Option.some_injective _) (hl'.symm.trans hl)
  refine ⟨store, h, (hnames "dev").2 (by decide), ?_, ?_, ?_⟩
  · exact (hvalues "dev" "region").trans (by decide)
  · exact (hvalues "dev" "key").trans (by decide)
  · exact (hparent "dev").trans (by decide)

end LayeredProfiles
