/-
Sections under profile names: what normalizing keeps, what it ignores, and where everything stands.

Every section is either ignored or laid under the one profile name that its own name spells. Several names may spell one profile
name. The sections that do are laid over each other, so the last one that has a property decides its value, while names and
ordinary keys stay where they first came to stand. In a credentials source a name spells only itself. There nothing is laid over
anything, and what is not ignored stays as it is.

Main statement: `normalization_exact`.
-/
import Mathlib.Tactic
import LayeredProfiles.Proofs.RoundTrip
import LayeredProfiles.Proofs.KeyArrangement
import LayeredProfiles.Proofs.SpelledNames
import LayeredProfiles.Proofs.StoreEquality

namespace LayeredProfiles

/-- reading from the end finds the last entry that has something -/
theorem findSome?_reverse_eq_some_iff {α β : Type} {f : α → Option β} {l : List α} {b : β} :
    l.reverse.findSome? f = some b ↔ ∃ before a after, l = before ++ a :: after ∧ f a = some b ∧ ∀ d ∈ after, f d = none := by
  rw [List.findSome?_eq_some_iff]
  constructor
  · rintro ⟨back, a, front, hl, ha, hback⟩
    refine ⟨front.reverse, a, back.reverse, ?_, ha, fun d hd => hback d (List.mem_reverse.1 hd)⟩
    rw [← List.reverse_reverse l, hl]
    simp
  · rintro ⟨before, a, after, rfl, ha, hafter⟩
    exact ⟨after.reverse, a, before.reverse, by simp, ha, fun d hd => hafter d (List.mem_reverse.1 hd)⟩

namespace Sections

/-! ## Sections under any new names -/

section Renaming

variable (accept : String → Option String) (m : Sections)

theorem mem_ignored_iff {spelled : String} :
    spelled ∈ (m.renameBy accept).ignored ↔ spelled ∈ m.keys ∧ accept spelled = none := by
  simp [renameBy]

theorem ignored_sublist : (m.renameBy accept).ignored.Sublist m.keys := List.filter_sublist

/-- the new names stand in the order in which the old ones first come to them -/
theorem keys_renameBy : (m.renameBy accept).sections.keys = (m.keys.filterMap accept).eraseDups := by
  rw [renameBy_eq, keys_foldl_contribute, OrderedMap.keys_empty, List.nil_append, OrderedMap.keys, List.map_filterMap,
    List.filterMap_map]
  congr 2
  funext e
  cases h : accept e.1 <;> simp [h]

theorem mem_keys_renameBy {name : String} :
    name ∈ (m.renameBy accept).sections.keys ↔ ∃ spelled ∈ m.keys, accept spelled = some name := by
  rw [OrderedMap.mem_keys_iff, contains_renameBy]

theorem value?_renameBy_eq_some_iff {name key v : String} :
    (m.renameBy accept).sections.value? name key = some v ↔
      ∃ before e after, m.entries = before ++ e :: after ∧ accept e.1 = some name ∧ e.2.get? key = some v ∧
        ∀ d ∈ after, accept d.1 = some name → d.2.get? key = none := by
  rw [value?_renameBy, findSome?_reverse_eq_some_iff]
  simp only [ite_eq_right_iff, Option.ite_none_right_eq_some, and_assoc]

/-- the ordinary keys of a section stand in the order in which the old sections first have them -/
theorem filter_keysOf_renameBy (n : String) :
    ((m.renameBy accept).sections.keysOf n).filter ordinary =
      ((m.entries.flatMap fun e => if accept e.1 = some n then e.2.keys else []).filter ordinary).eraseDups := by
  have hkeys : ((m.entries.filterMap fun e => (accept e.1).map fun name => (name, e.2)).flatMap fun e =>
      if e.1 = n then e.2.keys else []) = m.entries.flatMap fun e => if accept e.1 = some n then e.2.keys else [] := by
    rw [List.filterMap_eq_flatMap_toList, List.flatMap_assoc]
    refine List.flatMap_congr fun e _ => ?_
    cases ha : accept e.1 <;> simp
  rw [renameBy_eq, filter_keysOf_foldl_contribute, hkeys]
  rfl

theorem mem_keysOf_renameBy {n key : String} :
    key ∈ (m.renameBy accept).sections.keysOf n ↔ ∃ e ∈ m.entries, accept e.1 = some n ∧ key ∈ e.2.keys := by
  rw [mem_keysOf, ← Option.isSome_iff_exists, value?_renameBy, List.findSome?_isSome_iff]
  simp only [List.mem_reverse, OrderedMap.mem_keys_iff, OrderedMap.contains]
  refine exists_congr fun e => and_congr_right fun _ => ?_
  split <;> simp [*]

theorem keysOf_renameBy (n : String) :
    (m.renameBy accept).sections.keysOf n =
      recordKeys (m.entries.flatMap fun e => if accept e.1 = some n then e.2.keys else []) := by
  rw [← recordKeys_keysOf]
  refine recordKeys_congr (fun key => ?_) ?_
  · rw [mem_keysOf_renameBy, List.mem_flatMap]
    refine exists_congr fun e => and_congr_right fun _ => ?_
    split <;> simp [*]
  · rw [filter_keysOf_renameBy, eraseDups_of_nodup (nodup_eraseDups _)]

/-- the old names are those that are ignored and those that come to a new name, each once -/
theorem keys_perm_renameBy :
    m.keys.Perm ((m.renameBy accept).ignored ++
      (m.renameBy accept).sections.keys.flatMap fun name => m.keys.filter fun spelled => accept spelled = some name) := by
  refine (List.perm_ext_iff_of_nodup m.nodup_keys ?_).2 fun spelled => ?_
  · refine List.nodup_append.2 ⟨m.nodup_keys.sublist (ignored_sublist accept m), List.nodup_flatMap.2 ⟨?_, ?_⟩, ?_⟩
    · exact fun name _ => m.nodup_keys.filter _
    · refine (OrderedMap.nodup_keys _).imp fun {a b} hab => ?_
      intro spelled ha hb
      have hsome : some a = some b := (by simpa using (List.mem_filter.1 ha).2 : accept spelled = some a).symm.trans
        (by simpa using (List.mem_filter.1 hb).2)
      exact hab (Option.some.inj hsome)
    · rintro a ha b hb rfl
      obtain ⟨name, -, hb⟩ := List.mem_flatMap.1 hb
      have hsome : accept a = some name := by simpa using (List.mem_filter.1 hb).2
      rw [((mem_ignored_iff accept m).1 ha).2] at hsome
      cases hsome
  · simp only [List.mem_append, mem_ignored_iff, List.mem_flatMap, mem_keys_renameBy, List.mem_filter, decide_eq_true_eq]
    constructor
    · intro hs
      cases ha : accept spelled with
      | none => exact .inl ⟨hs, rfl⟩
      | some name => exact .inr ⟨name, ⟨spelled, hs, ha⟩, hs, rfl⟩
    · rintro (⟨hs, -⟩ | ⟨-, -, hs, -⟩) <;> exact hs

/-- where no two names come to one, every section stays as it is under its new name -/
theorem entries_renameBy (h : (m.keys.filterMap accept).Nodup) :
    (m.renameBy accept).sections.entries = m.entries.filterMap fun e => (accept e.1).map fun name => (name, e.2) := by
  have hkeys : (m.entries.filterMap fun e => (accept e.1).map fun name => (name, e.2)).map (·.1) =
      m.keys.filterMap accept := by
    rw [List.map_filterMap, OrderedMap.keys, List.filterMap_map]
    simp [Function.comp_def]
  have hdistinct : (m.entries.filterMap fun e => (accept e.1).map fun name => (name, e.2)).Pairwise fun a b => a.1 ≠ b.1 :=
    List.pairwise_map.1 (hkeys ▸ h)
  rw [renameBy_eq, entries_foldl_contribute hdistinct fun _ _ => rfl]
  rfl

/-! ## How many -/

theorem length_eraseDups_le (l : List String) : l.eraseDups.length ≤ l.length :=
  ((nodup_eraseDups l).subperm fun _ ha => List.mem_eraseDups.1 ha).length_le

/-- every section is accepted or ignored -/
theorem length_accepted_add_ignored :
    (m.keys.filterMap accept).length + (m.renameBy accept).ignored.length = m.size := by
  have hsplit := List.length_eq_countP_add_countP (fun spelled => (accept spelled).isSome) (l := m.keys)
  have hignored : (m.renameBy accept).ignored.length =
      m.keys.countP fun spelled => decide ¬(accept spelled).isSome = true := by
    rw [List.countP_eq_length_filter]
    refine congrArg List.length (List.filter_congr fun spelled _ => ?_)
    cases accept spelled <;> rfl
  rw [OrderedMap.size_eq_length_keys, hsplit, List.length_filterMap_eq_countP, hignored]

theorem size_renameBy_add_ignored_le :
    (m.renameBy accept).sections.size + (m.renameBy accept).ignored.length ≤ m.size := by
  rw [← length_accepted_add_ignored accept m, OrderedMap.size_eq_length_keys, keys_renameBy]
  exact Nat.add_le_add_right (length_eraseDups_le _) _

end Renaming

/-! ## Credentials -/

/-- in a credentials source no two names come to one profile -/
theorem nodup_credentials (m : Sections) : (m.keys.filterMap SourceKind.credentials.profileName?).Nodup := by
  refine List.Nodup.filterMap (fun a b name ha hb => ?_) m.nodup_keys
  rw [(SourceKind.profileName?_credentials_eq_some_iff.1 ha).1, (SourceKind.profileName?_credentials_eq_some_iff.1 hb).1]

theorem size_credentials_add_ignored (m : Sections) :
    (m.normalize .credentials).sections.size + (m.normalize .credentials).ignored.length = m.size := by
  rw [← length_accepted_add_ignored SourceKind.credentials.profileName? m, OrderedMap.size_eq_length_keys, normalize,
    keys_renameBy, eraseDups_of_nodup m.nodup_credentials]

theorem entries_credentials (m : Sections) :
    (m.normalize .credentials).sections.entries =
      m.entries.filter fun e => e.1 ∉ (m.normalize .credentials).ignored := by
  rw [normalize, entries_renameBy _ m m.nodup_credentials, ← List.filterMap_eq_filter]
  refine List.filterMap_congr fun e he => ?_
  have hkey : e.1 ∈ m.keys := List.mem_map_of_mem he
  cases ha : SourceKind.credentials.profileName? e.1 with
  | none => simp [Option.guard, mem_ignored_iff, hkey, ha]
  | some name =>
    obtain ⟨rfl, -⟩ := SourceKind.profileName?_credentials_eq_some_iff.1 ha
    simp [Option.guard, mem_ignored_iff, ha]

/-! ## Main result -/

/-- the names of a source that come to a profile name -/
def spellings (kind : SourceKind) (m : Sections) (name : String) : List String :=
  m.keys.filter fun spelled => kind.profileName? spelled = some name

/-- what a source comes to under profile names -/
structure NormalizesTo (kind : SourceKind) (m : Sections) (r : Normalized) : Prop where
  /-- the names that spell no profile name are ignored, in the order of the source -/
  ignored : r.ignored.Sublist m.keys ∧ ∀ spelled ∈ m.keys, (spelled ∈ r.ignored ↔ ∀ name, ¬ kind.Spells spelled name)
  /-- nothing is lost: each name is ignored or comes to one of the profile names, and only once -/
  split : m.keys.Perm (r.ignored ++ r.sections.keys.flatMap (spellings kind m))
  /-- a section that is not ignored shows under the profile name that its name spells, and this is the only one -/
  shown : ∀ e ∈ m.entries, e.1 ∉ r.ignored → ∃ name, (∀ other, kind.Spells e.1 other ↔ other = name) ∧
    name ∈ r.sections.keys ∧ ∀ key ∈ e.2.keys, key ∈ r.sections.keysOf name
  /-- the last section that spells the profile name and has the property decides -/
  value : ∀ name key v, (r.sections.value? name key = some v ↔
    ∃ before e after, m.entries = before ++ e :: after ∧ kind.Spells e.1 name ∧ e.2.get? key = some v ∧
      ∀ d ∈ after, kind.Spells d.1 name → d.2.get? key = none)
  /-- the profile names stand in the order of the first names that spell them -/
  names : r.sections.keys = (m.keys.filterMap kind.profileName?).eraseDups
  /-- the keys of a profile stand in the order in which the sections that spell its name first have them, array indices ahead -/
  keys : ∀ name, r.sections.keysOf name =
    recordKeys (m.entries.flatMap fun e => if kind.profileName? e.1 = some name then e.2.keys else [])

theorem normalizesTo_normalize (kind : SourceKind) (m : Sections) : NormalizesTo kind m (m.normalize kind) where
  ignored := by
    refine ⟨ignored_sublist kind.profileName? m, fun spelled hs => ?_⟩
    rw [normalize, mem_ignored_iff, SourceKind.profileName?_eq_none_iff, and_iff_right hs]
  split := keys_perm_renameBy kind.profileName? m
  shown e he hi := by
    have hkey : e.1 ∈ m.keys := List.mem_map_of_mem he
    cases ha : kind.profileName? e.1 with
    | none => exact absurd ((mem_ignored_iff kind.profileName? m).2 ⟨hkey, ha⟩) hi
    | some name =>
      have hspells := SourceKind.profileName?_eq_some_iff.1 ha
      refine ⟨name, fun other => ⟨fun h => h.unique hspells, fun h => h ▸ hspells⟩, ?_, fun key hk => ?_⟩
      · exact (mem_keys_renameBy kind.profileName? m).2 ⟨e.1, hkey, ha⟩
      · exact (mem_keysOf_renameBy kind.profileName? m).2 ⟨e, he, ha, hk⟩
  value name key v := by
    simp only [normalize, value?_renameBy_eq_some_iff, SourceKind.profileName?_eq_some_iff]
  names := keys_renameBy kind.profileName? m
  keys := keysOf_renameBy kind.profileName? m

/-- **Exact normalization.** A dialect accepts the names that spell a profile name in it, and reads them as that name. The other
names are ignored, in their order, and nothing else is lost: every section that is not ignored goes under the one name that its own
name spells, where the last section that has a property decides its value. The default name alone fits both dialects, and only the
mark with nothing but blanks behind it fits neither. In a credentials source the sections that are not ignored stay as they are. Which
characters are blank is said in `isBlank_iff`. -/
theorem normalization_exact (kind : SourceKind) (m : Sections) :
    (∀ spelled name, kind.profileName? spelled = some name ↔ kind.Spells spelled name) ∧
      NormalizesTo kind m (m.normalize kind) ∧
      (∀ spelled ∈ m.keys,
        (spelled ∉ (m.normalize .configuration).ignored ∧ spelled ∉ (m.normalize .credentials).ignored ↔
            spelled = SourceKind.defaultName) ∧
          (spelled ∈ (m.normalize .configuration).ignored ∧ spelled ∈ (m.normalize .credentials).ignored ↔
            ∃ rest : String, Blank rest.toList ∧ spelled = SourceKind.mark ++ rest)) ∧
      (m.normalize .credentials).sections.entries =
        m.entries.filter fun e => e.1 ∉ (m.normalize .credentials).ignored := by
  refine ⟨fun spelled name => SourceKind.profileName?_eq_some_iff, normalizesTo_normalize kind m, fun spelled hs => ?_,
    m.entries_credentials⟩
  rw [(normalizesTo_normalize .configuration m).ignored.2 spelled hs,
    (normalizesTo_normalize .credentials m).ignored.2 spelled hs]
  refine ⟨?_, SourceKind.spells_in_neither_iff⟩
  simpa only [not_forall, not_not] using SourceKind.spells_in_both_iff

/-- two spellings of `dev`, the later one laid over the earlier one, and a name without mark -/
example :
    let r := normalize .configuration (.ofList [("profile dev", .ofList [("a", "1"), ("b", "1")]), ("stray", .empty),
      ("default", .empty), ("profile \t dev ", .ofList [("b", "2"), ("7", "2")])])
    r.ignored = ["stray"] ∧ r.sections.keys = ["dev", "default"] ∧ r.sections.keysOf "dev" = ["7", "a", "b"] ∧
      r.sections.value? "dev" "b" = some "2" := by
  decide

end Sections

end LayeredProfiles
