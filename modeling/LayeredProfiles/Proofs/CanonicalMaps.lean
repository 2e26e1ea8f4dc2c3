/-
Property maps are the maps of all pairs that were ever assigned to them.

A record puts its keys in one order, whatever it is made of: no key twice, the array indices in front by their numbers, the others
behind them (`CanonicalKeys`, which does not mention how a key is recognised as an index or entered). Laying the map of some pairs over
the map of others is the same as assigning the pairs one behind the other (`OrderedMap.overlay_ofList`). So whatever the operations do
with sections, in any number of steps, each property map that comes out is the one to which its pairs were assigned in a row
(`Sections.Assigned`), and nothing of the steps between shows.

Results:
- `canonicalKeys_iff`, `OrderedMap.canonicalKeys_keys`: keys are canonical exactly when they can be the keys of a record as they stand.
- `OrderedMap.overlay_ofList`, `OrderedMap.entries_ofList_of_canonical`, `OrderedMap.empty_overlay`: combining and copying.
- `Sections.Assigned.builtOf`: the property maps that operations give.

Main statement: `property_maps_canonical`.
-/
import LayeredProfiles.Proofs.MergeViews
import LayeredProfiles.Proofs.Normalization

namespace LayeredProfiles

/-! ## Canonical keys -/

theorem ordinary_iff_not_isIndex {key : String} : ordinary key = true ↔ ¬ IsIndex key := by
  rw [← Bool.not_eq_false, ordinary_eq_false_iff, not_iff_not, IsIndex]
  exact exists_congr fun i => arrayIndex?_eq_some_iff.trans and_comm

/-- no key twice, first the array indices with their numbers ascending, and then only keys that are no array index -/
structure CanonicalKeys (keys : List String) : Prop where
  distinct : keys.Nodup
  order : ∃ (indices : List ℕ) (others : List String), keys = indices.map Nat.repr ++ others ∧
    indices.Pairwise (· < ·) ∧ (∀ i ∈ indices, i ≤ 4294967294) ∧ ∀ key ∈ others, ¬ IsIndex key

theorem repr_indexNumber {key : String} (h : ordinary key = false) : Nat.repr (indexNumber key) = key := by
  obtain ⟨i, hi⟩ := ordinary_eq_false_iff.1 h
  rw [indexNumber, hi, Option.getD_some, repr_of_arrayIndex? hi]

theorem indexNumber_le {key : String} (h : ordinary key = false) : indexNumber key ≤ 4294967294 := by
  obtain ⟨i, hi⟩ := ordinary_eq_false_iff.1 h
  rw [indexNumber, hi, Option.getD_some]
  exact le_of_arrayIndex? hi

/-- the keys of a record in any order of occurrence -/
theorem canonicalKeys_recordKeys (occurred : List String) : CanonicalKeys (recordKeys occurred) := by
  have hindex : ∀ key ∈ ascendingIndices occurred.eraseDups, ordinary key = false := fun key hk => (mem_ascendingIndices.1 hk).2
  have hnodup := nodup_ascendingIndices (nodup_eraseDups occurred)
  constructor
  · refine List.nodup_append.2 ⟨hnodup, (nodup_eraseDups occurred).filter _, ?_⟩
    rintro a ha b hb rfl
    have hordinary := (List.mem_filter.1 hb).2
    rw [hindex a ha] at hordinary
    cases hordinary
  · refine ⟨(ascendingIndices occurred.eraseDups).map indexNumber, occurred.eraseDups.filter ordinary, ?_, ?_, ?_, ?_⟩
    · rw [recordKeys, List.map_map]
      congr 1
      refine (List.map_id _).symm.trans (List.map_congr_left fun key hk => ?_)
      exact (repr_indexNumber (hindex key hk)).symm
    · -- ascending and distinct: two indices with one number would be one key
      refine List.pairwise_map.2 (((ascendingIndices_ascend _).and hnodup).imp_of_mem fun ha hb hab => ?_)
      exact Nat.lt_of_le_of_ne hab.1 fun heq => hab.2 (indexNumber_inj (hindex _ ha) (hindex _ hb) heq)
    · intro i hi
      obtain ⟨key, hk, rfl⟩ := List.mem_map.1 hi
      exact indexNumber_le (hindex key hk)
    · intro key hk
      exact ordinary_iff_not_isIndex.1 (List.mem_filter.1 hk).2

/-- keys are canonical exactly when none stands behind one that it has to go ahead of -/
theorem canonicalKeys_iff {keys : List String} :
    CanonicalKeys keys ↔ keys.Pairwise fun a b => a ≠ b ∧ indexAhead b a = false := by
  constructor
  · rintro ⟨hdistinct, indices, others, rfl, hascend, hle, hothers⟩
    have hbehind : ∀ b ∈ others, ∀ a, indexAhead b a = false := by
      intro b hb a
      exact ordinary_free b (ordinary_iff_not_isIndex.2 (hothers b hb)) a
    refine hdistinct.and (List.pairwise_append.2 ⟨?_, ?_, ?_⟩)
    · refine List.pairwise_map.2 (hascend.imp_of_mem fun hi hj hij => ?_)
      simp only [indexAhead, arrayIndex?_repr (hle _ hi), arrayIndex?_repr (hle _ hj), decide_eq_false_iff_not]
      omega
    · exact List.pairwise_of_forall_mem_list fun a _ b hb => hbehind b hb a
    · exact fun a _ b hb => hbehind b hb a
  · intro h
    have hentries : (keys.map fun key => (key, ())).Pairwise (InOrder .indexFirst) := List.pairwise_map.2 h
    have hrecord := OrderedMap.recordKeys_keys (⟨_, hentries⟩ : Record Unit)
    have hkeys : (⟨_, hentries⟩ : Record Unit).keys = keys := by simp [OrderedMap.keys, Function.comp_def]
    rw [hkeys] at hrecord
    exact hrecord ▸ canonicalKeys_recordKeys keys

namespace OrderedMap

variable {α : Type}

theorem canonicalKeys_keys (m : Record α) : CanonicalKeys m.keys := m.recordKeys_keys ▸ canonicalKeys_recordKeys m.keys

/-! ## Combining and copying -/

/-- the keys after some pairs were assigned -/
theorem keys_foldl_insert (l : List (String × α)) (m : Record α) :
    (l.foldl (fun m e => m.insert e.1 e.2) m).keys = recordKeys (m.keys ++ l.map (·.1)) := by
  rw [← recordKeys_keys]
  refine recordKeys_congr (fun key => ?_) ?_
  · have hfound : (find? key l.reverse).isSome = true ↔ key ∈ l.map (·.1) := by
      rw [Option.isSome_iff_ne_none, Ne, find?_eq_none_iff]
      simp
    rw [mem_keys_iff, contains, get?_foldl_insert_eq, Option.isSome_or, Bool.or_eq_true, hfound, List.mem_append, mem_keys_iff,
      contains, or_comm]
  · rw [filter_keys_foldl_insert ordinary_free, eraseDups_of_nodup (nodup_eraseDups _)]

theorem keys_ofList (l : List (String × α)) : (ofList l : Record α).keys = recordKeys (l.map (·.1)) := keys_foldl_insert l empty

/-- assigning the pairs of a record that was built from a list is assigning the pairs of the list -/
theorem foldl_insert_entries_ofList (m : Record α) (l : List (String × α)) :
    (ofList l : Record α).entries.foldl (fun m e => m.insert e.1 e.2) m = l.foldl (fun m e => m.insert e.1 e.2) m := by
  refine ext_get? ?_ fun key => ?_
  · have happend := recordKeys_append_recordKeys m.keys (l.map (·.1))
    rw [m.recordKeys_keys] at happend
    rw [keys_foldl_insert, keys_foldl_insert, ← happend, ← keys_ofList]
    rfl
  · rw [get?_foldl_insert _ ((ofList l : Record α).inOrder.imp fun h => h.1), get?_foldl_insert_eq]
    exact congrArg (Option.or · _) (get?_ofList_eq l key)

theorem overlay_ofList_right (m : Record α) (l : List (String × α)) :
    m.overlay (ofList l) = l.foldl (fun m e => m.insert e.1 e.2) m := foldl_insert_entries_ofList m l

/-- the map of some pairs laid over that of others is the map of all pairs -/
theorem overlay_ofList (a b : List (String × α)) : (ofList a : Record α).overlay (ofList b) = ofList (a ++ b) := by
  rw [overlay_ofList_right, ofList, ofList, List.foldl_append]

/-- pairs under canonical keys stay as they are -/
theorem entries_ofList_of_canonical {l : List (String × α)} (h : CanonicalKeys (l.map (·.1))) :
    (ofList l : Record α).entries = l :=
  entries_ofList ((List.pairwise_map.1 (canonicalKeys_iff.1 h)).imp fun hab => hab)

/-- a copy -/
theorem empty_overlay (m : Record α) : (empty : Record α).overlay m = m := m.ofList_entries

end OrderedMap

/-! ## What operations make of property maps -/

namespace Sections

variable {m sorted : Sections} {n : String} {s : Store}

abbrev Pairs := List (String × String)

/-- the property map of a name, empty where no section has it -/
def propertiesOf (m : Sections) (n : String) : Properties := (m.get? n).getD .empty

/-- the pairs that are written under a name; the last section of that name counts -/
def pairsUnder (written : List (String × Pairs)) (n : String) : Pairs := (OrderedMap.find? n written.reverse).getD []

/-- sections as they are written -/
def build (o : KeyOrder) (written : List (String × Pairs)) : OrderedMap o Properties :=
  .ofList (written.map fun e => (e.1, .ofList e.2))

/-- the sections that the operations give, in any number of steps, with the pairs that were assigned under each name, in order -/
inductive Assigned : Sections → (String → Pairs) → Prop where
  | table (written : List (String × Pairs)) : Assigned (SectionInput.table (build _ written)).toSections (pairsUnder written)
  | record (written : List (String × Pairs)) : Assigned (SectionInput.record (build _ written)).toSections (pairsUnder written)
  | merge {tables : List (Sections × (String → Pairs))} (before : ∀ t ∈ tables, Assigned t.1 t.2) :
      Assigned (Sections.merge (tables.map (·.1))) fun n => tables.reverse.flatMap fun t => t.2 n
  | normalize {m : Sections} {pairs : String → Pairs} (kind : SourceKind) (before : Assigned m pairs) :
      Assigned (m.normalize kind).sections fun n => (spellings kind m n).flatMap pairs
  | sort {m sorted : Sections} {pairs : String → Pairs} (before : Assigned m pairs) (given : m.parentsFirst = .ok sorted) :
      Assigned sorted pairs
  | profiles {m : Sections} {pairs : String → Pairs} (before : Assigned m pairs) : Assigned (Store.ofSorted m).toSections pairs
  | aggregate {stores : List (Store × (String → Pairs))} {s : Store} (before : ∀ t ∈ stores, Assigned t.1.toSections t.2)
      (given : Store.aggregate (stores.map (·.1)) = .ok s) :
      Assigned s.toSections fun n => stores.reverse.flatMap fun t => t.2 n

theorem propertiesOf_of_get? {p : Properties} (h : m.get? n = some p) : m.propertiesOf n = p := by
  rw [propertiesOf, h, Option.getD_some]

theorem propertiesOf_congr {m' : Sections} (h : m.get? n = m'.get? n) : m.propertiesOf n = m'.propertiesOf n := by
  rw [propertiesOf, propertiesOf, h]

theorem propertiesOf_contribute (m : Sections) (name : String) (p : Properties) (n : String) :
    (m.contribute name p).propertiesOf n = if name = n then (m.propertiesOf n).overlay p else m.propertiesOf n := by
  unfold propertiesOf contribute
  rw [OrderedMap.get?_insert]
  by_cases hn : name = n
  · subst hn
    rw [if_pos rfl, if_pos rfl]
    cases m.get? name with
    | none => exact (OrderedMap.empty_overlay p).symm
    | some present => rfl
  · rw [if_neg (Ne.symm hn), if_neg hn]

/-- sections laid over others add their pairs behind those that were assigned before -/
theorem propertiesOf_foldl_contribute (l : List (String × Pairs)) {pairs : Pairs} (h : m.propertiesOf n = .ofList pairs) :
    ((l.map fun e => (e.1, (.ofList e.2 : Properties))).foldl (fun m e => m.contribute e.1 e.2) m).propertiesOf n =
      .ofList (pairs ++ l.flatMap fun e => if e.1 = n then e.2 else []) := by
  induction l generalizing m pairs with
  | nil => simpa using h
  | cons e l ih =>
    rw [List.map_cons, List.foldl_cons, List.flatMap_cons, ← List.append_assoc]
    apply ih
    rw [propertiesOf_contribute, h]
    by_cases hn : e.1 = n
    · rw [if_pos hn, if_pos hn, OrderedMap.overlay_ofList]
    · rw [if_neg hn, if_neg hn, List.append_nil]

/-- every property map is that of the pairs under its name -/
def BuiltOf (m : Sections) (pairs : String → Pairs) : Prop := ∀ n, m.propertiesOf n = .ofList (pairs n)

namespace BuiltOf

variable {pairs : String → Pairs}

theorem pairs_eq_nil (h : m.BuiltOf pairs) (hn : n ∉ m.keys) : pairs n = [] := by
  have hnone : m.get? n = none := by
    rw [← m.contains_eq_false_iff, Bool.eq_false_iff, Ne, ← m.mem_keys_iff]
    exact hn
  have hempty : (.empty : Properties) = .ofList (pairs n) := by rw [← h n, propertiesOf, hnone, Option.getD_none]
  have hkeys := congrArg OrderedMap.keys hempty
  cases hp : pairs n with
  | nil => rfl
  | cons e l =>
    have hmem : e.1 ∈ (OrderedMap.ofList (pairs n) : Properties).keys := by
      rw [OrderedMap.keys_ofList, mem_recordKeys, hp]
      exact List.mem_cons_self
    rw [← hkeys] at hmem
    cases hmem

theorem entries_eq (h : m.BuiltOf pairs) :
    m.entries = (m.keys.map fun n => (n, pairs n)).map fun e => (e.1, (.ofList e.2 : Properties)) := by
  rw [OrderedMap.keys, List.map_map, List.map_map]
  refine (List.map_id _).symm.trans (List.map_congr_left fun e he => ?_)
  have hp : e.2 = .ofList (pairs e.1) := by rw [← h e.1, propertiesOf_of_get? (OrderedMap.get?_eq_of_mem he)]
  exact Prod.ext rfl hp

/-- of the pairs of all names those of one are picked -/
theorem flatMap_keys (h : m.BuiltOf pairs) (n : String) :
    ((m.keys.map fun n => (n, pairs n)).flatMap fun e => if e.1 = n then e.2 else []) = pairs n := by
  suffices hpick : ∀ keys : List String, keys.Nodup →
      ((keys.map fun n => (n, pairs n)).flatMap fun e => if e.1 = n then e.2 else []) = if n ∈ keys then pairs n else [] by
    rw [hpick m.keys m.nodup_keys]
    split
    · rfl
    · rename_i hn
      exact (h.pairs_eq_nil hn).symm
  intro keys hkeys
  induction keys with
  | nil => rfl
  | cons key keys ih =>
    obtain ⟨hkey, hkeys⟩ := List.nodup_cons.1 hkeys
    rw [List.map_cons, List.flatMap_cons, ih hkeys]
    by_cases hn : key = n
    · subst hn
      simp [hkey]
    · simp [hn, Ne.symm hn]

theorem layer {lower upper : Sections} {below above : String → Pairs} (hl : lower.BuiltOf below) (hu : upper.BuiltOf above) :
    (lower.layer upper).BuiltOf fun n => below n ++ above n := by
  intro n
  rw [Sections.layer, hu.entries_eq, propertiesOf_foldl_contribute _ (hl n), hu.flatMap_keys]

theorem merge {tables : List (Sections × (String → Pairs))} (h : ∀ t ∈ tables, BuiltOf t.1 t.2) :
    (Sections.merge (tables.map (·.1))).BuiltOf fun n => tables.reverse.flatMap fun t => t.2 n := by
  induction tables with
  | nil => exact fun n => rfl
  | cons t tables ih =>
    obtain ⟨ht, h⟩ := List.forall_mem_cons.1 h
    have hlayer := (ih h).layer ht
    intro n
    have hpairs : ((t :: tables).reverse.flatMap fun t => t.2 n) = (tables.reverse.flatMap fun t => t.2 n) ++ t.2 n := by
      rw [List.reverse_cons, List.flatMap_append, List.flatMap_singleton]
    exact (hlayer n).trans (congrArg OrderedMap.ofList hpairs.symm)

theorem normalize (h : m.BuiltOf pairs) (kind : SourceKind) :
    (m.normalize kind).sections.BuiltOf fun n => (spellings kind m n).flatMap pairs := by
  intro n
  have hentries : (m.entries.filterMap fun e => (kind.profileName? e.1).map fun name => (name, e.2)) =
      (m.keys.filterMap fun spelled => (kind.profileName? spelled).map fun name => (name, pairs spelled)).map
        fun e => (e.1, (.ofList e.2 : Properties)) := by
    rw [h.entries_eq, List.map_map, List.filterMap_map, List.map_filterMap]
    refine List.filterMap_congr fun spelled _ => ?_
    cases hk : kind.profileName? spelled <;> simp [hk]
  have hpick : ((m.keys.filterMap fun spelled => (kind.profileName? spelled).map fun name => (name, pairs spelled)).flatMap
      fun e => if e.1 = n then e.2 else []) = (spellings kind m n).flatMap pairs := by
    unfold spellings
    induction m.keys with
    | nil => rfl
    | cons spelled keys ih =>
      cases hk : kind.profileName? spelled with
      | none => simp [hk, ih]
      | some name => by_cases hn : name = n <;> simp [hk, hn, ih]
  have hempty : Sections.propertiesOf .empty n = .ofList [] := rfl
  rw [Sections.normalize, renameBy_eq, hentries, propertiesOf_foldl_contribute _ hempty, hpick, List.nil_append]

end BuiltOf

theorem get?_build (o : KeyOrder) (written : List (String × Pairs)) (n : String) :
    ((build o written).get? n).getD .empty = .ofList (pairsUnder written n) := by
  have hfind := OrderedMap.find?_map (fun _ (pairs : Pairs) => (.ofList pairs : Properties)) n written.reverse
  have hget : (build o written).get? n = (OrderedMap.find? n written.reverse).map .ofList := by
    rw [build, OrderedMap.get?_ofList_eq, ← List.map_reverse]
    exact hfind
  rw [hget, pairsUnder]
  cases OrderedMap.find? n written.reverse <;> rfl

/-- **Every property map is that of its pairs.** -/
theorem Assigned.builtOf {pairs : String → Pairs} (h : Assigned m pairs) : m.BuiltOf pairs := by
  induction h with
  | table written => exact get?_build .arrival written
  | record written => exact get?_build .indexFirst written
  | merge _ ih => exact .merge ih
  | normalize kind _ ih => exact ih.normalize kind
  | sort _ given ih =>
    intro n
    rw [propertiesOf_congr ((finished_of_parentsFirst given).get n), ih n]
  | @profiles m pairs _ ih =>
    intro n
    have hget : (Store.ofSorted m).toSections.get? n = m.get? n := by
      rw [Store.get?_toSections, profile?_ofSorted]
      cases m.get? n <;> rfl
    rw [propertiesOf_congr hget, ih n]
  | @aggregate stores s _ given ih =>
    intro n
    have htables : ∀ t ∈ stores.map fun t => (t.1.toSections, t.2), BuiltOf t.1 t.2 := by
      intro t ht
      obtain ⟨u, hu, rfl⟩ := List.mem_map.1 ht
      exact ih u hu
    have hmerge := BuiltOf.merge htables n
    have hpairs : ((stores.map fun t => (t.1.toSections, t.2)).reverse.flatMap fun t => t.2 n) =
        stores.reverse.flatMap fun t => t.2 n := by
      rw [← List.map_reverse, List.flatMap_map]
    have hget := (resolved_of_resolve given).get?_toSections n
    rw [List.map_map] at hget hmerge
    rw [propertiesOf_congr hget]
    exact hmerge.trans (congrArg OrderedMap.ofList hpairs)

end Sections

/-! ## Main result -/

/-- **Property maps are canonical.** To build a map of pairs gives canonical keys, and so do all operations: each property map that
comes out, of sections or of the profiles of a store, after any number of steps, is the map of all pairs that were assigned under its
name, one behind the other. Copying the map of some pairs and laying that of others over it gives the map of all pairs, with the same
keys in the same order and the same values. Pairs whose keys are canonical stay as they are, and a copy of a property map is that
map. -/
theorem property_maps_canonical :
    (∀ pairs : List (String × String), CanonicalKeys (.ofList pairs : Properties).keys) ∧
    (∀ m pairs, Sections.Assigned m pairs → ∀ n p, m.get? n = some p → p = .ofList (pairs n) ∧ CanonicalKeys p.keys) ∧
    (∀ (s : Store) pairs, Sections.Assigned s.toSections pairs → ∀ n p, s.profile? n = some p →
      p.properties = .ofList (pairs n) ∧ CanonicalKeys p.properties.keys) ∧
    (∀ a b : List (String × String), ((.empty : Properties).overlay (.ofList a)).overlay (.ofList b) = .ofList (a ++ b)) ∧
    (∀ pairs : List (String × String), CanonicalKeys (pairs.map (·.1)) → (.ofList pairs : Properties).entries = pairs) ∧
    ∀ p : Properties, (.empty : Properties).overlay p = p := by
  refine ⟨fun pairs => OrderedMap.canonicalKeys_keys _, fun m pairs h n p hp => ⟨?_, p.canonicalKeys_keys⟩,
    fun s pairs h n p hp => ⟨?_, p.properties.canonicalKeys_keys⟩, fun a b => ?_,
    fun pairs h => OrderedMap.entries_ofList_of_canonical h, OrderedMap.empty_overlay⟩
  · rw [← h.builtOf n, Sections.propertiesOf_of_get? hp]
  · have hget : s.toSections.get? n = some p.properties := by rw [Store.get?_toSections, hp, Option.map_some]
    rw [← h.builtOf n, Sections.propertiesOf_of_get? hget]
  · rw [OrderedMap.empty_overlay, OrderedMap.overlay_ofList]

/-- the greatest array index and a text that is one more; a leading zero; a repeated key -/
example :
    (.ofList [("01", "a"), ("4294967295", "b"), ("4294967294", "c"), ("7", "d"), ("01", "e")] : Properties).entries =
      [("7", "d"), ("4294967294", "c"), ("01", "e"), ("4294967295", "b")] := by
  decide

end LayeredProfiles
