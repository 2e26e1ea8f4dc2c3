/-
What the views of ordered maps show after an operation: which keys are there, where a new key of a table stands, and what
laying one map over another does to the values.

`Sections.value?` looks up one property of one section. `value?_foldl_contribute` is the one statement about many sections laid
over each other, in whatever order and under whatever names: the last one that has the property decides. Merging tables and
renaming sections are both of that kind.

Results:
- `ext_get?`: two maps with the same keys in the same order and the same look-ups are the same.
- `entries_ofList`: entries that stand in order already are the entries of their map.
- `get?_overlay`: the upper map decides where it has a value.
- `value?_merge`, `contains_merge`: in a merge the first table that has a property decides.
- `value?_renameBy`, `contains_renameBy`: under a renaming the last section that comes to a name and has the property decides.
-/
import Mathlib.Tactic
import LayeredProfiles.Dialect

namespace LayeredProfiles

namespace OrderedMap

variable {o : KeyOrder} {α β : Type}

/-! ## Keys -/

theorem contains_iff (m : OrderedMap o α) (key : String) : m.contains key = true ↔ ∃ v, m.get? key = some v :=
  Option.isSome_iff_exists

theorem contains_eq_false_iff (m : OrderedMap o α) (key : String) : m.contains key = false ↔ m.get? key = none := by
  simp [contains]

@[simp] theorem contains_empty (key : String) : (empty : OrderedMap o α).contains key = false := rfl

@[simp] theorem keys_empty : (empty : OrderedMap o α).keys = [] := rfl

theorem contains_insert (m : OrderedMap o α) (key : String) (value : α) (k : String) :
    (m.insert key value).contains k = (decide (k = key) || m.contains k) := by
  unfold contains
  rw [get?_insert]
  by_cases h : k = key <;> simp [h]

theorem get?_eq_of_mem {m : OrderedMap o α} {e : String × α} (he : e ∈ m.entries) : m.get? e.1 = some e.2 := by
  obtain ⟨l, hl⟩ := m
  simp only [get?] at he ⊢
  induction l with
  | nil => simp at he
  | cons d l ih =>
    obtain ⟨hd, hl⟩ := List.pairwise_cons.1 hl
    rcases List.mem_cons.1 he with rfl | he
    · simp [find?]
    · simp [find?, (hd e he).1, ih hl he]

theorem mem_of_get?_eq {m : OrderedMap o α} {key : String} {value : α} (h : m.get? key = some value) :
    (key, value) ∈ m.entries := by
  have hk := (m.mem_keys_iff key).2 ((m.contains_iff key).2 ⟨value, h⟩)
  obtain ⟨e, he, rfl⟩ := List.mem_map.1 hk
  rw [get?_eq_of_mem he] at h
  cases h
  exact he

theorem get?_eq_some_iff {m : OrderedMap o α} {key : String} {value : α} :
    m.get? key = some value ↔ (key, value) ∈ m.entries :=
  ⟨mem_of_get?_eq, fun h => get?_eq_of_mem h⟩

theorem nodup_entries (m : OrderedMap o α) : m.entries.Nodup := List.Nodup.of_map Prod.fst m.nodup_keys

theorem notMem_front {m : OrderedMap o α} {front back : List String} {key : String} (hk : m.keys = front ++ key :: back) :
    key ∉ front := by
  intro h
  have hd := m.nodup_keys
  rw [hk] at hd
  exact (List.nodup_append.1 hd).2.2 key h key List.mem_cons_self rfl

theorem find?_eq_none_iff (key : String) (l : List (String × α)) : find? key l = none ↔ ∀ e ∈ l, e.1 ≠ key := by
  induction l with
  | nil => simp [find?]
  | cons e l ih => by_cases hk : e.1 = key <;> simp [find?, hk, ih]

theorem enter_of_new (key : String) (value : α) (l : List (String × α)) (h : find? key l = none) :
    enter .arrival key value l = l ++ [(key, value)] := by
  induction l with
  | nil => rfl
  | cons e l ih =>
    by_cases hk : e.1 = key
    · simp [find?, hk] at h
    · have hl : find? key l = none := by simpa [find?, hk] using h
      have ha : KeyOrder.arrival.ahead key e.1 = false := rfl
      simp [enter, hk, ha, ih hl]

/-- a new key of a table goes to the end -/
theorem keys_insert_of_new (m : OrderedMap .arrival α) {key : String} (value : α) (h : m.contains key = false) :
    (m.insert key value).keys = m.keys ++ [key] := by
  have hn : find? key m.entries = none := (m.contains_eq_false_iff key).1 h
  simp [keys, insert, enter_of_new key value m.entries hn]

theorem find?_map (f : String → α → β) (key : String) (l : List (String × α)) :
    find? key (l.map fun e => (e.1, f e.1 e.2)) = (find? key l).map (f key) := by
  induction l with
  | nil => rfl
  | cons e l ih =>
    by_cases hk : e.1 = key
    · simp [find?, ← hk]
    · simp [find?, hk, ih]

theorem get?_mapValues (f : String → α → β) (m : OrderedMap o α) (key : String) :
    (m.mapValues f).get? key = (m.get? key).map (f key) :=
  find?_map f key m.entries

theorem keys_mapValues (f : String → α → β) (m : OrderedMap o α) : (m.mapValues f).keys = m.keys := by
  simp [keys, mapValues]

/-! ## Maps with the same look-ups -/

/-- the same entries in whatever order are the same look-ups -/
theorem perm_iff_get? {o' : KeyOrder} {m : OrderedMap o α} {m' : OrderedMap o' α} :
    m.entries.Perm m'.entries ↔ ∀ key, m.get? key = m'.get? key := by
  constructor
  · intro h key
    apply Option.ext
    intro value
    rw [get?_eq_some_iff, get?_eq_some_iff, h.mem_iff]
  · intro h
    rw [List.perm_ext_iff_of_nodup m.nodup_entries m'.nodup_entries]
    rintro ⟨key, value⟩
    rw [← get?_eq_some_iff, ← get?_eq_some_iff, h]

theorem entries_eq_filterMap (m : OrderedMap o α) :
    m.entries = m.keys.filterMap fun key => (m.get? key).map fun value => (key, value) := by
  rw [keys, List.filterMap_map]
  have h : ∀ e ∈ m.entries, ((fun key => (m.get? key).map fun value => (key, value)) ∘ Prod.fst) e = some e := by
    intro e he
    simp [get?_eq_of_mem he]
  rw [List.filterMap_congr h, List.filterMap_some]

/-- with the keys in the same order too, the maps are the same -/
theorem ext_get? {m m' : OrderedMap o α} (hk : m.keys = m'.keys) (hg : ∀ key, m.get? key = m'.get? key) : m = m' := by
  apply ext
  rw [entries_eq_filterMap, entries_eq_filterMap m', hk]
  simp only [hg]

/-! ## Entries in order already -/

/-- a key that may stand behind all others goes to the end -/
theorem enter_of_inOrder {key : String} {value : α} {l : List (String × α)} (h : ∀ e ∈ l, InOrder o e (key, value)) :
    enter o key value l = l ++ [(key, value)] := by
  induction l with
  | nil => rfl
  | cons e l ih =>
    obtain ⟨⟨hne, hahead⟩, h⟩ := List.forall_mem_cons.1 h
    rw [enter, if_neg hne, if_neg (by simp [hahead]), ih h, List.cons_append]

theorem entries_foldl_insert {m : OrderedMap o α} {l : List (String × α)} (h : (m.entries ++ l).Pairwise (InOrder o)) :
    (l.foldl (fun m e => m.insert e.1 e.2) m).entries = m.entries ++ l := by
  induction l generalizing m with
  | nil => simp
  | cons e l ih =>
    have hlast : ∀ d ∈ m.entries, InOrder o d e := fun d hd => (List.pairwise_append.1 h).2.2 d hd e List.mem_cons_self
    have hentries : (m.insert e.1 e.2).entries = m.entries ++ [e] := enter_of_inOrder hlast
    rw [List.foldl_cons, ih (by simpa [hentries] using h), hentries, List.append_assoc, List.singleton_append]

/-- entries that stand in order stay as they are -/
theorem entries_ofList {l : List (String × α)} (h : l.Pairwise (InOrder o)) : (ofList l : OrderedMap o α).entries = l :=
  entries_foldl_insert h

theorem ofList_entries (m : OrderedMap o α) : ofList m.entries = m := ext (entries_ofList m.inOrder)

theorem mem_of_mem_foldl_insert {m : OrderedMap o α} {l : List (String × α)} {e : String × α}
    (h : e ∈ (l.foldl (fun m e => m.insert e.1 e.2) m).entries) : e ∈ l ∨ e ∈ m.entries := by
  induction l generalizing m with
  | nil => exact .inr h
  | cons d l ih =>
    rcases ih h with he | he
    · exact .inl (List.mem_cons_of_mem d he)
    · rcases mem_of_mem_enter he with rfl | he
      · exact .inl List.mem_cons_self
      · exact .inr he

theorem mem_of_mem_ofList {l : List (String × α)} {e : String × α} (h : e ∈ (ofList l : OrderedMap o α).entries) : e ∈ l :=
  (mem_of_mem_foldl_insert h).resolve_right (List.not_mem_nil)

/-! ## Repeated keys -/

theorem find?_append (key : String) (l l' : List (String × α)) : find? key (l ++ l') = (find? key l).or (find? key l') := by
  induction l with
  | nil => rfl
  | cons e l ih => by_cases hk : e.1 = key <;> simp [find?, hk, ih]

theorem get?_foldl_insert_eq (l : List (String × α)) (m : OrderedMap o α) (key : String) :
    (l.foldl (fun m e => m.insert e.1 e.2) m).get? key = (find? key l.reverse).or (m.get? key) := by
  induction l generalizing m with
  | nil => rfl
  | cons e l ih =>
    rw [List.foldl_cons, ih, get?_insert, List.reverse_cons, find?_append, Option.or_assoc]
    by_cases hk : e.1 = key
    · simp [find?, hk]
    · simp [find?, hk, Ne.symm hk]

/-- of entries with repeated keys the last of a key counts -/
theorem get?_ofList_eq (l : List (String × α)) (key : String) : (ofList l : OrderedMap o α).get? key = find? key l.reverse := by
  rw [ofList, get?_foldl_insert_eq, get?_empty, Option.or_none]

/-! ## Overlays -/

/-- of entries with distinct keys, entered one after the other, each gives its key the value -/
theorem get?_foldl_insert (l : List (String × α)) (hl : l.Pairwise fun a b => a.1 ≠ b.1) (m : OrderedMap o α)
    (key : String) : (l.foldl (fun m e => m.insert e.1 e.2) m).get? key = (find? key l).or (m.get? key) := by
  induction l generalizing m with
  | nil => simp [find?]
  | cons e l ih =>
    obtain ⟨he, hl⟩ := List.pairwise_cons.1 hl
    rw [List.foldl_cons, ih hl, get?_insert]
    by_cases hk : e.1 = key
    · have hn : find? key l = none := (find?_eq_none_iff key l).2 fun d hd => hk ▸ (he d hd).symm
      simp [find?, hk, hn]
    · simp [find?, hk, Ne.symm hk]

theorem get?_ofList (l : List (String × α)) (hl : l.Pairwise fun a b => a.1 ≠ b.1) (key : String) :
    (ofList l : OrderedMap o α).get? key = find? key l := by
  rw [ofList, get?_foldl_insert l hl, get?_empty, Option.or_none]

/-- the upper map decides where it has a value -/
theorem get?_overlay (lower upper : OrderedMap o α) (key : String) :
    (lower.overlay upper).get? key = (upper.get? key).or (lower.get? key) :=
  get?_foldl_insert upper.entries (upper.inOrder.imp fun h => h.1) lower key

end OrderedMap

namespace Sections

/-! ## Sections laid over each other -/

/-- the value that the section of a name gives a property -/
def value? (m : Sections) (name key : String) : Option String := (m.get? name).bind fun p => p.get? key

@[simp] theorem value?_empty (name key : String) : value? .empty name key = none := rfl

theorem parentOf?_eq_value? (m : Sections) (name : String) : m.parentOf? name = m.value? name parentProperty := rfl

theorem contains_contribute (m : Sections) (name : String) (p : Properties) (n : String) :
    (m.contribute name p).contains n = (decide (n = name) || m.contains n) :=
  m.contains_insert name _ n

theorem value?_contribute (m : Sections) (name : String) (p : Properties) (n key : String) :
    (m.contribute name p).value? n key = (if name = n then p.get? key else none).or (m.value? n key) := by
  unfold value? contribute
  rw [OrderedMap.get?_insert]
  by_cases hn : name = n
  · subst hn
    cases hg : m.get? name with
    | none => simp
    | some present => simp [OrderedMap.get?_overlay]
  · simp [hn, Ne.symm hn]

theorem contains_foldl_contribute (l : List (String × Properties)) (m : Sections) (n : String) :
    (l.foldl (fun m e => m.contribute e.1 e.2) m).contains n = true ↔ (∃ e ∈ l, e.1 = n) ∨ m.contains n = true := by
  induction l generalizing m with
  | nil => simp
  | cons e l ih =>
    rw [List.foldl_cons, ih, contains_contribute]
    simp only [Bool.or_eq_true, decide_eq_true_eq, List.mem_cons, exists_eq_or_imp]
    constructor
    · rintro (h | rfl | h)
      · exact .inl (.inr h)
      · exact .inl (.inl rfl)
      · exact .inr h
    · rintro ((h | h) | h)
      · exact .inr (.inl h.symm)
      · exact .inl h
      · exact .inr (.inr h)

/-- the last section under the name that has the property decides -/
theorem value?_foldl_contribute (l : List (String × Properties)) (m : Sections) (n key : String) :
    (l.foldl (fun m e => m.contribute e.1 e.2) m).value? n key =
      (l.reverse.findSome? fun e => if e.1 = n then e.2.get? key else none).or (m.value? n key) := by
  induction l generalizing m with
  | nil => simp
  | cons e l ih =>
    rw [List.foldl_cons, ih, value?_contribute, List.reverse_cons, List.findSome?_append, Option.or_assoc]
    simp

/-- of entries with distinct keys it does not matter from which end they are read -/
theorem findSome?_reverse_entries (m : Sections) (n key : String) :
    (m.entries.reverse.findSome? fun e => if e.1 = n then e.2.get? key else none) = m.value? n key := by
  -- a value that is found at all is the one that looking up gives
  have hu : ∀ e ∈ m.entries, ∀ v, (if e.1 = n then e.2.get? key else none) = some v → m.value? n key = some v := by
    intro e he v hv
    split at hv
    · rename_i hn
      simp [value?, ← hn, OrderedMap.get?_eq_of_mem he, hv]
    · cases hv
  cases hf : m.entries.reverse.findSome? fun e => if e.1 = n then e.2.get? key else none with
  | some v =>
    obtain ⟨e, he, hv⟩ := List.exists_of_findSome?_eq_some hf
    exact (hu e (List.mem_reverse.1 he) v hv).symm
  | none =>
    rw [List.findSome?_eq_none_iff] at hf
    unfold value?
    cases hg : m.get? n with
    | none => rfl
    | some p => simpa using (hf (n, p) (List.mem_reverse.2 (OrderedMap.mem_of_get?_eq hg))).symm

theorem contains_layer (lower upper : Sections) (n : String) :
    (lower.layer upper).contains n = true ↔ upper.contains n = true ∨ lower.contains n = true := by
  unfold layer
  rw [contains_foldl_contribute, ← upper.mem_keys_iff]
  simp [OrderedMap.keys]

theorem value?_layer (lower upper : Sections) (n key : String) :
    (lower.layer upper).value? n key = (upper.value? n key).or (lower.value? n key) := by
  unfold layer
  rw [value?_foldl_contribute, findSome?_reverse_entries]

theorem merge_cons (t : Sections) (tables : List Sections) : merge (t :: tables) = (merge tables).layer t := rfl

/-- a merge has the names of all its tables -/
theorem contains_merge (tables : List Sections) (n : String) :
    (merge tables).contains n = true ↔ ∃ t ∈ tables, t.contains n = true := by
  induction tables with
  | nil => simp [merge]
  | cons t tables ih =>
    rw [merge_cons, contains_layer, ih]
    simp

/-- in a merge the first table that has the property decides -/
theorem value?_merge (tables : List Sections) (n key : String) :
    (merge tables).value? n key = tables.findSome? fun t => t.value? n key := by
  induction tables with
  | nil => rfl
  | cons t tables ih =>
    rw [merge_cons, value?_layer, ih, List.findSome?_cons]
    cases t.value? n key <;> rfl

/-! ## Sections under new names -/

theorem renameBy_eq (accept : String → Option String) (m : Sections) :
    (m.renameBy accept).sections =
      (m.entries.filterMap fun e => (accept e.1).map fun name => (name, e.2)).foldl
        (fun done e => done.contribute e.1 e.2) .empty := by
  rw [List.foldl_filterMap]
  show m.entries.foldl _ _ = _
  congr 1
  funext done e
  cases accept e.1 <;> rfl

/-- the new names are those that the old ones come to -/
theorem contains_renameBy (accept : String → Option String) (m : Sections) (n : String) :
    (m.renameBy accept).sections.contains n = true ↔ ∃ spelled ∈ m.keys, accept spelled = some n := by
  rw [renameBy_eq, contains_foldl_contribute]
  constructor
  · rintro (⟨e, he, rfl⟩ | h)
    · obtain ⟨d, hd, hde⟩ := List.mem_filterMap.1 he
      obtain ⟨name, hname, rfl⟩ := Option.map_eq_some_iff.1 hde
      exact ⟨d.1, List.mem_map_of_mem hd, hname⟩
    · simp at h
  · rintro ⟨spelled, hs, hn⟩
    obtain ⟨e, he, rfl⟩ := List.mem_map.1 hs
    exact .inl ⟨(n, e.2), List.mem_filterMap.2 ⟨e, he, by simp [hn]⟩, rfl⟩

/-- the last section that comes to the name and has the property decides -/
theorem value?_renameBy (accept : String → Option String) (m : Sections) (n key : String) :
    (m.renameBy accept).sections.value? n key =
      m.entries.reverse.findSome? fun e => if accept e.1 = some n then e.2.get? key else none := by
  rw [renameBy_eq, value?_foldl_contribute, value?_empty, Option.or_none, ← List.filterMap_reverse]
  induction m.entries.reverse with
  | nil => rfl
  | cons e l ih =>
    cases ha : accept e.1 with
    | none => simp [ha, ih]
    | some name => simp [ha, ih, List.findSome?_cons]

end Sections

end LayeredProfiles
