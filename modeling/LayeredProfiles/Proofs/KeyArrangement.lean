/-
Where the keys of a map stand after entries were laid into it.

A key that the order puts ahead of no other goes to the end when it is new and stays where it is later on, so such keys stand in
the order of their first occurrence (`filter_keys_insert`, `filter_keys_foldl_insert`). In a table these are all keys. In a record
they are the ordinary keys; the array indices stand ahead of them, and their numbers alone decide how.

Results:
- `eraseDups_append_eraseDups`: first occurrences can be taken part by part.
- `keys_foldl_contribute`, `filter_keysOf_foldl_contribute`: the names, and the ordinary keys of one section, after any number of
  sections were laid over each other.
- `arrayIndex?_eq_some_iff`: which keys are array indices.
- `recordKeys_congr`, `OrderedMap.recordKeys_keys`: the order of the keys of a record is determined by which they are and how the
  ordinary ones follow each other.
- `Sections.ext_views`: names, keys and values determine a table of sections.
-/
import Mathlib.Tactic
import LayeredProfiles.Proofs.MapViews

namespace LayeredProfiles

/-! ## First occurrences -/

theorem eraseDups_concat (l : List String) (a : String) :
    (l ++ [a]).eraseDups = if a ∈ l then l.eraseDups else l.eraseDups ++ [a] := by
  rw [List.eraseDups_append]
  by_cases ha : a ∈ l <;> simp [List.removeAll, ha, List.eraseDups_cons]

theorem nodup_eraseDups (l : List String) : l.eraseDups.Nodup := by
  induction l using List.reverseRecOn with
  | nil => exact List.nodup_nil
  | append_singleton l a ih =>
    rw [eraseDups_concat]
    split
    · exact ih
    · rename_i ha
      refine List.nodup_append.2 ⟨ih, List.nodup_singleton a, fun b hb c hc hbc => ?_⟩
      rw [List.mem_singleton] at hc
      exact ha (hc ▸ hbc ▸ List.mem_eraseDups.1 hb)

theorem eraseDups_of_nodup {l : List String} (h : l.Nodup) : l.eraseDups = l := by
  induction l with
  | nil => rfl
  | cons a l ih =>
    obtain ⟨ha, hl⟩ := List.nodup_cons.1 h
    have hf : l.filter (fun b => !b == a) = l := List.filter_eq_self.2 fun b hb => by
      simpa using fun h : b = a => ha (h ▸ hb)
    rw [List.eraseDups_cons, hf, ih hl]

theorem eraseDups_filter (p : String → Bool) (l : List String) : (l.filter p).eraseDups = l.eraseDups.filter p := by
  induction l using List.reverseRecOn with
  | nil => rfl
  | append_singleton l a ih =>
    rw [List.filter_append, eraseDups_concat]
    cases hp : p a with
    | false => by_cases ha : a ∈ l <;> simp [hp, ha, ih]
    | true =>
      rw [List.filter_cons_of_pos hp, List.filter_nil, eraseDups_concat, ih]
      by_cases ha : a ∈ l <;> simp [hp, ha]

theorem eraseDups_append_eraseDups (l l' : List String) : (l.eraseDups ++ l'.eraseDups).eraseDups = (l ++ l').eraseDups := by
  have hfresh : l'.eraseDups.removeAll l.eraseDups = (l'.removeAll l).eraseDups := by
    unfold List.removeAll
    rw [eraseDups_filter]
    refine List.filter_congr fun a _ => ?_
    simp [List.mem_eraseDups]
  rw [List.eraseDups_append, List.eraseDups_append, hfresh, eraseDups_of_nodup (nodup_eraseDups l),
    eraseDups_of_nodup (nodup_eraseDups _)]

theorem eraseDups_eraseDups_append (l l' : List String) : (l.eraseDups ++ l').eraseDups = (l ++ l').eraseDups := by
  rw [← eraseDups_append_eraseDups l.eraseDups, eraseDups_of_nodup (nodup_eraseDups l), eraseDups_append_eraseDups]

theorem eraseDups_append_self (l : List String) : (l ++ l).eraseDups = l.eraseDups := by
  have hnone : l.removeAll l = [] := List.filter_eq_nil_iff.2 fun a ha => by simp [ha]
  rw [List.eraseDups_append, hnone, List.eraseDups_nil, List.append_nil]

namespace OrderedMap

variable {o : KeyOrder} {α : Type} {p : String → Bool}

/-! ## Keys that are put ahead of none -/

theorem keys_enter_of_free {key : String} (free : ∀ k, o.ahead key k = false) (value : α) (l : List (String × α)) :
    (enter o key value l).map (·.1) = if key ∈ l.map (·.1) then l.map (·.1) else l.map (·.1) ++ [key] := by
  induction l with
  | nil => rfl
  | cons e l ih =>
    by_cases hk : e.1 = key
    · simp [enter, hk]
    · have hstep : enter o key value (e :: l) = e :: enter o key value l := by simp [enter, hk, free]
      rw [hstep, List.map_cons, ih]
      by_cases hm : key ∈ l.map (·.1)
      · simp [hm]
      · simp [hm, Ne.symm hk]

/-- entering a key leaves the others where they are among themselves -/
theorem filter_keys_enter {key : String} (hp : p key = false) (value : α) (l : List (String × α)) :
    ((enter o key value l).map (·.1)).filter p = (l.map (·.1)).filter p := by
  induction l with
  | nil => simp [enter, hp]
  | cons e l ih =>
    unfold enter
    split
    · rename_i hk
      simp [hk, hp]
    split
    · simp [hp]
    · rw [List.map_cons, List.map_cons, List.filter_cons, List.filter_cons, ih]

section Free

variable (free : ∀ k, p k = true → ∀ k', o.ahead k k' = false)
include free

theorem filter_keys_insert (m : OrderedMap o α) (key : String) (value : α) :
    (m.insert key value).keys.filter p = ((m.keys ++ [key]).filter p).eraseDups := by
  have hm : (m.keys.filter p).eraseDups = m.keys.filter p := eraseDups_of_nodup (m.nodup_keys.filter p)
  cases hp : p key with
  | false =>
    have hkeys : (m.insert key value).keys.filter p = m.keys.filter p := filter_keys_enter hp value m.entries
    rw [hkeys, List.filter_append, List.filter_cons_of_neg (by simp [hp]), List.filter_nil, List.append_nil, hm]
  | true =>
    have hkeys : (m.insert key value).keys = if key ∈ m.keys then m.keys else m.keys ++ [key] :=
      keys_enter_of_free (free key hp) value m.entries
    rw [eraseDups_filter, eraseDups_concat, eraseDups_of_nodup m.nodup_keys, hkeys]

theorem filter_keys_foldl_insert (l : List (String × α)) (m : OrderedMap o α) :
    (l.foldl (fun m e => m.insert e.1 e.2) m).keys.filter p = ((m.keys ++ l.map (·.1)).filter p).eraseDups := by
  induction l generalizing m with
  | nil =>
    rw [List.foldl_nil, List.map_nil, List.append_nil, eraseDups_of_nodup (m.nodup_keys.filter p)]
  | cons e l ih =>
    rw [List.foldl_cons, ih, List.filter_append, filter_keys_insert free, eraseDups_eraseDups_append, ← List.filter_append,
      List.append_assoc, List.singleton_append, List.map_cons]

end Free

/-- in a table every key stays where it first came to stand -/
theorem keys_insert (m : Table α) (key : String) (value : α) : (m.insert key value).keys = (m.keys ++ [key]).eraseDups := by
  have h := filter_keys_insert (fun _ (_ : true = true) _ => rfl) m key value
  rwa [List.filter_true, List.filter_true] at h

end OrderedMap

/-! ## Array indices -/

/-- the decimal text of a number that is not too great -/
def IsIndex (key : String) : Prop := ∃ i ≤ 4294967294, key = Nat.repr i

theorem arrayIndex?_repr {i : ℕ} (hi : i ≤ 4294967294) : arrayIndex? (Nat.repr i) = some i := by
  have hlength : (Nat.toDigits 10 i).length ≤ 10 := Nat.toDigits_length 10 i 10 (by omega) (by omega)
  have hdigits : (Nat.toDigits 10 i).all Char.isDigit = true :=
    List.all_eq_true.2 fun _ hc => Nat.isDigit_of_mem_toDigits (by decide) (by decide) hc
  have hvalue : decimalValue (Nat.toDigits 10 i) = i := Nat.ofDigitChars_ten_toDigits
  simp [arrayIndex?, hlength, hdigits, hvalue, maxArrayIndex, hi]

/-- the array indices are the decimal texts of the numbers up to the greatest one -/
theorem arrayIndex?_eq_some_iff {key : String} {i : ℕ} : arrayIndex? key = some i ↔ key = Nat.repr i ∧ i ≤ 4294967294 := by
  constructor
  · intro h
    exact ⟨repr_of_arrayIndex? h, le_of_arrayIndex? h⟩
  · rintro ⟨rfl, hi⟩
    exact arrayIndex?_repr hi

/-! ## The keys of records -/

def ordinary (key : String) : Bool := (arrayIndex? key).isNone

/-- the number that an array index stands for -/
def indexNumber (key : String) : Nat := (arrayIndex? key).getD 0

/-- the array indices among some keys, in ascending order -/
def ascendingIndices (keys : List String) : List String :=
  (keys.filter fun key => !ordinary key).insertionSort fun a b => indexNumber a ≤ indexNumber b

/-- the keys of a record in which they occurred in this order: the array indices first, in ascending order, then the others in the
order of their first occurrence -/
def recordKeys (occurred : List String) : List String :=
  ascendingIndices occurred.eraseDups ++ occurred.eraseDups.filter ordinary

theorem ordinary_eq_true_iff {key : String} : ordinary key = true ↔ arrayIndex? key = none := by
  simp [ordinary]

theorem ordinary_eq_false_iff {key : String} : ordinary key = false ↔ ∃ i, arrayIndex? key = some i := by
  simp [ordinary, Option.isSome_iff_exists]

theorem ordinary_free (key : String) (h : ordinary key = true) (k : String) : KeyOrder.indexFirst.ahead key k = false := by
  simp [KeyOrder.indexFirst, indexAhead, ordinary_eq_true_iff.1 h]

theorem indexNumber_inj {a b : String} (ha : ordinary a = false) (hb : ordinary b = false)
    (h : indexNumber a = indexNumber b) : a = b := by
  obtain ⟨i, hi⟩ := ordinary_eq_false_iff.1 ha
  obtain ⟨j, hj⟩ := ordinary_eq_false_iff.1 hb
  obtain rfl : i = j := by simpa [indexNumber, hi, hj] using h
  rw [repr_of_arrayIndex? hi, repr_of_arrayIndex? hj]

/-- an index does not stand behind an ordinary key -/
theorem ordinary_of_not_ahead {a b : String} (h : indexAhead b a = false) (ha : ordinary a = true) : ordinary b = true := by
  by_contra hb
  obtain ⟨i, hi⟩ := ordinary_eq_false_iff.1 (by simpa using hb)
  simp [indexAhead, ordinary_eq_true_iff.1 ha, hi] at h

theorem indexNumber_le_of_not_ahead {a b : String} (ha : ordinary a = false) (hb : ordinary b = false)
    (h : indexAhead b a = false) : indexNumber a ≤ indexNumber b := by
  obtain ⟨i, hi⟩ := ordinary_eq_false_iff.1 ha
  obtain ⟨j, hj⟩ := ordinary_eq_false_iff.1 hb
  simpa [indexAhead, indexNumber, hi, hj] using h

theorem mem_ascendingIndices {keys : List String} {key : String} :
    key ∈ ascendingIndices keys ↔ key ∈ keys ∧ ordinary key = false := by
  rw [ascendingIndices, (List.perm_insertionSort _ _).mem_iff, List.mem_filter, Bool.not_eq_true']

theorem ascendingIndices_ascend (keys : List String) :
    (ascendingIndices keys).Pairwise fun a b => indexNumber a ≤ indexNumber b :=
  haveI : Std.Total fun a b : String => indexNumber a ≤ indexNumber b := ⟨fun _ _ => Nat.le_total _ _⟩
  haveI : IsTrans String fun a b => indexNumber a ≤ indexNumber b := ⟨fun _ _ _ => Nat.le_trans⟩
  List.pairwise_insertionSort _ _

theorem nodup_ascendingIndices {keys : List String} (h : keys.Nodup) : (ascendingIndices keys).Nodup :=
  (List.perm_insertionSort _ _).nodup_iff.2 (h.filter _)

/-- no two keys are one index, so only one ascending list holds given indices -/
theorem eq_ascendingIndices {l keys : List String} (hl : l.Pairwise fun a b => indexNumber a ≤ indexNumber b) (hd : l.Nodup)
    (hk : keys.Nodup) (hm : ∀ key, key ∈ l ↔ key ∈ keys ∧ ordinary key = false) : l = ascendingIndices keys := by
  have hperm : l.Perm (ascendingIndices keys) := by
    refine (List.perm_ext_iff_of_nodup hd (nodup_ascendingIndices hk)).2 fun key => ?_
    rw [hm, mem_ascendingIndices]
  refine hperm.eq_of_pairwise (fun a b ha hb hab hba => ?_) hl (ascendingIndices_ascend keys)
  exact indexNumber_inj ((hm a).1 ha).2 (mem_ascendingIndices.1 hb).2 (Nat.le_antisymm hab hba)

theorem mem_recordKeys {occurred : List String} {key : String} : key ∈ recordKeys occurred ↔ key ∈ occurred := by
  rw [recordKeys, List.mem_append, mem_ascendingIndices, List.mem_filter, List.mem_eraseDups]
  cases ordinary key <;> simp

theorem filter_recordKeys (occurred : List String) :
    (recordKeys occurred).filter ordinary = (occurred.filter ordinary).eraseDups := by
  have hnone : (ascendingIndices occurred.eraseDups).filter ordinary = [] :=
    List.filter_eq_nil_iff.2 fun key hk => by simp [(mem_ascendingIndices.1 hk).2]
  rw [recordKeys, List.filter_append, hnone, List.nil_append, List.filter_filter, eraseDups_filter]
  simp

theorem recordKeys_congr {l l' : List String} (hm : ∀ k, k ∈ l ↔ k ∈ l')
    (ho : (l.filter ordinary).eraseDups = (l'.filter ordinary).eraseDups) : recordKeys l = recordKeys l' := by
  have hindices : ascendingIndices l.eraseDups = ascendingIndices l'.eraseDups := by
    refine eq_ascendingIndices (ascendingIndices_ascend _) (nodup_ascendingIndices (nodup_eraseDups l)) (nodup_eraseDups l')
      fun key => ?_
    rw [mem_ascendingIndices, List.mem_eraseDups, List.mem_eraseDups, hm]
  rw [recordKeys, recordKeys, hindices, ← eraseDups_filter, ho, eraseDups_filter]

theorem recordKeys_append_recordKeys (l l' : List String) :
    recordKeys (recordKeys l ++ recordKeys l') = recordKeys (l ++ l') := by
  refine recordKeys_congr (fun k => ?_) ?_
  · rw [List.mem_append, List.mem_append, mem_recordKeys, mem_recordKeys]
  · rw [List.filter_append, List.filter_append, filter_recordKeys, filter_recordKeys, eraseDups_append_eraseDups]

theorem recordKeys_append_self (l : List String) : recordKeys (l ++ l) = recordKeys l := by
  refine recordKeys_congr (fun k => ?_) ?_
  · rw [List.mem_append, or_self_iff]
  · rw [List.filter_append, eraseDups_append_self]

/-- where the members of a list that pass a test stand behind all others -/
theorem filter_not_append_filter {p : String → Bool} {l : List String}
    (h : l.Pairwise fun a b => p a = true → p b = true) : (l.filter fun a => !p a) ++ l.filter p = l := by
  induction l with
  | nil => rfl
  | cons a l ih =>
    obtain ⟨ha, hl⟩ := List.pairwise_cons.1 h
    cases hp : p a with
    | false => simp [hp, ih hl]
    | true =>
      have hall : ∀ b ∈ l, p b = true := fun b hb => ha b hb hp
      have hnone : (l.filter fun b => !p b) = [] := List.filter_eq_nil_iff.2 fun b hb => by simp [hall b hb]
      simp [hp, hnone, List.filter_eq_self.2 hall]

namespace OrderedMap

variable {α : Type}

theorem keys_inOrder (m : Record α) : m.keys.Pairwise fun a b => indexAhead b a = false :=
  List.pairwise_map.2 (m.inOrder.imp fun h => h.2)

/-- a record has its keys where their own order puts them -/
theorem recordKeys_keys (m : Record α) : recordKeys m.keys = m.keys := by
  have hback : m.keys.Pairwise fun a b => ordinary a = true → ordinary b = true :=
    m.keys_inOrder.imp fun h => ordinary_of_not_ahead h
  have hascend : (m.keys.filter fun key => !ordinary key).Pairwise fun a b => indexNumber a ≤ indexNumber b := by
    refine List.pairwise_filter.2 (m.keys_inOrder.imp fun h ha hb => ?_)
    exact indexNumber_le_of_not_ahead (by simpa using ha) (by simpa using hb) h
  have hindices := eq_ascendingIndices hascend (m.nodup_keys.filter _) m.nodup_keys fun key => by
    rw [List.mem_filter, Bool.not_eq_true']
  rw [recordKeys, eraseDups_of_nodup m.nodup_keys, ← hindices, filter_not_append_filter hback]

end OrderedMap

namespace Sections

/-! ## Sections laid over each other -/

/-- the keys of the section of a name, none when no section has it -/
def keysOf (m : Sections) (name : String) : List String := (m.get? name).elim [] OrderedMap.keys

theorem mem_keysOf {m : Sections} {name key : String} : key ∈ m.keysOf name ↔ ∃ v, m.value? name key = some v := by
  unfold keysOf value?
  cases m.get? name with
  | none => simp
  | some p => simp [OrderedMap.mem_keys_iff, OrderedMap.contains_iff]

theorem nodup_keysOf (m : Sections) (n : String) : (m.keysOf n).Nodup := by
  unfold keysOf
  cases m.get? n with
  | none => exact List.nodup_nil
  | some p => exact p.nodup_keys

theorem recordKeys_keysOf (m : Sections) (n : String) : recordKeys (m.keysOf n) = m.keysOf n := by
  unfold keysOf
  cases m.get? n with
  | none => rfl
  | some p => exact p.recordKeys_keys

/-- names in order, keys in order and values: there is no more to see of sections -/
theorem ext_views {m m' : Sections} (hn : m.keys = m'.keys) (hk : ∀ n, m.keysOf n = m'.keysOf n)
    (hv : ∀ n key, m.value? n key = m'.value? n key) : m = m' := by
  refine OrderedMap.ext_get? hn fun n => ?_
  have hc : m.contains n = m'.contains n := by rw [Bool.eq_iff_iff, ← m.mem_keys_iff, ← m'.mem_keys_iff, hn]
  have hkn := hk n
  have hvn := hv n
  unfold OrderedMap.contains at hc
  unfold keysOf at hkn
  unfold value? at hvn
  cases hg : m.get? n with
  | none => cases hg' : m'.get? n <;> simp [hg, hg'] at hc ⊢
  | some p =>
    cases hg' : m'.get? n with
    | none => simp [hg, hg'] at hc
    | some p' =>
      rw [hg, hg'] at hkn hvn
      have hp : p = p' := OrderedMap.ext_get? hkn hvn
      rw [hp]

theorem keys_contribute (m : Sections) (name : String) (p : Properties) :
    (m.contribute name p).keys = (m.keys ++ [name]).eraseDups :=
  OrderedMap.keys_insert m name _

theorem keys_foldl_contribute (l : List (String × Properties)) (m : Sections) :
    (l.foldl (fun m e => m.contribute e.1 e.2) m).keys = (m.keys ++ l.map (·.1)).eraseDups := by
  induction l generalizing m with
  | nil => rw [List.foldl_nil, List.map_nil, List.append_nil, eraseDups_of_nodup m.nodup_keys]
  | cons e l ih =>
    rw [List.foldl_cons, ih, keys_contribute, eraseDups_eraseDups_append, List.append_assoc, List.singleton_append,
      List.map_cons]

theorem filter_keysOf_contribute (m : Sections) (name : String) (p : Properties) (n : String) :
    ((m.contribute name p).keysOf n).filter ordinary =
      ((m.keysOf n ++ if name = n then p.keys else []).filter ordinary).eraseDups := by
  unfold keysOf contribute
  rw [OrderedMap.get?_insert]
  by_cases hn : name = n
  · subst hn
    cases m.get? name with
    | none => simp [eraseDups_of_nodup (p.nodup_keys.filter _)]
    | some present =>
      rw [if_pos rfl, if_pos rfl]
      exact OrderedMap.filter_keys_foldl_insert ordinary_free p.entries present
  · cases m.get? n with
    | none => simp [hn, Ne.symm hn]
    | some present => simp [hn, Ne.symm hn, eraseDups_of_nodup (present.nodup_keys.filter _)]

theorem filter_keysOf_foldl_contribute (l : List (String × Properties)) (m : Sections) (n : String) :
    ((l.foldl (fun m e => m.contribute e.1 e.2) m).keysOf n).filter ordinary =
      ((m.keysOf n ++ l.flatMap fun e => if e.1 = n then e.2.keys else []).filter ordinary).eraseDups := by
  induction l generalizing m with
  | nil =>
    rw [List.foldl_nil, List.flatMap_nil, List.append_nil, eraseDups_of_nodup ((m.nodup_keysOf n).filter _)]
  | cons e l ih =>
    rw [List.foldl_cons, ih, List.filter_append, filter_keysOf_contribute, eraseDups_eraseDups_append,
      ← List.filter_append, List.append_assoc, List.flatMap_cons]

end Sections

end LayeredProfiles
