/-
Spelled names: which profile name each of them stands for, if any.

A configuration writes a profile's name behind the mark, with any blanks around it, and the default name also plainly
(`SourceKind.Writes`). A credentials source writes the name itself, which does not begin with the mark. `SourceKind.Spells` says this
for both dialects, without trimming anything. Since trimming takes all blanks off the two ends and nothing else (`trim_eq_iff`),
reading a spelled name gives exactly the name that it spells.

Results:
- `isBlank_iff`: which characters are blank.
- `trim_eq_iff`: what is left of a text has no blank at its ends, and blanks alone were taken away.
- `profileName?_eq_some_iff`: a dialect reads a spelled name as the profile name that it spells there.
- `spells_in_both_iff`, `spells_in_neither_iff`: the names that fit both dialects, and those that fit none.
-/
import Mathlib.Tactic
import Mathlib.Data.List.DropRight
import LayeredProfiles.Dialect

namespace LayeredProfiles

/-! ## Trimming -/

/-- five control characters, the space separators, the line and paragraph separators and the byte order mark -/
def blankCodePoints : List Nat :=
  [0x09, 0x0a, 0x0b, 0x0c, 0x0d, 0x20, 0xa0, 0x1680, 0x2000, 0x2001, 0x2002, 0x2003, 0x2004, 0x2005, 0x2006, 0x2007, 0x2008, 0x2009,
    0x200a, 0x2028, 0x2029, 0x202f, 0x205f, 0x3000, 0xfeff]

theorem isBlank_iff {c : Char} : isBlank c = true ↔ c.toNat ∈ blankCodePoints := by
  simp only [isBlank, blankCodePoints, Bool.or_eq_true, Bool.and_eq_true, decide_eq_true_eq, beq_iff_eq, List.mem_cons,
    List.not_mem_nil, or_false]
  omega

/-- nothing but blanks -/
def Blank (cs : List Char) : Prop := ∀ c ∈ cs, isBlank c = true

/-- no blank at either end -/
structure Bare (cs : List Char) : Prop where
  head : ∀ c ∈ cs.head?, isBlank c = false
  last : ∀ c ∈ cs.getLast?, isBlank c = false

instance (cs : List Char) : Decidable (Blank cs) := List.decidableBAll _ cs

-- the test is spelled out: a search for instances may try all characters instead
instance (cs : List Char) : Decidable (Bare cs) :=
  decidable_of_iff ((cs.head?.all fun c => isBlank c = false) = true ∧ (cs.getLast?.all fun c => isBlank c = false) = true) <| by
    simp only [Option.all_eq_true, decide_eq_true_eq]
    exact ⟨fun h => ⟨h.1, h.2⟩, fun h => ⟨h.head, h.last⟩⟩

theorem Blank.append {lead trail : List Char} (hl : Blank lead) (ht : Blank trail) : Blank (lead ++ trail) :=
  fun c hc => (List.mem_append.1 hc).elim (hl c) (ht c)

theorem dropWhile_blank_append {lead rest : List Char} (hl : Blank lead) (hr : ∀ c ∈ rest.head?, isBlank c = false) :
    (lead ++ rest).dropWhile isBlank = rest := by
  rw [List.dropWhile_append_of_pos hl]
  cases rest with
  | nil => rfl
  | cons c rest => rw [List.dropWhile_cons_of_neg (by simp [hr c rfl])]

theorem trimEnd_append_blank {core trail : List Char} (hc : ∀ c ∈ core.getLast?, isBlank c = false) (ht : Blank trail) :
    trimEnd (core ++ trail) = core := by
  have hback : Blank trail.reverse := fun c hm => ht c (List.mem_reverse.1 hm)
  rw [trimEnd, List.reverse_append, dropWhile_blank_append hback (by rwa [List.head?_reverse]), List.reverse_reverse]

/-- blanks around a text are taken off -/
theorem trim_append {lead core trail : List Char} (hl : Blank lead) (hc : Bare core) (ht : Blank trail) :
    trim (lead ++ core ++ trail) = core := by
  cases core with
  | nil =>
    have hall : (lead ++ trail).dropWhile isBlank = [] := List.dropWhile_eq_nil_iff.2 (hl.append ht)
    rw [trim, List.append_nil, hall]
    rfl
  | cons c core =>
    have hfront : (lead ++ (c :: core ++ trail)).dropWhile isBlank = c :: core ++ trail :=
      dropWhile_blank_append hl hc.head
    rw [trim, List.append_assoc, hfront, trimEnd_append_blank hc.last ht]

theorem head?_of_prefix {core rest : List Char} (h : core <+: rest) {c : Char} (hc : c ∈ core.head?) : c ∈ rest.head? := by
  obtain ⟨tail, rfl⟩ := h
  rw [List.head?_append, Option.mem_def.1 hc]
  rfl

theorem bare_trim (cs : List Char) : Bare (trim cs) where
  head c hc := by
    have hrest := List.head?_dropWhile_not isBlank cs
    have hc' : c ∈ (cs.dropWhile isBlank).head? := head?_of_prefix (List.rdropWhile_prefix isBlank _) hc
    rw [Option.mem_def.1 hc'] at hrest
    exact hrest
  last c hc := by
    have hne : trim cs ≠ [] := by
      intro h
      simp [h] at hc
    have hlast := List.rdropWhile_last_not isBlank (cs.dropWhile isBlank) hne
    rw [Option.mem_def, List.getLast?_eq_some_getLast hne] at hc
    rw [← Option.some.inj hc]
    exact Bool.eq_false_of_not_eq_true hlast

/-- what trimming leaves: a text that has no blank at its ends, and that is the given one but for blanks around it -/
theorem trim_eq_iff {cs core : List Char} :
    trim cs = core ↔ Bare core ∧ ∃ lead trail, Blank lead ∧ Blank trail ∧ cs = lead ++ core ++ trail := by
  constructor
  · rintro rfl
    refine ⟨bare_trim cs, cs.takeWhile isBlank, (cs.dropWhile isBlank).rtakeWhile isBlank, ?_, ?_, ?_⟩
    · exact fun c hc => List.mem_takeWhile_imp hc
    · exact fun c hc => List.mem_rtakeWhile_imp hc
    · have hend : trim cs ++ (cs.dropWhile isBlank).rtakeWhile isBlank = cs.dropWhile isBlank :=
        List.rdropWhile_append_rtakeWhile
      rw [List.append_assoc, hend, List.takeWhile_append_dropWhile]
  · rintro ⟨hc, lead, trail, hl, ht, rfl⟩
    exact trim_append hl hc ht

theorem trim_eq_nil_iff {cs : List Char} : trim cs = [] ↔ Blank cs := by
  rw [trim_eq_iff]
  constructor
  · rintro ⟨-, lead, trail, hl, ht, rfl⟩
    rw [List.append_nil]
    exact hl.append ht
  · intro h
    exact ⟨by decide, cs, [], h, by decide, by simp⟩

namespace SourceKind

/-! ## Spelling -/

/-- it begins with the mark -/
def Marked (spelled : String) : Prop := ∃ rest, spelled = mark ++ rest

/-- a name that a configuration can give a profile: it is not empty and has no blank at either end -/
def IsName (name : String) : Prop := name ≠ "" ∧ Bare name.toList

/-- the ways in which a configuration writes a name -/
inductive Writes : String → String → Prop where
  /-- behind the mark, with any blanks around it -/
  | marked {lead name trail : String} (before : Blank lead.toList) (after : Blank trail.toList) :
      Writes name (mark ++ lead ++ name ++ trail)
  /-- the default name also as it is -/
  | plain : Writes defaultName defaultName

/-- the profile name that a spelled name stands for -/
inductive Spells : SourceKind → String → String → Prop where
  | configuration {spelled name : String} (named : IsName name) (written : Writes name spelled) :
      Spells .configuration spelled name
  | credentials {name : String} (unmarked : ¬ Marked name) : Spells .credentials name name

theorem marked_iff {spelled : String} : Marked spelled ↔ mark.toList <+: spelled.toList := by
  constructor
  · rintro ⟨rest, rfl⟩
    rw [String.toList_append]
    exact List.prefix_append _ _
  · rintro ⟨rest, h⟩
    refine ⟨.ofList rest, String.toList_inj.1 ?_⟩
    rw [String.toList_append, String.toList_ofList, h]

instance (spelled : String) : Decidable (Marked spelled) := decidable_of_iff' _ marked_iff

instance (name : String) : Decidable (IsName name) :=
  inferInstanceAs (Decidable (name ≠ "" ∧ Bare name.toList))

/-! ## Reading -/

theorem isPrefixOf?_mark (rest : String) : mark.toList.isPrefixOf? (mark ++ rest).toList = some rest.toList := by
  rw [List.isPrefixOf?_eq_some_iff_append_eq, String.toList_append]

theorem isPrefixOf?_of_unmarked {spelled : String} (h : ¬ Marked spelled) :
    mark.toList.isPrefixOf? spelled.toList = none := by
  cases hp : mark.toList.isPrefixOf? spelled.toList with
  | none => rfl
  | some rest => exact absurd (marked_iff.2 ⟨rest, List.append_eq_of_isPrefixOf?_eq_some hp⟩) h

theorem profileName?_credentials_eq_some_iff {spelled name : String} :
    credentials.profileName? spelled = some name ↔ spelled = name ∧ ¬ Marked spelled := by
  unfold profileName?
  by_cases h : Marked spelled
  · obtain ⟨rest, rfl⟩ := h
    rw [isPrefixOf?_mark]
    exact ⟨nofun, fun hn => absurd ⟨rest, rfl⟩ hn.2⟩
  · rw [isPrefixOf?_of_unmarked h]
    exact ⟨fun hn => ⟨Option.some.inj hn, h⟩, fun hn => congrArg some hn.1⟩

theorem profileName?_marked (rest : String) :
    configuration.profileName? (mark ++ rest) =
      if (trim rest.toList).isEmpty then none else some (String.ofList (trim rest.toList)) := by
  simp only [profileName?, isPrefixOf?_mark]

theorem profileName?_marked_eq_none_iff {rest : String} :
    configuration.profileName? (mark ++ rest) = none ↔ Blank rest.toList := by
  rw [profileName?_marked, ← trim_eq_nil_iff, ← List.isEmpty_iff]
  split <;> simp [*]

theorem profileName?_marked_eq_some_iff {rest name : String} :
    configuration.profileName? (mark ++ rest) = some name ↔ IsName name ∧ trim rest.toList = name.toList := by
  rw [profileName?_marked]
  constructor
  · intro h
    split at h
    · cases h
    · rename_i hne
      obtain rfl := Option.some.inj h
      rw [IsName, String.toList_ofList]
      refine ⟨⟨fun he => hne ?_, bare_trim _⟩, rfl⟩
      simpa using congrArg String.toList he
  · rintro ⟨⟨hne, -⟩, ht⟩
    rw [ht, if_neg (by simpa using hne), String.ofList_toList]

theorem profileName?_unmarked_eq_some_iff {spelled name : String} (h : ¬ Marked spelled) :
    configuration.profileName? spelled = some name ↔ spelled = defaultName ∧ name = defaultName := by
  simp only [profileName?, isPrefixOf?_of_unmarked h]
  split
  · rename_i hd
    simp [hd, eq_comm]
  · rename_i hd
    simp [hd]

theorem not_marked_default : ¬ Marked defaultName := by decide

theorem isName_default : IsName defaultName := by decide

/-- **Reading names.** A dialect reads a spelled name as the profile name that it spells, and refuses what spells none. -/
theorem profileName?_eq_some_iff {kind : SourceKind} {spelled name : String} :
    kind.profileName? spelled = some name ↔ kind.Spells spelled name := by
  cases kind with
  | configuration =>
    constructor
    · intro h
      by_cases hm : Marked spelled
      · obtain ⟨rest, rfl⟩ := hm
        obtain ⟨hname, ht⟩ := profileName?_marked_eq_some_iff.1 h
        obtain ⟨-, lead, trail, hl, htr, hrest⟩ := trim_eq_iff.1 ht
        have hwritten : mark ++ rest = mark ++ .ofList lead ++ name ++ .ofList trail := by
          apply String.toList_inj.1
          simp only [String.toList_append, String.toList_ofList, hrest, List.append_assoc]
        rw [hwritten]
        exact .configuration hname (.marked (by rwa [String.toList_ofList]) (by rwa [String.toList_ofList]))
      · obtain ⟨rfl, rfl⟩ := (profileName?_unmarked_eq_some_iff hm).1 h
        exact .configuration isName_default .plain
    · rintro ⟨hname, hw⟩
      cases hw with
      | @marked lead _ trail hl ht =>
        rw [String.append_assoc, String.append_assoc, profileName?_marked_eq_some_iff]
        refine ⟨hname, ?_⟩
        rw [String.toList_append, String.toList_append, ← List.append_assoc]
        exact trim_append hl hname.2 ht
      | plain => exact (profileName?_unmarked_eq_some_iff not_marked_default).2 ⟨rfl, rfl⟩
  | credentials =>
    rw [profileName?_credentials_eq_some_iff]
    constructor
    · rintro ⟨rfl, hm⟩
      exact .credentials hm
    · rintro ⟨_⟩
      exact ⟨rfl, ‹_›⟩

theorem profileName?_eq_none_iff {kind : SourceKind} {spelled : String} :
    kind.profileName? spelled = none ↔ ∀ name, ¬ kind.Spells spelled name := by
  simp only [Option.eq_none_iff_forall_ne_some, ne_eq, profileName?_eq_some_iff]

theorem Spells.unique {kind : SourceKind} {spelled a b : String} (ha : kind.Spells spelled a) (hb : kind.Spells spelled b) :
    a = b := by
  rw [← profileName?_eq_some_iff] at ha hb
  exact Option.some.inj (ha.symm.trans hb)

/-! ## The two dialects beside each other -/

theorem spells_credentials_iff {spelled : String} : (∃ name, credentials.Spells spelled name) ↔ ¬ Marked spelled :=
  ⟨fun ⟨_, h⟩ => by cases h; assumption, fun h => ⟨spelled, .credentials h⟩⟩

theorem spells_in_both_iff {spelled : String} :
    ((∃ name, configuration.Spells spelled name) ∧ ∃ name, credentials.Spells spelled name) ↔ spelled = defaultName := by
  rw [spells_credentials_iff]
  constructor
  · rintro ⟨⟨name, h⟩, hm⟩
    exact ((profileName?_unmarked_eq_some_iff hm).1 (profileName?_eq_some_iff.2 h)).1
  · rintro rfl
    exact ⟨⟨defaultName, .configuration isName_default .plain⟩, not_marked_default⟩

theorem spells_in_neither_iff {spelled : String} :
    ((∀ name, ¬ configuration.Spells spelled name) ∧ ∀ name, ¬ credentials.Spells spelled name) ↔
      ∃ rest : String, Blank rest.toList ∧ spelled = mark ++ rest := by
  rw [← profileName?_eq_none_iff, ← not_exists (p := credentials.Spells spelled), spells_credentials_iff, not_not]
  constructor
  · rintro ⟨hnone, rest, rfl⟩
    exact ⟨rest, profileName?_marked_eq_none_iff.1 hnone, rfl⟩
  · rintro ⟨rest, hb, rfl⟩
    exact ⟨profileName?_marked_eq_none_iff.2 hb, rest, rfl⟩

end SourceKind

end LayeredProfiles
