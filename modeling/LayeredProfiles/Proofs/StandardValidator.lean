/-
The validator of the library does what is relied on.

Results: `Validator.checksRecords_standard`, `Validator.checksVariables_standard`. In the second, letter case is that of all of
Unicode, while the validator looks at ASCII letters alone (`lowerCase_eq_iff`).
-/
import LayeredProfiles.Proofs.DocumentChecks
import LayeredProfiles.Proofs.LetterCase
import LayeredProfiles.Schema.Standard

namespace LayeredProfiles

variable {v : Json} {what : String}

/-! ## Lengths -/

theorem not_unmeasured_of_none (h : v.member? "length" = none) : ¬ Unmeasured v := by
  rintro ⟨length, has, -⟩
  rw [h] at has
  cases has

theorem not_short_of_none (h : v.member? "length" = none) (hv : v ≠ .arr []) : ¬ Short v what := by
  intro hshort
  cases hshort with
  | array => exact hv rfl
  | member has =>
    rw [h] at has
    cases has

theorem not_unmeasured_of_count {length : Json} {n? : Option Number} (h : v.member? "length" = some length)
    (hcount : length.count? = some n?) : ¬ Unmeasured v := by
  rintro ⟨other, has, hnone⟩
  obtain rfl := Option.some.inj (h.symm.trans has)
  cases hcount.symm.trans hnone

theorem not_short_of_count {length : Json} {n? : Option Number} (h : v.member? "length" = some length)
    (hcount : length.count? = some n?) (hleast : n?.any Number.atLeastOne = true) : ¬ Short v what := by
  intro hshort
  cases hshort with
  | array => cases h
  | member has counts less =>
    obtain rfl := Option.some.inj (h.symm.trans has)
    obtain rfl := Option.some.inj (hcount.symm.trans counts)
    cases hleast.symm.trans less

theorem Short.unique {first second : String} (h : Short v first) (h' : Short v second) : first = second := by
  cases h with
  | array =>
    cases h' with
    | array => rfl
    | member has => cases has
  | member has =>
    cases h' with
    | array => cases has
    | member => rfl

theorem Short.not_unmeasured (h : Short v what) : ¬ Unmeasured v := by
  cases h with
  | array => exact not_unmeasured_of_none rfl
  | member has counts => exact not_unmeasured_of_count has counts

namespace Validator

variable {α : Type} {endsWord : List Char → List Char → Bool} {w : String} {b : Bool}

/-! ## Records -/

theorem mapM_eq_ok {ε β γ : Type} {l : List β} {f : β → Except ε γ} {g : β → γ} (h : ∀ e ∈ l, f e = .ok (g e)) :
    l.mapM f = .ok (l.map g) := by
  induction l with
  | nil => rfl
  | cons e l ih =>
    obtain ⟨he, hl⟩ := List.forall_mem_cons.1 h
    rw [List.mapM_cons, he, ih hl]
    rfl

/-- no member is left out when none has the name that is -/
theorem filter_of_all {l : List (String × Checked α)} {r : List (String × α)} {name : String} (h : name ∉ l.map (·.1))
    (hr : Checked.all l = .ok r) : r.filter (·.1 ≠ name) = r := by
  rw [Checked.all_eq_ok_iff.1 hr, List.map_map] at h
  rw [List.filter_eq_self]
  intro e he
  exact decide_eq_true fun hname => h (List.mem_map.2 ⟨e, he, hname⟩)

theorem reports_standard : standard.Reports := ⟨fun _ => rfl⟩

theorem check_record_standard (schema : Schema α) (members : List (String × Json)) {checked : Json → Checked α}
    (hkey : "__proto__" ∉ members.map (·.1)) (hmembers : ∀ e ∈ members, Standard.check schema (some e.2) = .ok (checked e.2)) :
    Standard.check (.record schema) (some (.obj members)) =
      .ok ((Checked.all (members.map fun e => (e.1, checked e.2))).map .ofList) := by
  have hmapM : (members.mapM fun e => return (e.1, ← Standard.check schema (some e.2)) : Except Thrown _) =
      .ok (members.map fun e => (e.1, checked e.2)) := by
    apply mapM_eq_ok
    intro e he
    rw [hmembers e he]
    rfl
  have hkeys : "__proto__" ∉ (members.map fun e => (e.1, checked e.2)).map (·.1) := by
    rwa [List.map_map]
  rw [Standard.check, hmapM]
  apply congrArg Except.ok
  cases hall : Checked.all (members.map fun e => (e.1, checked e.2)) with
  | error issues => rfl
  | ok r => exact congrArg (fun r => Except.ok (OrderedMap.ofList r)) (filter_of_all hkeys hall)

theorem checksRecords_standard : standard.ChecksRecords where
  toReports := reports_standard
  string _ := rfl
  noString v hv := by
    cases v with
    | str s => exact absurd rfl (hv s)
    | null | bool | num | arr | obj => rfl
  record schema members _ hkey hmembers := check_record_standard schema members.entries hkey hmembers
  noRecord schema v hv := by
    cases v with
    | obj members => exact absurd rfl (hv members)
    | null | bool | num | str | arr => rfl

/-! ## Words -/

theorem isWordLetter_of_word (h : w ∈ wordsFor b) : ∀ d ∈ w.toList, IsWordLetter d := by
  have hall : ∀ b, ∀ w ∈ wordsFor b, (w.toList.all fun d => decide (IsWordLetter d)) = true := by decide
  intro d hd
  exact of_decide_eq_true (List.all_eq_true.1 (hall b w h) d hd)

/-- the texts whose lower case is one of the words are the ASCII variants of the words -/
theorem lowerCase_mem_words_iff : lowerCase endsWord w ∈ wordsFor b ↔ lowerAscii w ∈ wordsFor b := by
  constructor
  · intro h
    rwa [(lowerCase_eq_iff endsWord (isWordLetter_of_word h)).1 rfl]
  · intro h
    rwa [(lowerCase_eq_iff endsWord (isWordLetter_of_word h)).2 rfl]

theorem boolOfWord?_eq_some_iff : Standard.boolOfWord? w = some b ↔ lowerCase endsWord w ∈ wordsFor b := by
  have hdisjoint : ∀ word ∈ trueWords, word ∉ falseWords := by decide
  rw [lowerCase_mem_words_iff]
  unfold Standard.boolOfWord?
  by_cases ht : lowerAscii w ∈ trueWords
  · cases b <;> simp [wordsFor, ht, hdisjoint _ ht]
  · by_cases hf : lowerAscii w ∈ falseWords <;> cases b <;> simp [wordsFor, ht, hf]

theorem boolOfWord?_eq_none_iff : Standard.boolOfWord? w = none ↔ ∀ b, lowerCase endsWord w ∉ wordsFor b := by
  rw [Option.eq_none_iff_forall_ne_some]
  exact forall_congr' fun b => not_congr boolOfWord?_eq_some_iff

/-! ## Options -/

theorem find?_option {options : List (String × α)} {e : String × α} (hnodup : (options.map (·.1)).Nodup) (he : e ∈ options) :
    options.find? (·.1 == e.1) = some e := by
  induction options with
  | nil => cases he
  | cons d options ih =>
    obtain ⟨hd, hnodup⟩ := List.nodup_cons.1 hnodup
    rcases List.mem_cons.1 he with rfl | he
    · simp
    · have hne : d.1 ≠ e.1 := fun heq => hd (List.mem_map.2 ⟨e, he, heq.symm⟩)
      rw [List.find?_cons_of_neg (by simpa using hne), ih hnodup he]

theorem find?_noOption {options : List (String × α)} (hv : ∀ e ∈ options, v ≠ .str e.1) :
    (v.string?.bind fun w => options.find? (·.1 == w)) = none := by
  cases v with
  | str w =>
    rw [Json.string?, Option.bind_some, List.find?_eq_none]
    intro e he heq
    exact hv e he (congrArg Json.str (beq_iff_eq.1 heq).symm)
  | null | bool | num | arr | obj => rfl

/-! ## Texts that are not empty -/

/-- the length of what is no text: it cannot be checked, or it is too short, or it is not -/
theorem lengthFaults_cases (hv : ∀ s, v ≠ .str s) :
    Unmeasured v ∧ Standard.lengthFaults v = .error .noText ∨
    ¬ Unmeasured v ∧ ((∃ what, Short v what ∧ Standard.lengthFaults v = .ok [Standard.tooShort what]) ∨
      (∀ what, ¬ Short v what) ∧ Standard.lengthFaults v = .ok []) := by
  cases v with
  | str s => exact absurd rfl (hv s)
  | null | bool | num =>
    exact .inr ⟨not_unmeasured_of_none rfl, .inr ⟨fun _ => not_short_of_none rfl (by simp), rfl⟩⟩
  | arr items =>
    refine .inr ⟨not_unmeasured_of_none rfl, ?_⟩
    cases items with
    | nil => exact .inl ⟨_, .array, rfl⟩
    | cons item items => exact .inr ⟨fun _ => not_short_of_none rfl (by simp), rfl⟩
  | obj members =>
    rw [Standard.lengthFaults]
    cases hlength : (Json.obj members).member? "length" with
    | none =>
      exact .inr ⟨not_unmeasured_of_none hlength, .inr ⟨fun _ => not_short_of_none hlength (by simp), rfl⟩⟩
    | some length =>
      cases hcount : length.count? with
      | none => exact .inl ⟨⟨length, hlength, hcount⟩, by simp only [hcount]⟩
      | some n? =>
        refine .inr ⟨not_unmeasured_of_count hlength hcount, ?_⟩
        simp only [hcount]
        cases hleast : n?.any Number.atLeastOne with
        | false => exact .inl ⟨_, .member hlength hcount hleast, rfl⟩
        | true => exact .inr ⟨fun _ => not_short_of_count hlength hcount hleast, rfl⟩
    all_goals simp

theorem checkNonEmpty_other (hv : ∀ s, v ≠ .str s) :
    Standard.checkNonEmpty (some v) =
      (Standard.lengthFaults v).map fun faults => Standard.wrong (Standard.notType "string" (some v) :: faults) := by
  cases v with
  | str s => exact absurd rfl (hv s)
  | null | bool | num | arr | obj => rfl

theorem checksVariables_standard (endsWord : List Char → List Char → Bool) : standard.ChecksVariables endsWord where
  toReports := reports_standard
  noFields _ := rfl
  field _ _ _ _ := rfl
  missing _ _ := rfl
  present _ _ _ := rfl
  option options e hnodup he := by
    have hfind : (((some (Json.str e.1)).bind Json.string?).bind fun w => options.find? (·.1 == w)) = some e := find?_option hnodup he
    have hcheck : Standard.checkOption options (some (.str e.1)) = .ok e.2 := by
      rw [Standard.checkOption, hfind]
    exact congrArg Except.ok hcheck
  noOption options v hv := by
    have hfind : (((some v).bind Json.string?).bind fun w => options.find? (·.1 == w)) = none := find?_noOption hv
    have hcheck : Standard.checkOption options (some v) = .error [⟨[], invalidOption (options.map (·.1))⟩] := by
      rw [Standard.checkOption, hfind]
      rfl
    exact congrArg Except.ok hcheck
  boolWord w b h := by
    have hcheck : Standard.checkBoolWord (some (.str w)) = .ok b := by
      simp only [Standard.checkBoolWord, boolOfWord?_eq_some_iff.2 h]
    exact congrArg Except.ok hcheck
  noBoolWord w h := by
    have hcheck : Standard.checkBoolWord (some (.str w)) = .error [⟨[], invalidOption (trueWords ++ falseWords)⟩] := by
      simp only [Standard.checkBoolWord, boolOfWord?_eq_none_iff.2 h]
      rfl
    exact congrArg Except.ok hcheck
  noWord v hv := by
    cases v with
    | str s => exact absurd rfl (hv s)
    | null | bool | num | arr | obj => rfl
  nonEmpty s hs := by
    have hcheck : Standard.checkNonEmpty (some (.str s)) = .ok (.ok s) := by
      simp [Standard.checkNonEmpty, Standard.lengthFaults, hs, Except.map]
    exact hcheck
  empty := rfl
  long v hv hmeasured hlong := by
    have hcheck := checkNonEmpty_other hv
    rcases lengthFaults_cases hv with ⟨hunmeasured, -⟩ | ⟨-, ⟨what, hshort, -⟩ | ⟨-, hlength⟩⟩
    · exact absurd hunmeasured hmeasured
    · exact absurd hshort (hlong what)
    · rw [hlength] at hcheck
      exact hcheck
  short v what hv hshort := by
    have hcheck := checkNonEmpty_other hv
    rcases lengthFaults_cases hv with ⟨hunmeasured, -⟩ | ⟨-, ⟨other, hother, hlength⟩ | ⟨hlong, -⟩⟩
    · exact absurd hunmeasured hshort.not_unmeasured
    · rw [hlength, hother.unique hshort] at hcheck
      exact hcheck
    · exact absurd hshort (hlong what)
  unmeasured v hv hunmeasured := by
    have hcheck := checkNonEmpty_other hv
    rcases lengthFaults_cases hv with ⟨-, hlength⟩ | ⟨hmeasured, -⟩
    · rw [hlength] at hcheck
      exact hcheck
    · exact absurd hunmeasured hmeasured

end Validator

end LayeredProfiles
