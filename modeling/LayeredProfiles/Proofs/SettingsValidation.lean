/-
What settings an environment gives, and what is told of one that gives none.

The validator is any that checks objects, options, words and texts as it should (`Validator.ChecksVariables`). What each variable
may hold (`LevelStands`, `PrettyStands`, `ServiceStands`) and the sentences about what it may not hold (`LevelFault`,
`PrettyFault`, `ServiceFault`) are said apart from it. A word for a truth value counts in any letter case of all of Unicode; only
ASCII letters have the letters of such words as their lower case (`lowerCase_eq_iff`).

Results:
- `Settings.judges_level`, `Settings.judges_pretty`, `Settings.service_cases`: what a variable gives, and what is told otherwise.
- `settings_validation`: settings when all three stand, otherwise all entries at once, in one order, as the text of the error.
- `two_entries_for_one_service`: an environment with one wrong variable and two entries.
-/
import LayeredProfiles.Proofs.IssueTexts
import LayeredProfiles.Proofs.StandardValidator
import LayeredProfiles.Settings

namespace LayeredProfiles

namespace Settings

open Issue (newline_notMem_append newline_notMem_typeWord)

variable {endsWord : List Char → List Char → Bool} {z : Validator} {v? : Option Json} {v : Json} {α : Type}

/-! ## What a variable may hold -/

/-- the log level: it is missing and stands for `info`, or it is the name of a level -/
def LevelStands (v? : Option Json) (l : LogLevel) : Prop := v? = none ∧ l = .info ∨ v? = some (.str l.word)

/-- whether lines are made pretty: it is missing and stands for no, or a text whose lower case is one of the words -/
def PrettyStands (endsWord : List Char → List Char → Bool) (v? : Option Json) (b : Bool) : Prop :=
  v? = none ∧ b = false ∨ ∃ w, v? = some (.str w) ∧ lowerCase endsWord w ∈ wordsFor b

/-- the name of the service: it is missing and stands for `strata`, or a text that is not empty -/
def ServiceStands (v? : Option Json) (s : String) : Prop := v? = none ∧ s = "strata" ∨ v? = some (.str s) ∧ s ≠ ""

/-! ## What is told otherwise -/

/-- the sentence about a value that is no log level -/
inductive LevelFault : Json → List String → Prop
  | option {v : Json} (wrong : ∀ l : LogLevel, v ≠ .str l.word) :
      LevelFault v ["Invalid option: expected one of \"trace\"|\"debug\"|\"info\"|\"warn\"|\"error\"|\"fatal\""]

/-- the sentence about a value that is no truth value -/
inductive PrettyFault (endsWord : List Char → List Char → Bool) : Json → List String → Prop
  | option {w : String} (wrong : ∀ b, lowerCase endsWord w ∉ wordsFor b) :
      PrettyFault endsWord (.str w) ["Invalid option: expected one of \"true\"|\"1\"|\"yes\"|\"on\"|\"y\"|\"enabled\"|" ++
        "\"false\"|\"0\"|\"no\"|\"off\"|\"n\"|\"disabled\""]
  | type {v : Json} (other : ∀ w, v ≠ .str w) :
      PrettyFault endsWord v ["Invalid input: expected string, received " ++ v.typeWord]

/-- the sentences about a value that is no name of a service: one, but two when it is no text and has a length too short -/
inductive ServiceFault : Json → List String → Prop
  | empty : ServiceFault (.str "") ["Too small: expected string to have >=1 characters"]
  | type {v : Json} (other : ∀ s, v ≠ .str s) (long : ∀ what, ¬ Short v what) :
      ServiceFault v ["Invalid input: expected string, received " ++ v.typeWord]
  | short {v : Json} {what : String} (other : ∀ s, v ≠ .str s) (short : Short v what) :
      ServiceFault v ["Invalid input: expected string, received " ++ v.typeWord, "Too small: expected " ++ what]

/-- the entries about a variable, each a sentence and the variable's name: none when its value stands, otherwise one for each
sentence -/
def Reported (variableName : String) (stands : Prop) (fault : Json → List String → Prop) (v? : Option Json)
    (entries : List (String × String)) : Prop :=
  stands ∧ entries = [] ∨
  ¬ stands ∧ ∃ v ∈ v?, ∃ messages, fault v messages ∧ entries = messages.map fun message => (message, variableName)

/-! ## What the validator gives -/

/-- a result for a variable: what stands there, or the sentences about it -/
structure Judges (c : Checked α) (stands : α → Prop) (fault : Json → List String → Prop) (v? : Option Json) : Prop where
  ok : ∀ a, c = .ok a ↔ stands a
  told : ∀ issues, c = .error issues → ∃ v ∈ v?, ∃ messages, fault v messages ∧ issues = messages.map fun m => ⟨[], m⟩

theorem judges_ok {a : α} {stands : α → Prop} {fault : Json → List String → Prop} (h : stands a) (honly : ∀ b, stands b → a = b) :
    Judges (.ok a) stands fault v? := by
  refine ⟨fun b => ?_, fun issues hissues => ?_⟩
  · rw [Except.ok.injEq]
    constructor
    · rintro rfl
      exact h
    · exact honly b
  · cases hissues

theorem judges_error {issues : List Issue} {messages : List String} {stands : α → Prop} {fault : Json → List String → Prop}
    (h : fault v messages) (hissues : issues = messages.map fun m => ⟨[], m⟩) (hnone : ∀ a, ¬ stands a) :
    Judges (.error issues) stands fault (some v) := by
  refine ⟨fun a => ?_, fun others hothers => ?_⟩
  · simp [hnone]
  · cases hothers
    exact ⟨v, rfl, messages, h, hissues⟩

def levelOptions : List (String × LogLevel) := LogLevel.all.map fun l => (l.word, l)

theorem judges_level (hz : z.ChecksVariables endsWord) (v? : Option Json) :
    ∃ c, z.check (.withDefault (.oneOf levelOptions) .info) v? = .ok c ∧ Judges c (LevelStands v?) LevelFault v? := by
  have hinj : ∀ l m : LogLevel, l.word = m.word → l = m := by
    intro l m
    cases l <;> cases m <;> decide
  cases v? with
  | none => exact ⟨_, hz.missing _ _, judges_ok (.inl ⟨rfl, rfl⟩) (by simp [LevelStands])⟩
  | some v =>
    rw [hz.present]
    by_cases hv : ∃ l : LogLevel, v = .str l.word
    · obtain ⟨l, rfl⟩ := hv
      have hmem : (l.word, l) ∈ levelOptions := by cases l <;> decide
      refine ⟨_, hz.option levelOptions _ (by decide) hmem, judges_ok (.inr rfl) fun m hm => ?_⟩
      rcases hm with ⟨h, -⟩ | h
      · cases h
      · exact hinj l m (Json.str.inj (Option.some.inj h))
    · have hother : ∀ l : LogLevel, v ≠ .str l.word := fun l hl => hv ⟨l, hl⟩
      have hoption : ∀ e ∈ levelOptions, v ≠ .str e.1 := List.forall_mem_map.2 fun l _ => hother l
      have hsentence : invalidOption (levelOptions.map (·.1)) =
          "Invalid option: expected one of \"trace\"|\"debug\"|\"info\"|\"warn\"|\"error\"|\"fatal\"" := by decide
      have hcheck := hz.noOption levelOptions v hoption
      rw [hsentence] at hcheck
      exact ⟨_, hcheck, judges_error (.option hother) rfl (by simp [LevelStands, hother])⟩

theorem wordsFor_inj {w : String} {b b' : Bool} (h : w ∈ wordsFor b) (h' : w ∈ wordsFor b') : b = b' := by
  have hdisjoint : ∀ word ∈ trueWords, word ∉ falseWords := by decide
  cases b <;> cases b'
  · rfl
  · exact absurd h (hdisjoint w h')
  · exact absurd h' (hdisjoint w h)
  · rfl

theorem judges_pretty (hz : z.ChecksVariables endsWord) (v? : Option Json) :
    ∃ c, z.check (.withDefault .boolWord false) v? = .ok c ∧ Judges c (PrettyStands endsWord v?) (PrettyFault endsWord) v? := by
  cases v? with
  | none => exact ⟨_, hz.missing _ _, judges_ok (.inl ⟨rfl, rfl⟩) (by simp [PrettyStands])⟩
  | some v =>
    rw [hz.present]
    by_cases hv : ∃ w, v = .str w
    · obtain ⟨w, rfl⟩ := hv
      by_cases hw : ∃ b, lowerCase endsWord w ∈ wordsFor b
      · obtain ⟨b, hb⟩ := hw
        refine ⟨_, hz.boolWord w b hb, judges_ok (.inr ⟨w, rfl, hb⟩) fun b' hb' => ?_⟩
        rcases hb' with ⟨h, -⟩ | ⟨w', h, hb'⟩ <;> cases h
        exact wordsFor_inj hb hb'
      · have hno : ∀ b, lowerCase endsWord w ∉ wordsFor b := fun b hb => hw ⟨b, hb⟩
        have hsentence : invalidOption (trueWords ++ falseWords) =
            "Invalid option: expected one of \"true\"|\"1\"|\"yes\"|\"on\"|\"y\"|\"enabled\"|" ++
              "\"false\"|\"0\"|\"no\"|\"off\"|\"n\"|\"disabled\"" := by decide
        have hcheck := hz.noBoolWord w hno
        rw [hsentence] at hcheck
        exact ⟨_, hcheck, judges_error (.option hno) rfl (by simp [PrettyStands, hno])⟩
    · have hother : ∀ w, v ≠ .str w := fun w hw => hv ⟨w, hw⟩
      exact ⟨_, hz.noWord v hother, judges_error (.type hother) rfl (by simp [PrettyStands, hother])⟩

/-- the name of the service: its length cannot be checked, or it is judged -/
theorem service_cases (hz : z.ChecksVariables endsWord) (v? : Option Json) :
    (∃ v ∈ v?, Unmeasured v) ∧ z.check (.withDefault .nonEmpty "strata") v? = .error .noText ∨
    (∀ v ∈ v?, ¬ Unmeasured v) ∧
      ∃ c, z.check (.withDefault .nonEmpty "strata") v? = .ok c ∧ Judges c (ServiceStands v?) ServiceFault v? := by
  cases v? with
  | none => exact .inr ⟨by simp, _, hz.missing _ _, judges_ok (.inl ⟨rfl, rfl⟩) (by simp [ServiceStands])⟩
  | some v =>
    simp only [Option.mem_some_iff, exists_eq_left', forall_eq', hz.present]
    by_cases hv : ∃ s, v = .str s
    · obtain ⟨s, rfl⟩ := hv
      refine .inr ⟨not_unmeasured_of_none rfl, ?_⟩
      by_cases hs : s = ""
      · subst hs
        exact ⟨_, hz.empty, judges_error .empty rfl (by simp [ServiceStands])⟩
      · refine ⟨_, hz.nonEmpty s hs, judges_ok (.inr ⟨rfl, hs⟩) fun s' hs' => ?_⟩
        rcases hs' with ⟨h, -⟩ | ⟨h, -⟩
        · cases h
        · exact Json.str.inj (Option.some.inj h)
    · have hother : ∀ s, v ≠ .str s := fun s hs => hv ⟨s, hs⟩
      have hstands : ∀ s, ¬ ServiceStands (some v) s := by simp [ServiceStands, hother]
      by_cases hunmeasured : Unmeasured v
      · exact .inl ⟨hunmeasured, hz.unmeasured v hother hunmeasured⟩
      · refine .inr ⟨hunmeasured, ?_⟩
        by_cases hshort : ∃ what, Short v what
        · obtain ⟨what, hshort⟩ := hshort
          exact ⟨_, hz.short v what hother hshort, judges_error (.short hother hshort) rfl hstands⟩
        · have hlong : ∀ what, ¬ Short v what := fun what h => hshort ⟨what, h⟩
          exact ⟨_, hz.long v hother hunmeasured hlong, judges_error (.type hother hlong) rfl hstands⟩

/-! ## The environment -/

variable {env : Record Json} {level : Checked LogLevel} {pretty : Checked Bool} {service : Checked String}

def together (level : Checked LogLevel) (pretty : Checked Bool) (service : Checked String) :
    Checked (LogLevel × Bool × String × Unit) :=
  .both (.under levelVariable level) (.both (.under prettyVariable pretty) (.both (.under serviceVariable service) (.ok ())))

theorem check_schema (hz : z.ChecksVariables endsWord) (env : Record Json) :
    z.check schema (some (.ofRecord env)) = do
      let level ← z.check (.withDefault (.oneOf levelOptions) .info) (env.get? levelVariable)
      let pretty ← z.check (.withDefault .boolWord false) (env.get? prettyVariable)
      let service ← z.check (.withDefault .nonEmpty "strata") (env.get? serviceVariable)
      return together level pretty service := by
  simp only [schema, hz.field, hz.noFields, levelOptions]
  cases z.check (.withDefault (.oneOf (LogLevel.all.map fun l => (l.word, l))) .info) (env.get? levelVariable) with
  | error t => rfl
  | ok level =>
    cases z.check (.withDefault .boolWord false) (env.get? prettyVariable) with
    | error t => rfl
    | ok pretty => cases z.check (.withDefault .nonEmpty "strata") (env.get? serviceVariable) <;> rfl

theorem check_schema_of_ok (hz : z.ChecksVariables endsWord)
    (hlevel : z.check (.withDefault (.oneOf levelOptions) .info) (env.get? levelVariable) = .ok level)
    (hpretty : z.check (.withDefault .boolWord false) (env.get? prettyVariable) = .ok pretty)
    (hservice : z.check (.withDefault .nonEmpty "strata") (env.get? serviceVariable) = .ok service) :
    z.check schema (some (.ofRecord env)) = .ok (together level pretty service) := by
  rw [check_schema hz, hlevel, hpretty, hservice]
  rfl

theorem issues_together (level : Checked LogLevel) (pretty : Checked Bool) (service : Checked String) :
    (together level pretty service).issues = level.issues.map (.under levelVariable) ++
      pretty.issues.map (.under prettyVariable) ++ service.issues.map (.under serviceVariable) := by
  simp only [together, Checked.issues_both, Checked.issues_under, List.append_assoc]
  simp [Checked.issues]

theorem together_eq_ok_iff {values : LogLevel × Bool × String × Unit} : together level pretty service = .ok values ↔
    level = .ok values.1 ∧ pretty = .ok values.2.1 ∧ service = .ok values.2.2.1 := by
  cases level <;> cases pretty <;> cases service <;> simp [together, Checked.under, Checked.both, Except.mapError, Prod.ext_iff]

theorem ofEnv_of_error (hz : z.ChecksVariables endsWord) {t : Thrown}
    (hservice : z.check (.withDefault .nonEmpty "strata") (env.get? serviceVariable) = .error t) : ofEnv z env = .error t := by
  obtain ⟨level, hlevel, -⟩ := judges_level hz (env.get? levelVariable)
  obtain ⟨pretty, hpretty, -⟩ := judges_pretty hz (env.get? prettyVariable)
  rw [ofEnv, check_schema hz, hlevel, hpretty, hservice]
  rfl

theorem ofEnv_eq_ok_iff (hcheck : z.check schema (some (.ofRecord env)) = .ok (together level pretty service))
    (settings : Settings) : ofEnv z env = .ok settings ↔
      level = .ok settings.level ∧ pretty = .ok settings.prettify ∧ service = .ok settings.service := by
  have htogether : together level pretty service = .ok (settings.level, settings.prettify, settings.service, ()) ↔ _ :=
    together_eq_ok_iff
  rw [← htogether, ofEnv, hcheck]
  cases together level pretty service with
  | error issues => simp [bind, Except.bind, throw, throwThe, MonadExceptOf.throw]
  | ok values =>
    obtain ⟨l, p, s, ⟨⟩⟩ := values
    obtain ⟨l', p', s'⟩ := settings
    simp [bind, Except.bind, pure, Except.pure, ofValues]

/-! ## The entries -/

/-- the entries about the result for a variable -/
def entriesOf (variableName : String) (c : Checked α) : List (String × String) := c.issues.map fun i => (i.message, variableName)

/-- the text of an entry: a sentence, and the variable it is about -/
def entryText (e : String × String) : String := "✖ " ++ e.1 ++ "\n  → at " ++ e.2

theorem Judges.reported {c : Checked α} {stands : α → Prop} {fault : Json → List String → Prop} (h : Judges c stands fault v?)
    (variableName : String) : Reported variableName (∃ a, stands a) fault v? (entriesOf variableName c) := by
  cases c with
  | ok a => exact .inl ⟨⟨a, (h.ok a).1 rfl⟩, rfl⟩
  | error issues =>
    obtain ⟨v, hv, messages, hfault, rfl⟩ := h.told issues rfl
    refine .inr ⟨?_, v, hv, messages, hfault, by simp [entriesOf, Checked.issues]⟩
    rintro ⟨a, ha⟩
    cases (h.ok a).2 ha

theorem Judges.path_eq_nil {c : Checked α} {stands : α → Prop} {fault : Json → List String → Prop} (h : Judges c stands fault v?)
    {i : Issue} (hi : i ∈ c.issues) : i.path = [] := by
  cases c with
  | ok a => cases hi
  | error issues =>
    obtain ⟨v, -, messages, -, rfl⟩ := h.told issues rfl
    obtain ⟨m, -, rfl⟩ := List.mem_map.1 hi
    rfl

/-- the issues under one variable are told as its entries -/
theorem map_entry_under {c : Checked α} {variableName : String} (hplain : variableName.toList.all Issue.isPlain = true)
    (hpath : ∀ i ∈ c.issues, i.path = []) :
    (c.issues.map (.under variableName)).map Issue.entry = (entriesOf variableName c).map entryText := by
  rw [entriesOf, List.map_map, List.map_map]
  apply List.map_congr_left
  intro i hi
  simp only [Function.comp_apply, Issue.entry, Issue.under, hpath i hi, Issue.pathText_singleton hplain, entryText,
    List.cons_ne_nil, if_false, String.append_assoc]

section Told

variable (hlevel : ∀ i ∈ level.issues, i.path = []) (hpretty : ∀ i ∈ pretty.issues, i.path = [])
  (hservice : ∀ i ∈ service.issues, i.path = [])
include hlevel hpretty hservice

theorem length_path_together : ∀ i ∈ (together level pretty service).issues, i.path.length = 1 := by
  intro i hi
  rw [issues_together, List.mem_append, List.mem_append] at hi
  rcases hi with (hi | hi) | hi <;> obtain ⟨j, hj, rfl⟩ := List.mem_map.1 hi
  · simp [Issue.under, hlevel j hj]
  · simp [Issue.under, hpretty j hj]
  · simp [Issue.under, hservice j hj]

/-- all issues are equally deep, so they are told in their order -/
theorem report_together : Issue.report (together level pretty service).issues = String.intercalate "\n"
    ((entriesOf levelVariable level ++ entriesOf prettyVariable pretty ++ entriesOf serviceVariable service).map entryText) := by
  have hlength := length_path_together hlevel hpretty hservice
  have hsorted : (together level pretty service).issues.mergeSort (fun i j => i.path.length ≤ j.path.length) =
      (together level pretty service).issues := by
    apply List.mergeSort_of_pairwise
    apply List.Pairwise.imp_of_mem (R := fun _ _ => True) _ (List.pairwise_of_forall fun _ _ => trivial)
    intro i j hi hj _
    rw [hlength i hi, hlength j hj]
    rfl
  rw [Issue.report, hsorted, issues_together, List.map_append, List.map_append, map_entry_under rfl hlevel,
    map_entry_under rfl hpretty, map_entry_under rfl hservice, ← List.map_append, ← List.map_append]

/-- when no settings come out, the entries about the three variables are told in one order -/
theorem ofEnv_eq_error (hz : z.ChecksVariables endsWord)
    (hcheck : z.check schema (some (.ofRecord env)) = .ok (together level pretty service))
    (hwrong : ∀ settings, ofEnv z env ≠ .ok settings) :
    ofEnv z env = .error (.invalid "settings" (String.intercalate "\n"
      ((entriesOf levelVariable level ++ entriesOf prettyVariable pretty ++ entriesOf serviceVariable service).map entryText))) := by
  have herror : together level pretty service = .error (together level pretty service).issues := by
    apply Checked.eq_error_of_ne_ok
    intro values hvalues
    apply hwrong (ofValues values)
    rw [ofEnv, hcheck, hvalues]
    rfl
  rw [ofEnv, hcheck, herror, ← report_together hlevel hpretty hservice, ← hz.prettify]
  rfl

end Told

/-! ## The text and its entries -/

theorem newline_notMem_notText (v : Json) : '\n' ∉ ("Invalid input: expected string, received " ++ v.typeWord).toList :=
  newline_notMem_append (by decide) (newline_notMem_typeWord v)

theorem Reported.newline_notMem {variableName : String} {stands : Prop} {fault : Json → List String → Prop}
    {entries : List (String × String)} (h : Reported variableName stands fault v? entries)
    (hname : '\n' ∉ variableName.toList) (hfault : ∀ v messages, fault v messages → ∀ m ∈ messages, '\n' ∉ m.toList) :
    ∀ e ∈ entries, '\n' ∉ e.1.toList ∧ '\n' ∉ e.2.toList := by
  rcases h with ⟨-, rfl⟩ | ⟨-, v, -, messages, hmessages, rfl⟩
  · exact fun e he => nomatch he
  · exact List.forall_mem_map.2 fun m hm => ⟨hfault v messages hmessages m hm, hname⟩

theorem newline_notMem_levelFault (v : Json) (messages : List String) (h : LevelFault v messages) :
    ∀ m ∈ messages, '\n' ∉ m.toList := by
  cases h with
  | option => exact List.forall_mem_singleton.2 (by decide)

theorem newline_notMem_prettyFault (v : Json) (messages : List String) (h : PrettyFault endsWord v messages) :
    ∀ m ∈ messages, '\n' ∉ m.toList := by
  cases h with
  | option => exact List.forall_mem_singleton.2 (newline_notMem_append (by decide) (by decide))
  | type => exact List.forall_mem_singleton.2 (newline_notMem_notText v)

theorem newline_notMem_serviceFault (v : Json) (messages : List String) (h : ServiceFault v messages) :
    ∀ m ∈ messages, '\n' ∉ m.toList := by
  cases h with
  | empty => exact List.forall_mem_singleton.2 (by decide)
  | type => exact List.forall_mem_singleton.2 (newline_notMem_notText v)
  | short _ short =>
    refine List.forall_mem_cons.2 ⟨newline_notMem_notText v, List.forall_mem_singleton.2 ?_⟩
    cases short with
    | array => exact newline_notMem_append (by decide) (by decide)
    | member => exact newline_notMem_append (by decide) (by decide)

/-- the text of some entries, each a sentence and a name on one line, tells what they are -/
theorem entries_eq_of_text {l r : List (String × String)} (hl : ∀ e ∈ l, '\n' ∉ e.1.toList ∧ '\n' ∉ e.2.toList)
    (hr : ∀ e ∈ r, '\n' ∉ e.1.toList ∧ '\n' ∉ e.2.toList)
    (h : String.intercalate "\n" (l.map entryText) = String.intercalate "\n" (r.map entryText)) : l = r := by
  have htext : ∀ l : List (String × String), l.map entryText = (l.map fun e => (e.1, some e.2)).map Issue.Told.text := by
    intro l
    rw [List.map_map]
    apply List.map_congr_left
    intro e _
    exact String.append_assoc
  have hlines : ∀ l : List (String × String), (∀ e ∈ l, '\n' ∉ e.1.toList ∧ '\n' ∉ e.2.toList) →
      ∀ t ∈ l.map fun e => (e.1, some e.2), Issue.Told.OnLines t := by
    intro l hl
    exact List.forall_mem_map.2 fun e he => ⟨(hl e he).1, by simpa using (hl e he).2⟩
  rw [htext, htext] at h
  have hinj : Function.Injective fun e : String × String => (e.1, some e.2) := by
    rintro ⟨a, b⟩ ⟨c, d⟩ heq
    cases heq
    rfl
  exact hinj.list_map (Issue.Told.entries_inj (hlines l hl) (hlines r hr) h)

end Settings

open Settings

/-- **Validation of settings.** Whatever the environment and whatever ends a word for a sigma: settings come out exactly when the
level is missing or the name of a level, the truth value is missing or a text whose lower case is one of the twelve words, and
the service is missing or a text that is not empty; they are what stands there, or the defaults. Otherwise, and unless the
service is no text and has a length without a text, all entries are told at once: for each variable that is wrong, and no
other, in the order level, pretty, service, one entry, with a second behind it when the service is no text and has a length that
is not at least one. The reason is the text of these entries and of no others. Only these three variables count. The texts whose
lower case is one of the words are their ASCII variants. -/
theorem settings_validation (endsWord : List Char → List Char → Bool) (z : Validator) (hz : z.ChecksVariables endsWord)
    (env : Record Json) :
    (∀ settings, ofEnv z env = .ok settings ↔
      LevelStands (env.get? "STRATA_LOG_LEVEL") settings.level ∧
      PrettyStands endsWord (env.get? "STRATA_LOG_PRETTY") settings.prettify ∧
      ServiceStands (env.get? "STRATA_SERVICE") settings.service) ∧
    ((∃ v ∈ env.get? "STRATA_SERVICE", Unmeasured v) → ofEnv z env = .error .noText) ∧
    ((∀ v ∈ env.get? "STRATA_SERVICE", ¬ Unmeasured v) → (∀ settings, ofEnv z env ≠ .ok settings) →
      ∃ level pretty service,
        Reported "STRATA_LOG_LEVEL" (∃ l, LevelStands (env.get? "STRATA_LOG_LEVEL") l) LevelFault
          (env.get? "STRATA_LOG_LEVEL") level ∧
        Reported "STRATA_LOG_PRETTY" (∃ b, PrettyStands endsWord (env.get? "STRATA_LOG_PRETTY") b) (PrettyFault endsWord)
          (env.get? "STRATA_LOG_PRETTY") pretty ∧
        Reported "STRATA_SERVICE" (∃ s, ServiceStands (env.get? "STRATA_SERVICE") s) ServiceFault
          (env.get? "STRATA_SERVICE") service ∧
        ofEnv z env = .error (.invalid "settings" (String.intercalate "\n"
          ((level ++ pretty ++ service).map fun e => "✖ " ++ e.1 ++ "\n  → at " ++ e.2))) ∧
        ∀ others : List (String × String), (∀ e ∈ others, '\n' ∉ e.1.toList ∧ '\n' ∉ e.2.toList) →
          ofEnv z env = .error (.invalid "settings" (String.intercalate "\n"
            (others.map fun e => "✖ " ++ e.1 ++ "\n  → at " ++ e.2))) →
          others = level ++ pretty ++ service) ∧
    (∀ other : Record Json,
      (∀ name ∈ ["STRATA_LOG_LEVEL", "STRATA_LOG_PRETTY", "STRATA_SERVICE"], other.get? name = env.get? name) →
        ofEnv z other = ofEnv z env) ∧
    ∀ w, (∃ b, lowerCase endsWord w ∈ wordsFor b) ↔ lowerAscii w ∈ trueWords ++ falseWords := by
  obtain ⟨level, hlevel, hjlevel⟩ := judges_level hz (env.get? levelVariable)
  obtain ⟨pretty, hpretty, hjpretty⟩ := judges_pretty hz (env.get? prettyVariable)
  refine ⟨fun settings => ?_, fun hunmeasured => ?_, fun hmeasured hwrong => ?_, fun other hsame => ?_, fun w => ?_⟩
  · rcases service_cases hz (env.get? serviceVariable) with
      ⟨⟨v, hv, length, has, -⟩, hservice⟩ | ⟨-, service, hservice, hjservice⟩
    · have hstands : ¬ ServiceStands (env.get? serviceVariable) settings.service := by
        rw [hv]
        rintro (⟨h, -⟩ | ⟨h, -⟩) <;> cases h
        cases has
      rw [ofEnv_of_error hz hservice]
      exact ⟨(nomatch ·), fun h => absurd h.2.2 hstands⟩
    · rw [ofEnv_eq_ok_iff (check_schema_of_ok hz hlevel hpretty hservice), hjlevel.ok, hjpretty.ok, hjservice.ok]
      rfl
  · rcases service_cases hz (env.get? serviceVariable) with ⟨-, hservice⟩ | ⟨hmeasured, -⟩
    · exact ofEnv_of_error hz hservice
    · obtain ⟨v, hv, h⟩ := hunmeasured
      exact absurd h (hmeasured v hv)
  · rcases service_cases hz (env.get? serviceVariable) with ⟨⟨v, hv, h⟩, -⟩ | ⟨-, service, hservice, hjservice⟩
    · exact absurd h (hmeasured v hv)
    · have hrlevel := hjlevel.reported levelVariable
      have hrpretty := hjpretty.reported prettyVariable
      have hrservice := hjservice.reported serviceVariable
      have htext := ofEnv_eq_error (fun _ => hjlevel.path_eq_nil) (fun _ => hjpretty.path_eq_nil)
        (fun _ => hjservice.path_eq_nil) hz (check_schema_of_ok hz hlevel hpretty hservice) hwrong
      refine ⟨_, _, _, hrlevel, hrpretty, hrservice, htext, fun others hothers hother => ?_⟩
      apply entries_eq_of_text hothers
      · intro e he
        rcases List.mem_append.1 he with he | he
        · rcases List.mem_append.1 he with he | he
          · exact hrlevel.newline_notMem (by decide) newline_notMem_levelFault e he
          · exact hrpretty.newline_notMem (by decide) newline_notMem_prettyFault e he
        · exact hrservice.newline_notMem (by decide) newline_notMem_serviceFault e he
      · obtain ⟨-, hreason, -⟩ := Thrown.invalidInput.inj (Except.error.inj (hother.symm.trans htext))
        exact hreason
  · simp only [List.forall_mem_cons] at hsame
    obtain ⟨hsameLevel, hsamePretty, hsameService, -⟩ := hsame
    have hcheck : z.check schema (some (.ofRecord other)) = z.check schema (some (.ofRecord env)) := by
      rw [check_schema hz, check_schema hz]
      simp only [levelVariable, prettyVariable, serviceVariable, hsameLevel, hsamePretty, hsameService]
    unfold ofEnv
    rw [hcheck]
  · rw [exists_congr fun _ => Validator.lowerCase_mem_words_iff, Bool.exists_bool, List.mem_append]
    exact or_comm

/-- an environment in which all three values are wrong; they stand in another order than their entries -/
def wrongThrice : Record Json :=
  .ofList [("STRATA_SERVICE", .str ""), ("STRATA_LOG_PRETTY", .num .zero), ("STRATA_LOG_LEVEL", .str "INFO")]

theorem settings_of_environments :
    ofEnv .standard (.ofList [("STRATA_LOG_PRETTY", .str "YeS"), ("LANG", .null)]) = .ok ⟨.info, true, "strata"⟩ ∧
    ofEnv .standard wrongThrice = .error (.invalid "settings" (String.intercalate "\n" [
      "✖ Invalid option: expected one of \"trace\"|\"debug\"|\"info\"|\"warn\"|\"error\"|\"fatal\"\n  → at STRATA_LOG_LEVEL",
      "✖ Invalid input: expected string, received number\n  → at STRATA_LOG_PRETTY",
      "✖ Too small: expected string to have >=1 characters\n  → at STRATA_SERVICE"])) := by
  have hvalidation := settings_validation (fun _ _ => true) .standard (Validator.checksVariables_standard _)
  constructor
  · apply ((hvalidation _).1 _).2
    refine ⟨.inl ⟨rfl, rfl⟩, .inr ⟨"YeS", rfl, ?_⟩, .inl ⟨rfl, rfl⟩⟩
    exact Validator.lowerCase_mem_words_iff.2 (by decide)
  · obtain ⟨hok, -, htold, -⟩ := hvalidation wrongThrice
    have hlevel : ∀ l, ¬ LevelStands (wrongThrice.get? "STRATA_LOG_LEVEL") l := by
      rintro l (⟨h, -⟩ | h)
      · cases h
      · exact absurd (Json.str.inj (Option.some.inj h)) (by cases l <;> decide)
    have hpretty : ∀ b, ¬ PrettyStands (fun _ _ => true) (wrongThrice.get? "STRATA_LOG_PRETTY") b := by
      rintro b (⟨h, -⟩ | ⟨w, h, -⟩) <;> cases h
    have hservice : ∀ s, ¬ ServiceStands (wrongThrice.get? "STRATA_SERVICE") s := by
      rintro s (⟨h, -⟩ | ⟨h, hs⟩) <;> cases h
      exact hs rfl
    have hmeasured : ∀ v ∈ wrongThrice.get? "STRATA_SERVICE", ¬ Unmeasured v := by
      rintro v ⟨⟩
      exact not_unmeasured_of_none rfl
    obtain ⟨level, pretty, service, hl, hp, hs, htext, -⟩ := htold hmeasured fun settings h => hlevel _ ((hok settings).1 h).1
    obtain ⟨⟨l, h⟩, -⟩ | ⟨-, v, ⟨⟩, messages, ⟨⟩, rfl⟩ := hl
    · exact absurd h (hlevel l)
    obtain ⟨⟨b, h⟩, -⟩ | ⟨-, v, ⟨⟩, messages, ⟨⟩, rfl⟩ := hp
    · exact absurd h (hpretty b)
    obtain ⟨⟨s, h⟩, -⟩ | ⟨-, v, ⟨⟩, messages, hfault, rfl⟩ := hs
    · exact absurd h (hservice s)
    cases hfault with
    | empty =>
      rw [htext]
      rfl
    | type other => exact absurd rfl (other "")
    | short other => exact absurd rfl (other "")

/-! ## Two entries about one variable -/

/-- an environment in which the service is an empty array -/
def arrayService : Record Json := .ofList [("STRATA_SERVICE", .arr [])]

def arrayEntries : List (String × String) :=
  [("Invalid input: expected string, received array", "STRATA_SERVICE"),
    ("Too small: expected array to have >=1 items", "STRATA_SERVICE")]

/-- the one wrong variable has two entries, and no entry of one sentence on a line tells the same -/
theorem two_entries_for_one_service :
    (∃ l, LevelStands (arrayService.get? "STRATA_LOG_LEVEL") l) ∧
    (∃ b, PrettyStands (fun _ _ => true) (arrayService.get? "STRATA_LOG_PRETTY") b) ∧
    ofEnv .standard arrayService =
      .error (.invalid "settings" (String.intercalate "\n" (arrayEntries.map fun e => "✖ " ++ e.1 ++ "\n  → at " ++ e.2))) ∧
    ¬ ∃ message : String, '\n' ∉ message.toList ∧
      ofEnv .standard arrayService = .error (.invalid "settings" ("✖ " ++ message ++ "\n  → at STRATA_SERVICE")) := by
  have hcheck : Validator.standard.check schema (some (.ofRecord arrayService)) =
      .ok (.error (arrayEntries.map fun e => ⟨[e.2], e.1⟩)) := rfl
  have hreport : Issue.report (arrayEntries.map fun e => ⟨[e.2], e.1⟩) = String.intercalate "\n" (arrayEntries.map entryText) := by
    rw [Issue.report, List.mergeSort_of_pairwise (by decide)]
    rfl
  have htwo : ofEnv .standard arrayService = .error (.invalid "settings" (String.intercalate "\n" (arrayEntries.map entryText))) := by
    rw [ofEnv, hcheck, ← hreport]
    rfl
  refine ⟨⟨.info, .inl ⟨rfl, rfl⟩⟩, ⟨false, .inl ⟨rfl, rfl⟩⟩, htwo, ?_⟩
  rintro ⟨message, hline, hone⟩
  obtain ⟨-, hreason, -⟩ := Thrown.invalidInput.inj (Except.error.inj (htwo.symm.trans hone))
  have hlines : ∀ e ∈ arrayEntries, '\n' ∉ e.1.toList ∧ '\n' ∉ e.2.toList := by decide
  have hsingle : ∀ e ∈ [(message, "STRATA_SERVICE")], '\n' ∉ e.1.toList ∧ '\n' ∉ e.2.toList :=
    List.forall_mem_singleton.2 ⟨hline, (hlines _ List.mem_cons_self).2⟩
  have honeText : String.intercalate "\n" ([(message, "STRATA_SERVICE")].map entryText) =
      "✖ " ++ message ++ "\n  → at STRATA_SERVICE" := String.append_assoc
  cases entries_eq_of_text hlines hsingle (hreason.trans honeText.symm)

end LayeredProfiles
