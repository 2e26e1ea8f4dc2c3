/-
The texts of JSON values, as a grammar, and the reader against it.

`Json.Written` derives the stretches of a text: a value, a value with blanks around it, the items of an array, the members of an
object (`Json.Phrase`). It says nothing of how a text is read. The reader is a machine with a stack of open arrays and objects;
`Reader.Demands` is what the text ahead must still be for the machine to end with a value.

Results:
- `Reader.accepts`: what the grammar derives, the machine reads, from every stack.
- `Reader.demands_of_step`: what a state demands of the text behind a character, the state before demands of the whole.
- `Json.readChars?_eq_some_iff`: the machine reads exactly the texts of the grammar.
-/
import LayeredProfiles.Proofs.Decimals
import LayeredProfiles.Proofs.StringLiterals

namespace LayeredProfiles

namespace Json

/-! ## The grammar -/

/-- blanks between the parts of a text -/
def Blanks (cs : List Char) : Prop := ∀ c ∈ cs, Reader.isSpace c = true

/-- what a stretch of a text can be, with the value that it stands for -/
inductive Phrase where
  | value (v : Json)
  /-- a value with blanks around it -/
  | padded (v : Json)
  /-- one item or more, with commas between them -/
  | items (l : List Json)
  | member (key : String) (v : Json)
  /-- one member or more, with commas between them -/
  | members (l : List (String × Json))

/-- the grammar of JSON; of members with one key the last decides, in the place of the first -/
inductive Written : Phrase → List Char → Prop
  | null : Written (.value .null) "null".toList
  | true_ : Written (.value (.bool true)) "true".toList
  | false_ : Written (.value (.bool false)) "false".toList
  | number {d : Decimal} (wellFormed : d.WellFormed) : Written (.value (.num d.value)) d.text
  | string {s : String} {literal : List Char} (quoted : Quoted s literal) : Written (.value (.str s)) literal
  | emptyArray {b : List Char} (blanks : Blanks b) : Written (.value (.arr [])) ('[' :: (b ++ [']']))
  | array {l : List Json} {cs : List Char} (inside : Written (.items l) cs) : Written (.value (.arr l)) ('[' :: (cs ++ [']']))
  | emptyObject {b : List Char} (blanks : Blanks b) : Written (.value (.obj [])) ('{' :: (b ++ ['}']))
  | object {l : List (String × Json)} {cs : List Char} (inside : Written (.members l) cs) :
      Written (.value (.ofMembers l)) ('{' :: (cs ++ ['}']))
  | padded {v : Json} {before cs after : List Char} (ahead : Blanks before) (inside : Written (.value v) cs)
      (behind : Blanks after) : Written (.padded v) (before ++ (cs ++ after))
  | item {v : Json} {cs : List Char} (only : Written (.padded v) cs) : Written (.items [v]) cs
  | moreItems {v : Json} {l : List Json} {cs ds : List Char} (first : Written (.padded v) cs) (others : Written (.items l) ds) :
      Written (.items (v :: l)) (cs ++ ',' :: ds)
  | member {key : String} {v : Json} {before literal after cs : List Char} (ahead : Blanks before)
      (quoted : Quoted key literal) (behind : Blanks after) (inside : Written (.padded v) cs) :
      Written (.member key v) (before ++ (literal ++ (after ++ ':' :: cs)))
  | oneMember {key : String} {v : Json} {cs : List Char} (only : Written (.member key v) cs) : Written (.members [(key, v)]) cs
  | moreMembers {key : String} {v : Json} {l : List (String × Json)} {cs ds : List Char} (first : Written (.member key v) cs)
      (others : Written (.members l) ds) : Written (.members ((key, v) :: l)) (cs ++ ',' :: ds)

theorem blanks_nil : Blanks [] := fun _ h => nomatch h

theorem Blanks.cons {c : Char} {cs : List Char} (hc : Reader.isSpace c = true) (h : Blanks cs) : Blanks (c :: cs) :=
  List.forall_mem_cons.2 ⟨hc, h⟩

end Json

namespace Reader

open Json (Phrase Written Blanks Quoted blanks_nil)

variable {s t : State} {c : Char} {cs ds rest b : List Char} {v w : Json} {frames : List Frame} {p : Phrase}

/-! ## Runs -/

theorem run_append (s : State) (cs ds : List Char) : run s (cs ++ ds) = (run s cs).bind fun t => run t ds := by
  induction cs generalizing s with
  | nil => rfl
  | cons c cs ih =>
    simp only [List.cons_append, run]
    cases step s c with
    | none => rfl
    | some t => exact ih t

theorem run_cons (h : step s c = some t) (cs : List Char) : run s (c :: cs) = run t cs := by simp [run, h]

theorem run_append_of_some (h : run s cs = some t) (ds : List Char) : run s (cs ++ ds) = run t ds := by
  rw [run_append, h]
  rfl

/-- blanks do not matter where a value, a key or a colon must follow -/
theorem run_blanks (hs : ∀ c, isSpace c = true → step s c = some s) (hb : Blanks b) : run s b = some s := by
  induction b with
  | nil => rfl
  | cons c b ih =>
    rw [run_cons (hs c (hb c List.mem_cons_self))]
    exact ih fun d hd => hb d (List.mem_cons_of_mem c hd)

theorem run_string {u u' : Text} (h : u.feed? cs = some u') (frames : List Frame) :
    run ⟨.string u, frames⟩ cs = some ⟨.string u', frames⟩ := by
  induction cs generalizing u with
  | nil => simpa [Text.feed?, run] using h
  | cons c cs ih =>
    simp only [Text.feed?] at h
    split at h
    · rename_i u'' hstep
      have hc : step ⟨.string u, frames⟩ c = some ⟨.string u'', frames⟩ := by simp [step, hstep]
      rw [run_cons hc, ih h]
    · cases h

theorem run_keyString {u u' : Text} (h : u.feed? cs = some u') (members : Record Json) (frames : List Frame) :
    run ⟨.keyString members u, frames⟩ cs = some ⟨.keyString members u', frames⟩ := by
  induction cs generalizing u with
  | nil => simpa [Text.feed?, run] using h
  | cons c cs ih =>
    simp only [Text.feed?] at h
    split at h
    · rename_i u'' hstep
      have hc : step ⟨.keyString members u, frames⟩ c = some ⟨.keyString members u'', frames⟩ := by simp [step, hstep]
      rw [run_cons hc, ih h]
    · cases h

/-! ## Words -/

theorem ne_of_isWordChar {d : Char} (hd : isWordChar d = false) (hc : isWordChar c = true) : c ≠ d := by
  rintro rfl
  simp [hd] at hc

theorem isSpace_of_isWordChar (hc : isWordChar c = true) : isSpace c = false := by
  have hne : ∀ d, isWordChar d = false → c ≠ d := fun d hd => ne_of_isWordChar hd hc
  simp [isSpace, hne ' ' rfl, hne '\t' rfl, hne '\n' rfl, hne '\r' rfl]

/-- a word begins -/
theorem step_value_of_isWordChar (hc : isWordChar c = true) (mayEnd : Bool) (frames : List Frame) :
    step ⟨.value mayEnd, frames⟩ c = some ⟨.word [c], frames⟩ := by
  have hne : ∀ d, isWordChar d = false → c ≠ d := fun d hd => ne_of_isWordChar hd hc
  simp [step, isSpace_of_isWordChar hc, hne '"' rfl, hne '[' rfl, hne '{' rfl, hc]

theorem run_word (h : ∀ c ∈ cs, isWordChar c = true) (chars : List Char) (frames : List Frame) :
    run ⟨.word chars, frames⟩ cs = some ⟨.word (cs.reverse ++ chars), frames⟩ := by
  induction cs generalizing chars with
  | nil => rfl
  | cons c cs ih =>
    obtain ⟨hc, h⟩ := List.forall_mem_cons.1 h
    have hstep : step ⟨.word chars, frames⟩ c = some ⟨.word (c :: chars), frames⟩ := by simp [step, hc]
    rw [run_cons hstep, ih h]
    simp

/-- the characters of a number are those of words -/
theorem isWordChar_of_digit (hc : c.isDigit = true) : isWordChar c = true := by
  simp [isWordChar, Char.isAlphanum, hc]

theorem isWordChar_of_mem_text {d : Decimal} (h : d.WellFormed) (hc : c ∈ d.text) : isWordChar c = true := by
  simp only [Decimal.text, List.mem_append] at hc
  rcases hc with hc | hc | hc | hc
  · cases hneg : d.negative <;> simp [hneg] at hc
    subst hc
    rfl
  · exact isWordChar_of_digit (h.whole.2 c hc)
  · cases hf : d.fraction? with
    | none => simp [Decimal.fractionText, hf] at hc
    | some digits =>
      simp only [Decimal.fractionText, hf, Option.map_some, Option.getD_some, List.mem_cons] at hc
      rcases hc with rfl | hc
      · rfl
      · exact isWordChar_of_digit ((h.fraction digits hf).2 c hc)
  · cases he : d.exponent? with
    | none => simp [Decimal.exponentText, he] at hc
    | some e =>
      have hwell := h.exponent e he
      simp only [Decimal.exponentText, he, Option.map_some, Option.getD_some, Exponent.text, List.mem_cons,
        List.mem_append, Option.mem_toList] at hc
      rcases hc with rfl | hc | hc
      · rcases hwell.letter with hl | hl <;> rw [hl] <;> rfl
      · rcases hwell.sign c hc with rfl | rfl <;> rfl
      · exact isWordChar_of_digit (hwell.digits.2 c hc)

/-- a number begins with a minus sign or a digit -/
theorem exists_head_text {d : Decimal} (h : d.WellFormed) : ∃ c rest, d.text = c :: rest ∧ (c = '-' ∨ c.isDigit = true) := by
  obtain ⟨c, whole, hw⟩ := List.exists_cons_of_ne_nil h.whole.1
  cases hneg : d.negative with
  | true => exact ⟨'-', d.whole ++ (d.fractionText ++ d.exponentText), by simp [Decimal.text, hneg], .inl rfl⟩
  | false =>
    exact ⟨c, whole ++ (d.fractionText ++ d.exponentText), by simp [Decimal.text, hneg, hw], .inr (h.whole.2 c (by simp [hw]))⟩

theorem ofWord?_text {d : Decimal} (h : d.WellFormed) : ofWord? d.text = some (.num d.value) := by
  obtain ⟨c, rest, htext, hc⟩ := exists_head_text h
  have hne : ∀ letter word, letter ≠ '-' → letter.isDigit = false → d.text ≠ letter :: word := by
    rintro letter word hsign hdigit heq
    obtain rfl : c = letter := (List.cons.inj (htext.symm.trans heq)).1
    rcases hc with hc | hc
    · exact hsign hc
    · simp [hdigit] at hc
  have hread : Number.read? d.text = some d.value := Number.read?_eq_some_iff.2 ⟨d, h, rfl, rfl⟩
  have hnull : d.text ≠ "null".toList := hne 'n' _ (by decide) rfl
  have htrue : d.text ≠ "true".toList := hne 't' _ (by decide) rfl
  have hfalse : d.text ≠ "false".toList := hne 'f' _ (by decide) rfl
  rw [ofWord?, if_neg hnull, if_neg htrue, if_neg hfalse, hread]
  rfl

/-- every word that stands for a value is a text of that value -/
theorem written_of_word (h : ofWord? cs = some v) : Written (.value v) cs := by
  unfold ofWord? at h
  split at h
  · rename_i hcs
    cases h
    exact hcs ▸ .null
  split at h
  · rename_i hcs
    cases h
    exact hcs ▸ .true_
  split at h
  · rename_i hcs
    cases h
    exact hcs ▸ .false_
  · obtain ⟨n, hn, rfl⟩ := Option.map_eq_some_iff.1 h
    obtain ⟨d, hd, rfl, rfl⟩ := Number.read?_eq_some_iff.1 hn
    exact .number hd

/-! ## From the grammar to the reader -/

/-- a state that has read a value to its end -/
inductive Holds (v : Json) (frames : List Frame) : State → Prop
  | after : Holds v frames ⟨.after v, frames⟩
  /-- a word ends only with what follows it -/
  | word {chars : List Char} (read : ofWord? chars.reverse = some v) : Holds v frames ⟨.word chars, frames⟩

theorem Holds.step_eq (h : Holds v frames s) (hc : isWordChar c = false) : step s c = stepAfter v frames c := by
  cases h with
  | after => rfl
  | word hr => simp [step, hc, hr]

theorem isWordChar_of_isSpace (hc : isSpace c = true) : isWordChar c = false := by
  cases hw : isWordChar c with
  | false => rfl
  | true => simp [isSpace_of_isWordChar hw] at hc

theorem Holds.blanks (h : Holds v frames s) (hb : Blanks b) : ∃ t, run s b = some t ∧ Holds v frames t := by
  cases b with
  | nil => exact ⟨s, rfl, h⟩
  | cons c b =>
    have hc := hb c List.mem_cons_self
    have hstep : step s c = some ⟨.after v, frames⟩ := by
      rw [h.step_eq (isWordChar_of_isSpace hc)]
      simp [stepAfter, hc]
    have hrest : run ⟨.after v, frames⟩ b = some ⟨.after v, frames⟩ :=
      run_blanks (fun d hd => by simp [step, stepAfter, hd]) fun d hd => hb d (List.mem_cons_of_mem c hd)
    exact ⟨_, (run_cons hstep b).trans hrest, .after⟩

theorem Holds.finish_eq (h : Holds v [] s) : finish s = some v := by
  cases h with
  | after => rfl
  | word hr => exact hr

theorem Holds.step_comma_array {items : List Json} (h : Holds v (.array items :: frames) s) :
    step s ',' = some ⟨.value false, .array (v :: items) :: frames⟩ := h.step_eq rfl

theorem Holds.step_close_array {items : List Json} (h : Holds v (.array items :: frames) s) :
    step s ']' = some ⟨.after (.arr (v :: items).reverse), frames⟩ := h.step_eq rfl

theorem Holds.step_comma_object {members : Record Json} {key : String} (h : Holds v (.object members key :: frames) s) :
    step s ',' = some ⟨.key (members.insert key v) false, frames⟩ := h.step_eq rfl

theorem Holds.step_close_object {members : Record Json} {key : String} (h : Holds v (.object members key :: frames) s) :
    step s '}' = some ⟨.after (.ofRecord (members.insert key v)), frames⟩ := h.step_eq rfl

/-- a word is read as the value that it stands for -/
theorem exists_holds_of_word (h : ∀ c ∈ cs, isWordChar c = true) (hv : ofWord? cs = some v) (mayEnd : Bool)
    (frames : List Frame) : ∃ s, run ⟨.value mayEnd, frames⟩ cs = some s ∧ Holds v frames s := by
  cases cs with
  | nil => cases hv
  | cons c cs =>
    obtain ⟨hc, hcs⟩ := List.forall_mem_cons.1 h
    refine ⟨_, (run_cons (step_value_of_isWordChar hc mayEnd frames) cs).trans (run_word hcs [c] frames), .word ?_⟩
    simpa using hv

theorem run_quoted_value {text : String} (h : Quoted text cs) (mayEnd : Bool) (frames : List Frame) :
    run ⟨.value mayEnd, frames⟩ cs = some ⟨.after (.str text), frames⟩ := by
  obtain ⟨pieces, content, hc, rfl, rfl⟩ := h
  have hopen : step ⟨.value mayEnd, frames⟩ '"' = some ⟨.string .start, frames⟩ := rfl
  have hread := run_string (Text.feed?_content (t := .start) rfl hc) frames
  have hclose : step ⟨.string (pieces.foldl Text.take .start), frames⟩ '"' =
      some ⟨.after (.str (String.ofList (pieces.map Json.Piece.value))), frames⟩ := by
    simp [step, Text.step_closing_quote]
  rw [List.cons_append, run_cons hopen, run_append_of_some hread, run_cons hclose]
  rfl

theorem run_quoted_key {key : String} (h : Quoted key cs) (members : Record Json) (mayEnd : Bool) (frames : List Frame) :
    run ⟨.key members mayEnd, frames⟩ cs = some ⟨.colon members key, frames⟩ := by
  obtain ⟨pieces, content, hc, rfl, rfl⟩ := h
  have hopen : step ⟨.key members mayEnd, frames⟩ '"' = some ⟨.keyString members .start, frames⟩ := rfl
  have hread := run_keyString (Text.feed?_content (t := .start) rfl hc) members frames
  have hclose : step ⟨.keyString members (pieces.foldl Text.take .start), frames⟩ '"' =
      some ⟨.colon members (String.ofList (pieces.map Json.Piece.value)), frames⟩ := by
    simp [step, Text.step_closing_quote]
  rw [List.cons_append, run_cons hopen, run_append_of_some hread, run_cons hclose]
  rfl

/-- what the reader makes of a stretch, whatever is open around it -/
def Accepts : Phrase → List Char → Prop
  | .value v, cs => ∀ mayEnd frames, ∃ s, run ⟨.value mayEnd, frames⟩ cs = some s ∧ Holds v frames s
  | .padded v, cs => ∀ mayEnd frames, ∃ s, run ⟨.value mayEnd, frames⟩ cs = some s ∧ Holds v frames s
  | .items l, cs => ∀ mayEnd items frames,
      run ⟨.value mayEnd, .array items :: frames⟩ (cs ++ [']']) = some ⟨.after (.arr (items.reverse ++ l)), frames⟩
  | .member key v, cs => ∀ members mayEnd frames,
      ∃ s, run ⟨.key members mayEnd, frames⟩ cs = some s ∧ Holds v (.object members key :: frames) s
  | .members l, cs => ∀ members mayEnd frames,
      run ⟨.key members mayEnd, frames⟩ (cs ++ ['}']) =
        some ⟨.after (.ofRecord (l.foldl (fun m e => m.insert e.1 e.2) members)), frames⟩

/-- what the grammar derives, the reader reads -/
theorem accepts (h : Written p cs) : Accepts p cs := by
  induction h with
  | null => exact exists_holds_of_word (List.all_eq_true.1 rfl) rfl
  | true_ => exact exists_holds_of_word (List.all_eq_true.1 rfl) rfl
  | false_ => exact exists_holds_of_word (List.all_eq_true.1 rfl) rfl
  | number hd => exact exists_holds_of_word (fun c hc => isWordChar_of_mem_text hd hc) (ofWord?_text hd)
  | string hq =>
    intro mayEnd frames
    exact ⟨_, run_quoted_value hq mayEnd frames, .after⟩
  | @emptyArray b hb =>
    intro mayEnd frames
    have hopen : step ⟨.value mayEnd, frames⟩ '[' = some ⟨.value true, .array [] :: frames⟩ := rfl
    have hblanks : run ⟨.value true, .array [] :: frames⟩ b = some ⟨.value true, .array [] :: frames⟩ :=
      run_blanks (fun c hc => by simp [step, hc]) hb
    refine ⟨⟨.after (.arr []), frames⟩, ?_, .after⟩
    rw [run_cons hopen, run_append_of_some hblanks]
    rfl
  | array _ ih =>
    intro mayEnd frames
    have hopen : step ⟨.value mayEnd, frames⟩ '[' = some ⟨.value true, .array [] :: frames⟩ := rfl
    exact ⟨_, (run_cons hopen _).trans (ih true [] frames), .after⟩
  | @emptyObject b hb =>
    intro mayEnd frames
    have hopen : step ⟨.value mayEnd, frames⟩ '{' = some ⟨.key .empty true, frames⟩ := rfl
    have hblanks : run ⟨.key .empty true, frames⟩ b = some ⟨.key .empty true, frames⟩ :=
      run_blanks (fun c hc => by simp [step, hc]) hb
    refine ⟨⟨.after (.obj []), frames⟩, ?_, .after⟩
    rw [run_cons hopen, run_append_of_some hblanks]
    rfl
  | object _ ih =>
    intro mayEnd frames
    have hopen : step ⟨.value mayEnd, frames⟩ '{' = some ⟨.key .empty true, frames⟩ := rfl
    exact ⟨_, (run_cons hopen _).trans (ih .empty true frames), .after⟩
  | padded hahead _ hbehind ih =>
    intro mayEnd frames
    obtain ⟨s, hs, hv⟩ := ih mayEnd frames
    obtain ⟨t, ht, hv⟩ := hv.blanks hbehind
    have hblanks := run_blanks (s := ⟨.value mayEnd, frames⟩) (fun c hc => by simp [step, hc]) hahead
    refine ⟨t, ?_, hv⟩
    rw [run_append_of_some hblanks, run_append_of_some hs, ht]
  | item _ ih =>
    intro mayEnd items frames
    obtain ⟨s, hs, hv⟩ := ih mayEnd (.array items :: frames)
    rw [run_append_of_some hs, run_cons hv.step_close_array, List.reverse_cons]
    rfl
  | @moreItems v l cs ds _ _ ih ihs =>
    intro mayEnd items frames
    obtain ⟨s, hs, hv⟩ := ih mayEnd (.array items :: frames)
    rw [List.append_assoc, List.cons_append, run_append_of_some hs, run_cons hv.step_comma_array, ihs]
    simp
  | @member key v before literal after cs hahead hq hbehind _ ih =>
    intro members mayEnd frames
    obtain ⟨s, hs, hv⟩ := ih false (.object members key :: frames)
    have hbefore := run_blanks (s := ⟨.key members mayEnd, frames⟩) (fun c hc => by simp [step, hc]) hahead
    have hafter := run_blanks (s := ⟨.colon members key, frames⟩) (fun c hc => by simp [step, hc]) hbehind
    have hcolon : step ⟨.colon members key, frames⟩ ':' = some ⟨.value false, .object members key :: frames⟩ := rfl
    refine ⟨s, ?_, hv⟩
    rw [run_append_of_some hbefore, run_append_of_some (run_quoted_key hq members mayEnd frames), run_append_of_some hafter,
      run_cons hcolon, hs]
  | oneMember _ ih =>
    intro members mayEnd frames
    obtain ⟨s, hs, hv⟩ := ih members mayEnd frames
    rw [run_append_of_some hs, run_cons hv.step_close_object]
    rfl
  | moreMembers _ _ ih ihs =>
    intro members mayEnd frames
    obtain ⟨s, hs, hv⟩ := ih members mayEnd frames
    rw [List.append_assoc, List.cons_append, run_append_of_some hs, run_cons hv.step_comma_object, ihs]
    rfl

/-! ## From the reader to the grammar -/

/-- what may stand between an item and the closing bracket: the items that follow, if any -/
inductive ItemsAfter : List Json → List Char → Prop
  | none : ItemsAfter [] []
  | some {l : List Json} {cs : List Char} (h : Written (.items l) cs) : ItemsAfter l (',' :: cs)

/-- what may stand between a member and the closing brace: the members that follow, if any -/
inductive MembersAfter : List (String × Json) → List Char → Prop
  | none : MembersAfter [] []
  | some {l : List (String × Json)} {cs : List Char} (h : Written (.members l) cs) : MembersAfter l (',' :: cs)

theorem ItemsAfter.written {l : List Json} (h : ItemsAfter l ds) (hv : Written (.padded v) cs) :
    Written (.items (v :: l)) (cs ++ ds) := by
  cases h with
  | none => simpa using Written.item hv
  | some hl => exact .moreItems hv hl

theorem MembersAfter.written {l : List (String × Json)} {key : String} (h : MembersAfter l ds)
    (hm : Written (.member key v) cs) : Written (.members ((key, v) :: l)) (cs ++ ds) := by
  cases h with
  | none => simpa using Written.oneMember hm
  | some hl => exact .moreMembers hm hl

/-- the members entered behind those that are there -/
def enterAll (members : Record Json) (l : List (String × Json)) : Record Json :=
  l.foldl (fun m e => m.insert e.1 e.2) members

/-- the text behind a complete value, when the whole is to be read as `w`: blanks, and then what closes the innermost array or
object, and so on -/
def Closes : List Frame → Json → List Char → Json → Prop
  | [], v, cs, w => Blanks cs ∧ v = w
  | .array items :: frames, v, cs, w =>
    ∃ b l ds rest, Blanks b ∧ ItemsAfter l ds ∧ cs = b ++ (ds ++ ']' :: rest) ∧
      Closes frames (.arr ((v :: items).reverse ++ l)) rest w
  | .object members key :: frames, v, cs, w =>
    ∃ b l ds rest, Blanks b ∧ MembersAfter l ds ∧ cs = b ++ (ds ++ '}' :: rest) ∧
      Closes frames (.ofRecord (enterAll members ((key, v) :: l))) rest w

/-- the text behind a key -/
def ColonAhead (members : Record Json) (key : String) (frames : List Frame) (cs : List Char) (w : Json) : Prop :=
  ∃ b before v inside rest, Blanks b ∧ Blanks before ∧ Written (.value v) inside ∧
    cs = b ++ ':' :: (before ++ (inside ++ rest)) ∧ Closes (.object members key :: frames) v rest w

/-- the text ahead of a state, when the whole is to be read as `w` -/
def Demands (s : State) (cs : List Char) (w : Json) : Prop :=
  match s.mode with
  | .value mayEnd =>
    (∃ b v inside rest, Blanks b ∧ Written (.value v) inside ∧ cs = b ++ (inside ++ rest) ∧ Closes s.frames v rest w) ∨
      mayEnd = true ∧ ∃ items frames b rest, s.frames = .array items :: frames ∧ Blanks b ∧ cs = b ++ ']' :: rest ∧
        Closes frames (.arr []) rest w
  | .key members mayEnd =>
    (∃ l inside rest, Written (.members l) inside ∧ cs = inside ++ '}' :: rest ∧
        Closes s.frames (.ofRecord (enterAll members l)) rest w) ∨
      mayEnd = true ∧ ∃ b rest, Blanks b ∧ cs = b ++ '}' :: rest ∧ Closes s.frames (.obj []) rest w
  | .colon members key => ColonAhead members key s.frames cs w
  | .after v => Closes s.frames v cs w
  | .word chars =>
    ∃ more v rest, (∀ c ∈ more, isWordChar c = true) ∧ ofWord? (chars.reverse ++ more) = some v ∧ cs = more ++ rest ∧
      Closes s.frames v rest w
  | .string u => ∃ text rest, u.Ends cs text rest ∧ Closes s.frames (.str text) rest w
  | .keyString members u => ∃ key rest, u.Ends cs key rest ∧ ColonAhead members key s.frames rest w

theorem Closes.cons_blank (hc : isSpace c = true) (h : Closes frames v cs w) : Closes frames v (c :: cs) w := by
  rcases frames with _ | ⟨items | ⟨members, key⟩, frames⟩
  · exact ⟨h.1.cons hc, h.2⟩
  · obtain ⟨b, l, ds, rest, hb, hl, rfl, hclose⟩ := h
    exact ⟨c :: b, l, ds, rest, hb.cons hc, hl, rfl, hclose⟩
  · obtain ⟨b, l, ds, rest, hb, hl, rfl, hclose⟩ := h
    exact ⟨c :: b, l, ds, rest, hb.cons hc, hl, rfl, hclose⟩

/-- a value within an array, the first or behind a comma -/
theorem exists_items {items : List Json} {before inside : List Char} (hbefore : Blanks before) (hv : Written (.value v) inside)
    (h : Closes (.array items :: frames) v rest w) :
    ∃ l ds tail, Written (.items (v :: l)) ds ∧ before ++ (inside ++ rest) = ds ++ ']' :: tail ∧
      Closes frames (.arr (items.reverse ++ v :: l)) tail w := by
  obtain ⟨b, l, ds, tail, hb, hl, rfl, hclose⟩ := h
  refine ⟨l, (before ++ (inside ++ b)) ++ ds, tail, hl.written (.padded hbefore hv hb), by simp, ?_⟩
  simpa using hclose

/-- a member, the first or behind a comma -/
theorem exists_members {members : Record Json} {key : String} {before literal : List Char} (hbefore : Blanks before)
    (hq : Quoted key literal) (h : ColonAhead members key frames rest w) :
    ∃ l ds tail, Written (.members l) ds ∧ before ++ (literal ++ rest) = ds ++ '}' :: tail ∧
      Closes frames (.ofRecord (enterAll members l)) tail w := by
  obtain ⟨b, before', v, inside, rest, hb, hbefore', hv, rfl, b', l, ds, tail, hb', hl, rfl, hclose⟩ := h
  have hm : Written (.member key v) (before ++ (literal ++ (b ++ ':' :: (before' ++ (inside ++ b'))))) :=
    .member hbefore hq hb (.padded hbefore' hv hb')
  exact ⟨(key, v) :: l, _, tail, hl.written hm, by simp, hclose⟩

theorem closes_of_stepAfter (h : stepAfter v frames c = some t) (hd : Demands t cs w) : Closes frames v (c :: cs) w := by
  unfold stepAfter at h
  split at h
  · rename_i hc
    cases h
    exact Closes.cons_blank hc hd
  rename_i hspace
  rcases frames with _ | ⟨items | ⟨members, key⟩, frames⟩
  · cases h
  · simp only at h
    split at h
    · rename_i hcomma
      cases h
      rcases hd with ⟨b, v', inside, rest, hb, hv, rfl, hclose⟩ | ⟨hno, -⟩
      · obtain ⟨l, ds, tail, hl, heq, hclose⟩ := exists_items hb hv hclose
        refine ⟨[], v' :: l, ',' :: ds, tail, blanks_nil, .some hl, by rw [hcomma, heq]; rfl, hclose⟩
      · cases hno
    split at h
    · rename_i hbracket
      cases h
      have hclose : Closes frames (.arr (v :: items).reverse) cs w := hd
      exact ⟨[], [], [], cs, blanks_nil, .none, by rw [hbracket]; rfl, by simpa using hclose⟩
    · cases h
  · simp only at h
    split at h
    · rename_i hcomma
      cases h
      rcases hd with ⟨l, inside, rest, hl, rfl, hclose⟩ | ⟨hno, -⟩
      · exact ⟨[], l, ',' :: inside, rest, blanks_nil, .some hl, by rw [hcomma]; rfl, hclose⟩
      · cases hno
    split at h
    · rename_i hbrace
      cases h
      exact ⟨[], [], [], cs, blanks_nil, .none, by rw [hbrace]; rfl, hd⟩
    · cases h

theorem written_members_cons_blank {l : List (String × Json)} (hc : isSpace c = true) (h : Written (.members l) cs) :
    Written (.members l) (c :: cs) := by
  cases h with
  | oneMember hm =>
    cases hm with
    | member hb hq ha hv => exact .oneMember (.member (hb.cons hc) hq ha hv)
  | moreMembers hm hl =>
    cases hm with
    | member hb hq ha hv => exact .moreMembers (.member (hb.cons hc) hq ha hv) hl

theorem demands_of_value {mayEnd : Bool} (h : step ⟨.value mayEnd, frames⟩ c = some t) (hd : Demands t cs w) :
    Demands ⟨.value mayEnd, frames⟩ (c :: cs) w := by
  simp only [step] at h
  split at h
  · rename_i hc
    cases h
    rcases hd with ⟨b, v, inside, rest, hb, hv, rfl, hclose⟩ | ⟨hmay, items, frames', b, rest, hf, hb, rfl, hclose⟩
    · exact .inl ⟨c :: b, v, inside, rest, hb.cons hc, hv, rfl, hclose⟩
    · exact .inr ⟨hmay, items, frames', c :: b, rest, hf, hb.cons hc, rfl, hclose⟩
  split at h
  · rename_i hquote
    cases h
    obtain ⟨text, rest, hends, hclose⟩ := hd
    obtain ⟨literal, hq, hcs⟩ := hends.quoted
    exact .inl ⟨[], .str text, literal, rest, blanks_nil, .string hq, by rw [hquote, hcs]; rfl, hclose⟩
  split at h
  · rename_i hbracket
    cases h
    rcases hd with ⟨b, v, inside, rest, hb, hv, rfl, hclose⟩ | ⟨-, items, frames', b, rest, hf, hb, rfl, hclose⟩
    · obtain ⟨l, ds, tail, hl, heq, hclose⟩ := exists_items hb hv hclose
      exact .inl ⟨[], .arr (v :: l), _, tail, blanks_nil, .array hl, by rw [hbracket, heq]; simp, hclose⟩
    · cases hf
      exact .inl ⟨[], .arr [], _, rest, blanks_nil, .emptyArray hb, by rw [hbracket]; simp, hclose⟩
  split at h
  · rename_i hbrace
    cases h
    rcases hd with ⟨l, inside, rest, hl, rfl, hclose⟩ | ⟨-, b, rest, hb, rfl, hclose⟩
    · exact .inl ⟨[], .ofMembers l, _, rest, blanks_nil, .object hl, by rw [hbrace]; simp, hclose⟩
    · exact .inl ⟨[], .obj [], _, rest, blanks_nil, .emptyObject hb, by rw [hbrace]; simp, hclose⟩
  split at h
  · cases h
    obtain ⟨more, v, rest, hmore, hv, rfl, hclose⟩ := hd
    exact .inl ⟨[], v, c :: more, rest, blanks_nil, written_of_word hv, rfl, hclose⟩
  · split at h
    · cases h
      exact .inr ⟨rfl, _, _, [], cs, rfl, blanks_nil, rfl, hd⟩
    · cases h

theorem demands_of_key {members : Record Json} {mayEnd : Bool} (h : step ⟨.key members mayEnd, frames⟩ c = some t)
    (hd : Demands t cs w) : Demands ⟨.key members mayEnd, frames⟩ (c :: cs) w := by
  simp only [step] at h
  split at h
  · rename_i hc
    cases h
    rcases hd with ⟨l, inside, rest, hl, rfl, hclose⟩ | ⟨hmay, b, rest, hb, rfl, hclose⟩
    · exact .inl ⟨l, c :: inside, rest, written_members_cons_blank hc hl, rfl, hclose⟩
    · exact .inr ⟨hmay, c :: b, rest, hb.cons hc, rfl, hclose⟩
  split at h
  · rename_i hquote
    cases h
    obtain ⟨key, rest, hends, hcolon⟩ := hd
    obtain ⟨literal, hq, hcs⟩ := hends.quoted
    obtain ⟨l, ds, tail, hl, heq, hclose⟩ := exists_members blanks_nil hq hcolon
    exact .inl ⟨l, ds, tail, hl, by rw [hquote, hcs, ← heq]; rfl, hclose⟩
  split at h
  · rename_i hend
    cases h
    obtain ⟨hmay, hbrace⟩ : mayEnd = true ∧ c = '}' := by simpa using hend
    exact .inr ⟨hmay, [], cs, blanks_nil, by rw [hbrace]; rfl, hd⟩
  · cases h

theorem demands_of_colon {members : Record Json} {key : String} (h : step ⟨.colon members key, frames⟩ c = some t)
    (hd : Demands t cs w) : Demands ⟨.colon members key, frames⟩ (c :: cs) w := by
  simp only [step] at h
  split at h
  · rename_i hc
    cases h
    obtain ⟨b, before, v, inside, rest, hb, hbefore, hv, rfl, hclose⟩ := hd
    exact ⟨c :: b, before, v, inside, rest, hb.cons hc, hbefore, hv, rfl, hclose⟩
  split at h
  · rename_i hcolon
    cases h
    rcases hd with ⟨before, v, inside, rest, hbefore, hv, rfl, hclose⟩ | ⟨hno, -⟩
    · exact ⟨[], before, v, inside, rest, blanks_nil, hbefore, hv, by rw [hcolon]; rfl, hclose⟩
    · cases hno
  · cases h

theorem demands_of_word {chars : List Char} (h : step ⟨.word chars, frames⟩ c = some t) (hd : Demands t cs w) :
    Demands ⟨.word chars, frames⟩ (c :: cs) w := by
  simp only [step] at h
  split at h
  · rename_i hc
    cases h
    obtain ⟨more, v, rest, hmore, hv, rfl, hclose⟩ := hd
    exact ⟨c :: more, v, rest, List.forall_mem_cons.2 ⟨hc, hmore⟩, by simpa using hv, rfl, hclose⟩
  · obtain ⟨v, hv, hafter⟩ := Option.bind_eq_some_iff.1 h
    exact ⟨[], v, c :: cs, by simp, by simpa using hv, rfl, closes_of_stepAfter hafter hd⟩

theorem demands_of_string {u : Text} (h : step ⟨.string u, frames⟩ c = some t) (hd : Demands t cs w) :
    Demands ⟨.string u, frames⟩ (c :: cs) w := by
  obtain ⟨outcome, hstep, rfl⟩ := Option.map_eq_some_iff.1 h
  cases outcome with
  | more u' =>
    obtain ⟨text, rest, hends, hclose⟩ := hd
    exact ⟨text, rest, Text.ends_of_more hstep hends, hclose⟩
  | closed text => exact ⟨text, cs, Text.ends_of_closed hstep, hd⟩

theorem demands_of_keyString {members : Record Json} {u : Text} (h : step ⟨.keyString members u, frames⟩ c = some t)
    (hd : Demands t cs w) : Demands ⟨.keyString members u, frames⟩ (c :: cs) w := by
  obtain ⟨outcome, hstep, rfl⟩ := Option.map_eq_some_iff.1 h
  cases outcome with
  | more u' =>
    obtain ⟨key, rest, hends, hcolon⟩ := hd
    exact ⟨key, rest, Text.ends_of_more hstep hends, hcolon⟩
  | closed key => exact ⟨key, cs, Text.ends_of_closed hstep, hd⟩

/-- one character, read backwards -/
theorem demands_of_step (h : step s c = some t) (hd : Demands t cs w) : Demands s (c :: cs) w := by
  obtain ⟨mode, frames⟩ := s
  cases mode with
  | value => exact demands_of_value h hd
  | key => exact demands_of_key h hd
  | colon => exact demands_of_colon h hd
  | after => exact closes_of_stepAfter h hd
  | word => exact demands_of_word h hd
  | string => exact demands_of_string h hd
  | keyString => exact demands_of_keyString h hd

theorem demands_of_finish (h : finish s = some w) : Demands s [] w := by
  obtain ⟨mode, frames⟩ := s
  unfold finish at h
  split at h
  · rename_i hmode hframes
    cases h
    cases hmode
    cases hframes
    exact ⟨blanks_nil, rfl⟩
  · rename_i hmode hframes
    cases hmode
    cases hframes
    exact ⟨[], w, [], by simp, by simpa using h, rfl, blanks_nil, rfl⟩
  · cases h

/-- the whole text -/
theorem demands_of_run (h : (run s cs).bind finish = some w) : Demands s cs w := by
  induction cs generalizing s with
  | nil => exact demands_of_finish h
  | cons c cs ih =>
    cases hc : step s c with
    | none => simp [run, hc] at h
    | some t => exact demands_of_step hc (ih (by simpa [run, hc] using h))

end Reader

/-! ## Main result -/

namespace Json

/-- the reader reads exactly the texts of the grammar, each as the value that the grammar gives it -/
theorem readChars?_eq_some_iff {cs : List Char} {v : Json} : readChars? cs = some v ↔ Written (.padded v) cs := by
  constructor
  · intro h
    rcases Reader.demands_of_run h with ⟨b, w, inside, rest, hb, hw, rfl, hrest, rfl⟩ | ⟨hno, -⟩
    · exact .padded hb hw hrest
    · cases hno
  · intro h
    obtain ⟨s, hs, hv⟩ := Reader.accepts h false []
    rw [readChars?, Reader.start, hs]
    exact hv.finish_eq

end Json

end LayeredProfiles
