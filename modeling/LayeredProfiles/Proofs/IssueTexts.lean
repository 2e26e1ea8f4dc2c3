/-
The text of a report, and the issues in it.

Places that are equally deep in a value are written apart, and neither a place nor a sentence about a type has a line break in it.
So a report can be taken apart again, line by line: its text tells the sentences and the places that it is made of, and their
order.

Results:
- `Issue.pathText_inj`: no two paths of one length are written alike.
- `Issue.newline_notMem_pathText`: the text of a path is one line.
- `Issue.Told.entries_inj`: the text of some entries tells what they are.
- `Issue.filter_mergeSort`, `Issue.pairwise_mergeSort`: the sort of a report keeps the order of issues that are equally deep.
-/
import LayeredProfiles.Issue
import LayeredProfiles.Proofs.StringLiterals

namespace LayeredProfiles

namespace Issue

/-! ## A stable sort by a number -/

section StableSort

variable {α : Type} {R : α → α → Prop} {l : List α}

theorem key_le_trans (key : α → Nat) (a b c : α) (hab : decide (key a ≤ key b) = true) (hbc : decide (key b ≤ key c) = true) :
    decide (key a ≤ key c) = true :=
  decide_eq_true ((of_decide_eq_true hab).trans (of_decide_eq_true hbc))

theorem key_le_total (key : α → Nat) (a b : α) : (decide (key a ≤ key b) || decide (key b ≤ key a)) = true := by
  rcases Nat.le_total (key a) (key b) with h | h <;> simp [h]

/-- what has one number keeps its order -/
theorem filter_mergeSort (key : α → Nat) (n : Nat) (l : List α) :
    (l.mergeSort fun a b => key a ≤ key b).filter (key · = n) = l.filter (key · = n) := by
  have hlevel : (l.filter (key · = n)).Pairwise fun a b => decide (key a ≤ key b) = true := by
    apply List.Pairwise.imp_of_mem (R := fun _ _ => True) _ (List.pairwise_of_forall fun _ _ => trivial)
    intro a b ha hb _
    rw [of_decide_eq_true (List.mem_filter.1 ha).2, of_decide_eq_true (List.mem_filter.1 hb).2]
    exact decide_eq_true (Nat.le_refl n)
  have hkept : (l.filter (key · = n)).Sublist (l.mergeSort fun a b => key a ≤ key b) :=
    List.sublist_mergeSort (key_le_trans key) (key_le_total key) hlevel List.filter_sublist
  have hsub := hkept.filter (key · = n)
  simp only [List.filter_filter, Bool.and_self] at hsub
  exact (hsub.eq_of_length ((List.mergeSort_perm l _).filter _).length_eq.symm).symm

/-- a list sorted by a number has the lower numbers first, and what has the same number as before -/
theorem pairwise_mergeSort (key : α → Nat) (h : l.Pairwise R) :
    (l.mergeSort fun a b => key a ≤ key b).Pairwise fun a b => key a < key b ∨ key a = key b ∧ R a b := by
  have hsorted := List.pairwise_mergeSort (key_le_trans key) (key_le_total key) l
  apply List.pairwise_iff_forall_sublist.2
  intro a b hab
  have hle : key a ≤ key b := of_decide_eq_true (List.pairwise_iff_forall_sublist.1 hsorted hab)
  rcases Nat.lt_or_eq_of_le hle with hlt | heq
  · exact .inl hlt
  · have hlevel := hab.filter (key · = key b)
    rw [filter_mergeSort] at hlevel
    simp only [heq, decide_true, List.filter_cons_of_pos, List.filter_nil] at hlevel
    exact .inr ⟨heq, List.pairwise_iff_forall_sublist.1 h (hlevel.trans List.filter_sublist)⟩

end StableSort

/-! ## Blocks of characters -/

section Blocks

variable {p : Char → Bool} {a b cs ds : List Char}

/-- a text with which a block of such characters in front of it is at its end -/
def Breaks (p : Char → Bool) (cs : List Char) : Prop := ∀ c ∈ cs.head?, p c = false

theorem block_append_inj (ha : a.all p = true) (hb : b.all p = true) (hc : Breaks p cs) (hd : Breaks p ds)
    (h : a ++ cs = b ++ ds) : a = b ∧ cs = ds := by
  have htake : ∀ {a cs : List Char}, a.all p = true → Breaks p cs → (a ++ cs).takeWhile p = a := by
    intro a cs ha hc
    have hnil : cs.takeWhile p = [] := by
      cases cs with
      | nil => rfl
      | cons c cs => simp [hc c rfl]
    rw [List.takeWhile_append_of_pos (List.all_eq_true.1 ha), hnil, List.append_nil]
  have hab : a = b := (htake ha hc).symm.trans ((congrArg (List.takeWhile p) h).trans (htake hb hd))
  subst hab
  exact ⟨rfl, List.append_cancel_left h⟩

end Blocks

/-! ## Paths -/

variable {p q : List String}

/-- the steps of a path behind its first -/
def stepsText (path : List String) : List Char := path.flatMap fun name => (stepText "." name).toList

theorem toList_pathText (name : String) (rest : List String) :
    (pathText (name :: rest)).toList = (stepText "" name).toList ++ stepsText rest := by
  rw [pathText, String.toList_append, String.toList_join, List.flatMap_map, stepsText]

theorem toList_stepText_of_plain (point : String) {name : String} (h : name.toList.all isPlain = true) :
    (stepText point name).toList = point.toList ++ name.toList := by
  rw [stepText, if_pos h, String.toList_append]

theorem toList_stepText_of_quoted (point : String) {name : String} (h : ¬ name.toList.all isPlain = true) :
    (stepText point name).toList = '[' :: (Json.quote name ++ [']']) := by
  rw [stepText, if_neg h, String.toList_append, String.toList_append, @String.toList_ofList (Json.quote name)]
  rfl

/-- a step behind the first shows by its first character whether it is bare -/
theorem head?_stepsText (name : String) (rest : List String) :
    (stepsText (name :: rest)).head? = some (if name.toList.all isPlain then '.' else '[') := by
  rw [stepsText, List.flatMap_cons, List.head?_append]
  by_cases h : name.toList.all isPlain = true
  · rw [toList_stepText_of_plain "." h, if_pos h]
    rfl
  · rw [toList_stepText_of_quoted "." h, if_neg h]
    rfl

theorem breaks_stepsText (path : List String) : Breaks isPlain (stepsText path) := by
  intro c hc
  cases path with
  | nil => cases hc
  | cons name rest =>
    rw [head?_stepsText] at hc
    cases hc
    split <;> decide

theorem quoted_append_inj {a b : String} {cs ds : List Char}
    (h : '[' :: (Json.quote a ++ [']']) ++ cs = '[' :: (Json.quote b ++ [']']) ++ ds) : a = b ∧ cs = ds := by
  simp only [List.cons_append, List.append_assoc, List.nil_append, List.cons.injEq, true_and] at h
  obtain ⟨hab, hrest⟩ := (Json.quoted_quote a).append_inj (Json.quoted_quote b) h
  exact ⟨hab, (List.cons.inj hrest).2⟩

/-- steps that are both bare or both quoted end at the same place -/
theorem stepText_append_inj {point a b : String} (hkind : a.toList.all isPlain = b.toList.all isPlain)
    (h : (stepText point a).toList ++ stepsText p = (stepText point b).toList ++ stepsText q) :
    a = b ∧ stepsText p = stepsText q := by
  by_cases ha : a.toList.all isPlain = true
  · have hb : b.toList.all isPlain = true := hkind ▸ ha
    rw [toList_stepText_of_plain point ha, toList_stepText_of_plain point hb, List.append_assoc, List.append_assoc] at h
    obtain ⟨hab, hrest⟩ := block_append_inj ha hb (breaks_stepsText p) (breaks_stepsText q) (List.append_cancel_left h)
    exact ⟨String.toList_inj.1 hab, hrest⟩
  · have hb : ¬ b.toList.all isPlain = true := hkind ▸ ha
    rw [toList_stepText_of_quoted point ha, toList_stepText_of_quoted point hb] at h
    exact quoted_append_inj h

theorem stepsText_inj (h : stepsText p = stepsText q) : p = q := by
  induction p generalizing q with
  | nil =>
    cases q with
    | nil => rfl
    | cons b q =>
      have hhead := head?_stepsText b q
      rw [← h] at hhead
      cases hhead
  | cons a p ih =>
    cases q with
    | nil =>
      have hhead := head?_stepsText a p
      rw [h] at hhead
      cases hhead
    | cons b q =>
      have hhead := congrArg List.head? h
      rw [head?_stepsText, head?_stepsText] at hhead
      have hkind : a.toList.all isPlain = b.toList.all isPlain := by
        revert hhead
        cases a.toList.all isPlain <;> cases b.toList.all isPlain <;> decide
      obtain ⟨hab, hrest⟩ := stepText_append_inj hkind h
      rw [hab, ih hrest]

/-- a first step that is bare is not one in brackets, unless it is empty and the path has a step more -/
theorem length_ne_of_bare_quoted {a b : String} (ha : a.toList.all isPlain = true) (hb : ¬ b.toList.all isPlain = true)
    (h : a.toList ++ stepsText p = '[' :: (Json.quote b ++ [']']) ++ stepsText q) : p.length ≠ q.length := by
  have hsteps : [] ++ stepsText (b :: q) = '[' :: (Json.quote b ++ [']']) ++ stepsText q := by
    rw [List.nil_append, stepsText, List.flatMap_cons, toList_stepText_of_quoted "." hb, stepsText]
  obtain ⟨-, hp⟩ := block_append_inj ha (b := []) rfl (breaks_stepsText p) (breaks_stepsText (b :: q)) (h.trans hsteps.symm)
  rw [stepsText_inj hp, List.length_cons]
  exact Nat.succ_ne_self q.length

/-- paths of one length are written apart; without that, a property of the section without a name can be written as a section -/
theorem pathText_inj (hlen : p.length = q.length) (h : pathText p = pathText q) : p = q := by
  cases p with
  | nil => exact (List.length_eq_zero_iff.1 hlen.symm).symm
  | cons a p =>
    cases q with
    | nil => cases hlen
    | cons b q =>
      have hlen : p.length = q.length := Nat.succ.inj hlen
      have hchars := congrArg String.toList h
      rw [toList_pathText, toList_pathText] at hchars
      by_cases ha : a.toList.all isPlain = true <;> by_cases hb : b.toList.all isPlain = true
      · obtain ⟨hab, hrest⟩ := stepText_append_inj (ha.trans hb.symm) hchars
        rw [hab, stepsText_inj hrest]
      · rw [toList_stepText_of_plain "" ha, toList_stepText_of_quoted "" hb] at hchars
        exact absurd hlen (length_ne_of_bare_quoted ha hb hchars)
      · rw [toList_stepText_of_quoted "" ha, toList_stepText_of_plain "" hb] at hchars
        exact absurd hlen.symm (length_ne_of_bare_quoted hb ha hchars.symm)
      · have hkind := (Bool.eq_false_iff.2 ha).trans (Bool.eq_false_iff.2 hb).symm
        obtain ⟨hab, hrest⟩ := stepText_append_inj hkind hchars
        rw [hab, stepsText_inj hrest]

theorem pathText_singleton {name : String} (h : name.toList.all isPlain = true) : pathText [name] = name := by
  apply String.toList_inj.1
  rw [toList_pathText, toList_stepText_of_plain "" h]
  exact List.append_nil name.toList

/-! ## Lines -/

theorem newline_notMem_append {a b : String} (ha : '\n' ∉ a.toList) (hb : '\n' ∉ b.toList) : '\n' ∉ (a ++ b).toList := by
  rw [String.toList_append, List.mem_append]
  exact not_or.2 ⟨ha, hb⟩

theorem newline_notMem_typeWord (v : Json) : '\n' ∉ v.typeWord.toList := by
  fun_cases Json.typeWord v <;> decide

theorem newline_notMem_stepText (point name : String) (h : '\n' ∉ point.toList) : '\n' ∉ (stepText point name).toList := by
  by_cases hname : name.toList.all isPlain = true
  · rw [toList_stepText_of_plain point hname, List.mem_append]
    rintro (hmem | hmem)
    · exact h hmem
    · exact absurd (List.all_eq_true.1 hname _ hmem) (by decide)
  · rw [toList_stepText_of_quoted point hname]
    simp [(Json.quoted_quote name).newline_notMem]

theorem newline_notMem_pathText (path : List String) : '\n' ∉ (pathText path).toList := by
  cases path with
  | nil => exact List.not_mem_nil
  | cons name rest =>
    rw [toList_pathText, List.mem_append, stepsText, List.mem_flatMap]
    rintro (hmem | ⟨step, -, hmem⟩)
    · exact newline_notMem_stepText "" name List.not_mem_nil hmem
    · exact newline_notMem_stepText "." step (by decide) hmem

/-- what an entry tells: a sentence, and a place when it has one -/
abbrev Told := String × Option String

def told (i : Issue) : Told := (i.message, if i.path = [] then none else some (pathText i.path))

namespace Told

variable {t u : Told} {l r : List Told} {cs ds : List Char}

def placeText (t : Told) : List Char := t.2.elim [] fun place => "\n  → at ".toList ++ place.toList

def text (t : Told) : String :=
  "✖ " ++ t.1 ++ match t.2 with
    | none => ""
    | some place => "\n  → at " ++ place

/-- the entries behind the first, each on lines of its own -/
def others (l : List Told) : List Char := l.flatMap fun t => '\n' :: t.text.toList

/-- the sentence and the place are one line each -/
def OnLines (t : Told) : Prop := '\n' ∉ t.1.toList ∧ ∀ place ∈ t.2, '\n' ∉ place.toList

theorem toList_text (t : Told) : t.text.toList = '✖' :: ' ' :: (t.1.toList ++ t.placeText) := by
  rcases t with ⟨message, _ | place⟩ <;> simp [text, placeText]

theorem toList_entries (t : Told) (l : List Told) :
    (String.intercalate "\n" ((t :: l).map text)).toList = t.text.toList ++ others l := by
  induction l generalizing t with
  | nil => simp [others]
  | cons u l ih =>
    rw [List.map_cons, List.map_cons, String.intercalate_cons_cons, String.toList_append, String.toList_append, ← List.map_cons,
      ih u, others, others, List.flatMap_cons]
    simp

theorem breaks_others (l : List Told) : Breaks (· ≠ '\n') (others l) := by
  intro c hc
  cases l with
  | nil => cases hc
  | cons t l =>
    cases hc
    rfl

theorem breaks_placeText (t : Told) (l : List Told) : Breaks (· ≠ '\n') (t.placeText ++ others l) := by
  intro c hc
  rcases t with ⟨message, _ | place⟩
  · exact breaks_others l c hc
  · cases hc
    rfl

theorem all_ne_newline (h : '\n' ∉ cs) : cs.all (· ≠ '\n') = true := by
  rw [List.all_eq_true]
  intro c hc
  exact decide_eq_true fun heq => h (heq ▸ hc)

/-- behind a sentence comes its place, if it has one, and then the next entry; the two begin differently -/
theorem placeText_append_inj (ht : t.OnLines) (hu : u.OnLines) (h : t.placeText ++ others l = u.placeText ++ others r) :
    t.2 = u.2 ∧ others l = others r := by
  have hentry : ∀ place (l : List Told) rest, ("\n  → at ".toList ++ place) ++ rest ≠ others l := by
    intro place l rest hl
    cases l with
    | nil => cases hl
    | cons t l =>
      rw [others, List.flatMap_cons, toList_text] at hl
      cases (List.cons.inj (List.cons.inj hl).2).1
  rcases t with ⟨message, _ | place⟩ <;> rcases u with ⟨other, _ | place'⟩
  · exact ⟨rfl, h⟩
  · exact absurd h.symm (hentry _ l _)
  · exact absurd h (hentry _ r _)
  · simp only [placeText, Option.elim_some, List.append_assoc] at h
    obtain ⟨hplace, hrest⟩ := block_append_inj (all_ne_newline (ht.2 _ rfl)) (all_ne_newline (hu.2 _ rfl)) (breaks_others l)
      (breaks_others r) (List.append_cancel_left h)
    exact ⟨congrArg some (String.toList_inj.1 hplace), hrest⟩

theorem text_append_inj (ht : t.OnLines) (hu : u.OnLines) (h : t.text.toList ++ others l = u.text.toList ++ others r) :
    t = u ∧ others l = others r := by
  rw [toList_text, toList_text, List.cons_append, List.cons_append, List.cons_append, List.cons_append, List.append_assoc,
    List.append_assoc] at h
  obtain ⟨hmessage, hbehind⟩ := block_append_inj (all_ne_newline ht.1) (all_ne_newline hu.1) (breaks_placeText t l)
    (breaks_placeText u r) (List.cons.inj (List.cons.inj h).2).2
  obtain ⟨hplace, hrest⟩ := placeText_append_inj ht hu hbehind
  exact ⟨Prod.ext (String.toList_inj.1 hmessage) hplace, hrest⟩

theorem others_inj (hl : ∀ t ∈ l, t.OnLines) (hr : ∀ t ∈ r, t.OnLines) (h : others l = others r) : l = r := by
  induction l generalizing r with
  | nil =>
    cases r with
    | nil => rfl
    | cons u r => cases h
  | cons t l ih =>
    cases r with
    | nil => cases h
    | cons u r =>
      obtain ⟨ht, hl⟩ := List.forall_mem_cons.1 hl
      obtain ⟨hu, hr⟩ := List.forall_mem_cons.1 hr
      rw [others, others, List.flatMap_cons, List.flatMap_cons, List.cons_append, List.cons_append] at h
      obtain ⟨htu, hrest⟩ := text_append_inj ht hu (List.cons.inj h).2
      rw [htu, ih hl hr hrest]

/-- the text of some entries tells what they are -/
theorem entries_inj (hl : ∀ t ∈ l, t.OnLines) (hr : ∀ t ∈ r, t.OnLines)
    (h : String.intercalate "\n" (l.map text) = String.intercalate "\n" (r.map text)) : l = r := by
  have hchars := congrArg String.toList h
  have hempty : ∀ (t : Told) (l : List Told), t.text.toList ++ others l ≠ [] := by
    intro t l
    rw [toList_text]
    exact List.cons_ne_nil _ _
  cases l with
  | nil =>
    cases r with
    | nil => rfl
    | cons u r =>
      rw [toList_entries] at hchars
      exact absurd hchars.symm (hempty u r)
  | cons t l =>
    cases r with
    | nil =>
      rw [toList_entries] at hchars
      exact absurd hchars (hempty t l)
    | cons u r =>
      rw [toList_entries, toList_entries] at hchars
      apply others_inj hl hr
      rw [others, others, List.flatMap_cons, List.flatMap_cons, List.cons_append, List.cons_append]
      exact congrArg ('\n' :: ·) hchars

end Told

theorem entry_eq (i : Issue) : i.entry = i.told.text := by
  unfold entry told Told.text
  split <;> rfl

/-- issues of equally deep places are what is told of them -/
theorem eq_of_told {i j : Issue} (hlen : i.path.length = j.path.length) (h : i.told = j.told) : i = j := by
  rcases i with ⟨p, message⟩
  rcases j with ⟨q, other⟩
  obtain ⟨hmessage, hplace⟩ := Prod.ext_iff.1 h
  have hpath : p = q := by
    cases p with
    | nil => exact (List.length_eq_zero_iff.1 hlen.symm).symm
    | cons a p =>
      cases q with
      | nil => cases hlen
      | cons b q => exact pathText_inj hlen (Option.some.inj hplace)
  rw [hpath, show message = other from hmessage]

theorem told_onLines {i : Issue} (h : '\n' ∉ i.message.toList) : i.told.OnLines := by
  refine ⟨h, ?_⟩
  unfold told
  split
  · simp
  · simpa using newline_notMem_pathText i.path

end Issue

end LayeredProfiles
