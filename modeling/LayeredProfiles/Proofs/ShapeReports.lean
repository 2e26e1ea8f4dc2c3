/-
What the shape error tells about a document that does not have the right shape.

`Json.Misplaced` and `Json.Precedes` say which places of a document are at fault and which of two is told first, without the check
that finds them. The check goes member by member, a section's own properties before the next section, and its report is then sorted
by how deep a place lies. That it tells all of the right places and nothing else is read off the text of the error alone, since
such a text tells its entries.

Results:
- `Document.mem_issues_iff`: the issues found are the places at fault.
- `Document.pairwise_reported`: they are told by depth, and as the document has them otherwise.
- `Json.misplaced_of_told`: the sentence and the written place of a fault tell its path.
- `shape_report_complete`: the error of loading lists the places at fault, each once, in their order.
-/
import Mathlib.Data.List.Nodup
import LayeredProfiles.FileTree
import LayeredProfiles.Proofs.DocumentStages
import LayeredProfiles.Proofs.IssueTexts
import LayeredProfiles.Proofs.StandardValidator

namespace LayeredProfiles

open Json (Written)

/-! ## Places at fault -/

namespace Json

variable {v w : Json} {members : List (String × Json)} {e : String × Json} {p q : List String} {i : Issue}

/-- a place of a document at fault: the document itself or a section that is no object, or a property that is no string, with the
type that stands there -/
inductive Misplaced : Json → Issue → Prop
  | top {v : Json} (other : ∀ members, v ≠ .obj members) :
      Misplaced v ⟨[], "Invalid input: expected record, received " ++ v.typeWord⟩
  | ofSection {members : List (String × Json)} {name : String} {w : Json} (mem : (name, w) ∈ members)
      (other : ∀ inner, w ≠ .obj inner) :
      Misplaced (.obj members) ⟨[name], "Invalid input: expected record, received " ++ w.typeWord⟩
  | ofProperty {members inner : List (String × Json)} {name key : String} {w : Json} (mem : (name, .obj inner) ∈ members)
      (within : (key, w) ∈ inner) (other : ∀ s, w ≠ .str s) :
      Misplaced (.obj members) ⟨[name, key], "Invalid input: expected string, received " ++ w.typeWord⟩

/-- the one path leads to what stands further ahead in the document: they part at two members of one object, and the one that it
takes comes first -/
inductive Ahead : Json → List String → List String → Prop
  | here {members : List (String × Json)} {a b : String} {p q : List String} (order : [a, b].Sublist (members.map (·.1))) :
      Ahead (.obj members) (a :: p) (b :: q)
  | inside {members : List (String × Json)} {a : String} {w : Json} {p q : List String} (mem : (a, w) ∈ members)
      (deeper : Ahead w p q) : Ahead (.obj members) (a :: p) (a :: q)

/-- the one path is shorter, or as long and ahead -/
def Precedes (v : Json) (p q : List String) : Prop := p.length < q.length ∨ p.length = q.length ∧ v.Ahead p q

/-- a document has the right shape when no place is at fault -/
theorem isSections_iff : v.IsSections ↔ ∀ i, ¬ v.Misplaced i := by
  constructor
  · rintro ⟨members, rfl, hmembers⟩ i hi
    cases hi with
    | top other => exact other members rfl
    | ofSection mem other =>
      obtain ⟨inner, hinner, -⟩ := hmembers _ mem
      exact other inner hinner
    | ofProperty mem within other =>
      obtain ⟨inner, hinner, hstrings⟩ := hmembers _ mem
      cases hinner
      obtain ⟨s, hs⟩ := hstrings _ within
      exact other s hs
  · intro h
    by_cases hv : ∃ members, v = .obj members
    · obtain ⟨members, rfl⟩ := hv
      refine ⟨members, rfl, ?_⟩
      rintro ⟨name, w⟩ he
      by_cases hw : ∃ inner, w = .obj inner
      · obtain ⟨inner, rfl⟩ := hw
        refine ⟨inner, rfl, ?_⟩
        rintro ⟨key, u⟩ hd
        by_contra hs
        exact h _ (.ofProperty he hd fun s hu => hs ⟨s, hu⟩)
      · exact absurd (.ofSection he fun inner hinner => hw ⟨inner, hinner⟩) (h _)
    · exact absurd (.top fun members hmembers => hv ⟨members, hmembers⟩) (h _)

/-- in a value whose objects have each key once, nothing is ahead of itself -/
theorem Ahead.ne (h : v.Ahead p q) (hc : v.Canonical) : p ≠ q := by
  induction h with
  | here order =>
    have hnodup : (_ : List String).Nodup := List.pairwise_map.2 ((hc _ .self).imp fun hab => hab.1)
    intro heq
    cases heq
    exact (List.nodup_iff_sublist.1 hnodup _) order
  | inside mem _ ih =>
    intro heq
    exact ih (hc.member mem) (List.cons_inj_right _ |>.1 heq)

theorem Precedes.ne (h : v.Precedes p q) (hc : v.Canonical) : p ≠ q := by
  rcases h with hlt | ⟨-, hahead⟩
  · intro heq
    exact absurd (congrArg List.length heq) (Nat.ne_of_lt hlt)
  · exact hahead.ne hc

end Json

/-! ## The sentences about faults -/

section Sentences

open Json

variable {v w : Json} {i j : Issue}

theorem Json.Misplaced.newline_notMem (h : v.Misplaced i) : '\n' ∉ i.message.toList := by
  cases h with
  | top | ofSection => exact Issue.newline_notMem_append (by decide) (Issue.newline_notMem_typeWord _)
  | ofProperty => exact Issue.newline_notMem_append (by decide) (Issue.newline_notMem_typeWord _)

/-- what was expected can be told from a sentence -/
theorem record_ne_string (a b : String) :
    "Invalid input: expected record, received " ++ a ≠ "Invalid input: expected string, received " ++ b := by
  have hlength : "Invalid input: expected record, received ".toList.length =
      "Invalid input: expected string, received ".toList.length := by decide
  have hleads : "Invalid input: expected record, received ".toList ≠ "Invalid input: expected string, received ".toList := by
    decide
  intro h
  have hchars := congrArg String.toList h
  rw [String.toList_append, String.toList_append] at hchars
  exact hleads (List.append_inj_left hchars hlength)

/-- the sentence and the written place of a fault tell its path, even those of faults in two documents: what was expected tells how
deep the place is -/
theorem Json.misplaced_of_told (hi : v.Misplaced i) (hj : w.Misplaced j) (h : i.told = j.told) : i = j := by
  obtain ⟨hmessage, hplace⟩ := Prod.ext_iff.1 h
  have hpath : i.path.length = j.path.length → i = j := fun hlen => Issue.eq_of_told hlen h
  cases hi with
  | top =>
    cases hj with
    | top => exact hpath rfl
    | ofSection => cases hplace
    | ofProperty => cases hplace
  | ofSection =>
    cases hj with
    | top => cases hplace
    | ofSection => exact hpath rfl
    | ofProperty => exact absurd hmessage (record_ne_string _ _)
  | ofProperty =>
    cases hj with
    | top => cases hplace
    | ofSection => exact absurd hmessage.symm (record_ne_string _ _)
    | ofProperty => exact hpath rfl

/-- the text of a report tells its entries, also against those of any other document -/
theorem Json.misplaced_of_entries {is js : List Issue} (hi : ∀ i ∈ is, v.Misplaced i) (hj : ∀ j ∈ js, w.Misplaced j)
    (h : String.intercalate "\n" (is.map Issue.entry) = String.intercalate "\n" (js.map Issue.entry)) : is = js := by
  have htold : is.map Issue.told = js.map Issue.told := by
    apply Issue.Told.entries_inj
    · exact List.forall_mem_map.2 fun i hmem => Issue.told_onLines (hi i hmem).newline_notMem
    · exact List.forall_mem_map.2 fun j hmem => Issue.told_onLines (hj j hmem).newline_notMem
    · simpa only [List.map_map, Function.comp_def, ← Issue.entry_eq] using h
  clear h
  induction is generalizing js with
  | nil => exact (List.map_eq_nil_iff.1 htold.symm).symm
  | cons i is ih =>
    cases js with
    | nil => cases htold
    | cons j js =>
      obtain ⟨hfirst, hrest⟩ := List.cons.inj htold
      obtain ⟨hi, his⟩ := List.forall_mem_cons.1 hi
      obtain ⟨hj, hjs⟩ := List.forall_mem_cons.1 hj
      rw [Json.misplaced_of_told hi hj hfirst, ih his hjs hrest]

end Sentences

/-! ## What the check finds -/

namespace Document

open Checked (issues)

variable {α : Type} {f : Json → Checked α} {v : Json} {i : Issue}

theorem issues_checkRecord_obj (members : List (String × Json)) :
    (checkRecord f (.obj members)).issues = members.flatMap fun e => (f e.2).issues.map (.under e.1) := by
  rw [checkRecord, Checked.issues_map, Checked.issues_all, List.flatMap_map]

theorem mem_issues_checkText_iff :
    i ∈ (checkText v).issues ↔ (∀ s, v ≠ .str s) ∧ i = ⟨[], "Invalid input: expected string, received " ++ v.typeWord⟩ := by
  cases v <;> simp [checkText, issues]

theorem mem_issues_checkRecord_iff : i ∈ (checkRecord f v).issues ↔
    (∀ members, v ≠ .obj members) ∧ i = ⟨[], "Invalid input: expected record, received " ++ v.typeWord⟩ ∨
    ∃ members, v = .obj members ∧ ∃ e ∈ members, ∃ j ∈ (f e.2).issues, j.under e.1 = i := by
  cases v with
  | obj members => simp [issues_checkRecord_obj]
  | null | bool | num | str | arr => simp [checkRecord, issues]

/-- the issues found are the places at fault -/
theorem mem_issues_iff : i ∈ (check v).issues ↔ v.Misplaced i := by
  constructor
  · intro hi
    rcases mem_issues_checkRecord_iff.1 hi with ⟨other, rfl⟩ | ⟨members, rfl, ⟨name, w⟩, he, j, hj, rfl⟩
    · exact .top other
    · rcases mem_issues_checkRecord_iff.1 hj with ⟨other, rfl⟩ | ⟨inner, rfl, ⟨key, u⟩, hd, k, hk, rfl⟩
      · exact .ofSection he other
      · obtain ⟨other, rfl⟩ := mem_issues_checkText_iff.1 hk
        exact .ofProperty he hd other
  · intro hi
    cases hi with
    | top other => exact mem_issues_checkRecord_iff.2 (.inl ⟨other, rfl⟩)
    | ofSection mem other =>
      exact mem_issues_checkRecord_iff.2
        (.inr ⟨_, rfl, _, mem, _, mem_issues_checkRecord_iff.2 (.inl ⟨other, rfl⟩), rfl⟩)
    | ofProperty mem within other =>
      have hproperty := mem_issues_checkText_iff.2 ⟨other, rfl⟩
      have hsection := mem_issues_checkRecord_iff.2 (.inr ⟨_, rfl, _, within, _, hproperty, rfl⟩)
      exact mem_issues_checkRecord_iff.2 (.inr ⟨_, rfl, _, mem, _, hsection, rfl⟩)

/-! ## Their order -/

/-- the members of an object, by the order of their keys -/
theorem pairwise_members (members : List (String × Json)) :
    members.Pairwise fun e f => [e.1, f.1].Sublist (members.map (·.1)) :=
  List.pairwise_iff_forall_sublist.2 fun hef => hef.map Prod.fst

/-- the check of a record goes from its front to its end, if that of every value does -/
theorem pairwise_issues_checkRecord (hf : ∀ w, (f w).issues.Pairwise fun i j => w.Ahead i.path j.path) (v : Json) :
    (checkRecord f v).issues.Pairwise fun i j => v.Ahead i.path j.path := by
  cases v with
  | obj members =>
    rw [issues_checkRecord_obj]
    refine List.pairwise_flatMap.2 ⟨fun e he => ?_, (pairwise_members members).imp fun {e d} hed i hi j hj => ?_⟩
    · exact List.pairwise_map.2 ((hf e.2).imp fun hij => .inside he hij)
    · obtain ⟨i, -, rfl⟩ := List.mem_map.1 hi
      obtain ⟨j, -, rfl⟩ := List.mem_map.1 hj
      exact .here hed
  | null | bool | num | str | arr => exact List.pairwise_singleton _ _

theorem pairwise_issues_checkText (v : Json) : (checkText v).issues.Pairwise fun i j => v.Ahead i.path j.path := by
  cases v with
  | str s => exact .nil
  | null | bool | num | arr | obj => exact List.pairwise_singleton _ _

/-- the issues of a document as they are told -/
def reported (v : Json) : List Issue := (check v).issues.mergeSort fun i j => i.path.length ≤ j.path.length

theorem mem_reported_iff : i ∈ reported v ↔ v.Misplaced i := by
  rw [reported, List.mem_mergeSort, mem_issues_iff]

/-- told are the issues by depth, and as the document has them otherwise -/
theorem pairwise_reported (v : Json) : (reported v).Pairwise fun i j => v.Precedes i.path j.path :=
  Issue.pairwise_mergeSort (fun i : Issue => i.path.length)
    (pairwise_issues_checkRecord (pairwise_issues_checkRecord pairwise_issues_checkText) v)

end Document

/-- the error about a document of another shape has an entry for each of its faults -/
theorem Source.load_document_of_misshapen {host : Host} (hz : host.validator.ChecksRecords) {file : String} {required : Bool}
    {directory : Path} {octets : List UInt8} {v : Json} (hread : host.read (Path.resolve directory file) = .ok octets)
    (hv : Written (.padded v) (utf8Decode octets)) (hkey : ¬ v.HasKey Document.reservedName) (hshape : ¬ v.IsSections) :
    (document file required directory).load host =
      .error (.invalid "content" ("json:" ++ file ++ " must map section names to string properties\n" ++
        String.intercalate "\n" ((Document.reported v).map Issue.entry))) := by
  have herror : Document.check v = .error (Document.check v).issues :=
    Checked.eq_error_of_ne_ok fun r hr => hshape (Document.exists_check_iff.1 ⟨r, hr⟩)
  rw [load_document_of_octets hread, Document.read_of_shape hz _ hv hkey, herror]
  rfl

/-- **Complete reports of the shape.** Loading a file whose text is a value without the reserved name and without the right
shape gives the shape error, and its text has one entry for each place at fault, and no other: the sentence with the type that
stands there, and the path. There is at least one; the shorter paths come first, and those of one length as they stand in the
document, whose objects have their members in record order. Nothing else has that text: faults of whatever document that are told
in the same text are these, in this order. -/
theorem shape_report_complete (host : Host) (hz : host.validator.ChecksRecords) (file : String) (required : Bool)
    (directory : Path) {octets : List UInt8} {v : Json} (hread : host.read (Path.resolve directory file) = .ok octets)
    (hv : Written (.padded v) (utf8Decode octets)) (hkey : ¬ v.HasKey "__proto__") (hshape : ¬ v.IsSections) :
    ∃ issues : List Issue,
      (Source.document file required directory).load host =
        .error (.invalid "content" ("json:" ++ file ++ " must map section names to string properties\n" ++
          String.intercalate "\n" (issues.map fun i =>
            "✖ " ++ i.message ++ if i.path = [] then "" else "\n  → at " ++ Issue.pathText i.path))) ∧
      issues ≠ [] ∧
      (∀ i, i ∈ issues ↔ v.Misplaced i) ∧
      issues.Nodup ∧
      issues.Pairwise (fun i j => v.Precedes i.path j.path) ∧
      v.Canonical ∧
      ∀ (w : Json) (others : List Issue), (∀ i ∈ others, w.Misplaced i) →
        String.intercalate "\n" (others.map fun i =>
          "✖ " ++ i.message ++ if i.path = [] then "" else "\n  → at " ++ Issue.pathText i.path) =
        String.intercalate "\n" (issues.map fun i =>
          "✖ " ++ i.message ++ if i.path = [] then "" else "\n  → at " ++ Issue.pathText i.path) →
        others = issues := by
  have hc : v.Canonical := Json.canonical_of_written hv
  have hmem : ∀ i, i ∈ Document.reported v ↔ v.Misplaced i := fun _ => Document.mem_reported_iff
  refine ⟨_, Source.load_document_of_misshapen hz hread hv hkey hshape, ?_, hmem, ?_, Document.pairwise_reported v, hc,
    fun w others hothers htext => ?_⟩
  · intro hnone
    apply hshape
    rw [Json.isSections_iff]
    intro i hi
    rw [← hmem, hnone] at hi
    cases hi
  · exact (Document.pairwise_reported v).imp fun hij heq => hij.ne hc (congrArg Issue.path heq)
  · exact Json.misplaced_of_entries hothers (fun i hi => (hmem i).1 hi) htext

/-! ## A document with faults at both depths -/

/-- two sections that are no objects, around one with two properties that are no strings -/
def mixedDraft : Json := .obj [
  ("7", .null),
  ("dev", .obj [("3", .arr []), ("zone", .str "a"), ("max retries", .bool true)]),
  ("qa", .arr [])]

/-- a text of that document, in which the index-like names stand behind others -/
def mixedText : String :=
  "\x7b \"dev\": \x7b \"zone\": \"a\", \"max retries\": true, \"3\": [] \x7d, \"qa\": [], \"7\": null \x7d"

/-- a directory with that text in a file -/
def mixedDrafts : FileTree where
  nodes := [(["drafts"], .directory), (["drafts", "mixed"], .file mixedText.toUTF8.toList)]

def mixedIssues : List Issue := [
  ⟨["7"], "Invalid input: expected record, received null"⟩, ⟨["qa"], "Invalid input: expected record, received array"⟩,
  ⟨["dev", "3"], "Invalid input: expected string, received array"⟩,
  ⟨["dev", "max retries"], "Invalid input: expected string, received boolean"⟩]

/-- the places at fault in it, as they are told -/
theorem load_of_mixed_draft :
    (Source.document "mixed" true ["drafts"]).load mixedDrafts.host =
      .error (.invalid "content" ("json:mixed must map section names to string properties\n" ++
        String.intercalate "\n" (mixedIssues.map Issue.entry))) ∧
    (∀ i, i ∈ mixedIssues ↔ mixedDraft.Misplaced i) ∧
    mixedIssues.Pairwise fun i j => mixedDraft.Precedes i.path j.path := by
  have hread : mixedDrafts.host.read (Path.resolve ["drafts"] "mixed") = mixedDrafts.read ["drafts", "mixed"] :=
    congrArg mixedDrafts.read (Path.resolve_name ["drafts"] (by decide))
  have hwritten : Written (.padded mixedDraft) (utf8Decode mixedText.toUTF8.toList) := written_of_octets rfl
  have hkey : ¬ mixedDraft.HasKey "__proto__" := by
    intro hkey
    cases (Document.usesReserved_iff mixedDraft).2 hkey
  have hshape : ¬ mixedDraft.IsSections := by
    rw [← Document.exists_check_iff]
    rintro ⟨r, hr⟩
    cases hr
  have hreported : Document.reported mixedDraft = mixedIssues := by
    have hissues : (Document.check mixedDraft).issues = [
        ⟨["7"], "Invalid input: expected record, received null"⟩,
        ⟨["dev", "3"], "Invalid input: expected string, received array"⟩,
        ⟨["dev", "max retries"], "Invalid input: expected string, received boolean"⟩,
        ⟨["qa"], "Invalid input: expected record, received array"⟩] := rfl
    rw [Document.reported, hissues]
    simp [mixedIssues, List.mergeSort, List.MergeSort.Internal.splitInTwo]
  have hload : (Source.document "mixed" true ["drafts"]).load mixedDrafts.host = .error (.invalid "content" _) :=
    Source.load_document_of_misshapen Validator.checksRecords_standard hread hwritten hkey hshape
  rw [hreported] at hload
  obtain ⟨issues, htext, -, hmem, -, hsorted, -, honly⟩ := shape_report_complete mixedDrafts.host Validator.checksRecords_standard
    "mixed" true ["drafts"] hread hwritten hkey hshape
  have hmisplaced : ∀ i ∈ mixedIssues, mixedDraft.Misplaced i := by
    intro i hi
    exact Document.mem_reported_iff.1 (hreported ▸ hi)
  obtain ⟨-, hreason, -⟩ := Thrown.invalidInput.inj (Except.error.inj (hload.symm.trans htext))
  have hsame : mixedIssues = issues := honly mixedDraft mixedIssues hmisplaced (String.append_right_inj _ |>.1 hreason)
  rw [hsame]
  exact ⟨htext, hmem, hsorted⟩

end LayeredProfiles
