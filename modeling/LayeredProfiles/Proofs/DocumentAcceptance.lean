/-
What loading a document of sections gives, for every content of the file and every error of reading it.

The validator is any that checks texts and records as it should (`Validator.ChecksRecords`). What passes all stages is the value of
the text itself, member by member. The units of a text may be halves of pairs without a partner, which only an escape can write;
they tell names and values apart like any other unit.

Main statement: `document_acceptance`.
-/
import LayeredProfiles.Proofs.ShapeReports

namespace LayeredProfiles

open Json (Written)

variable {text : List Char} {v : Json} {sections : Sections}

/-- what passes the stages is accepted, and nothing else -/
theorem Document.read_eq_ok_iff {z : Validator} (hz : z.ChecksRecords) (name : String) (h : Written (.padded v) text) :
    read z name text = .ok sections ↔ ¬ v.HasKey reservedName ∧ ∃ r, check v = .ok r ∧ sections = r.toTable := by
  by_cases hkey : v.HasKey reservedName
  · rw [read_of_reserved z name h hkey]
    simp [hkey]
  · rw [read_of_shape hz name h hkey]
    cases check v <;> simp [hkey, eq_comm]

/-- **Acceptance of documents.** What loading a document gives is settled by the first stage that fails. Of a file that is read, a
text that is no JSON gives the error with the malformed text as its cause; a value with the reserved name, in an object at
whatever depth, gives the reserved-name error, whatever its shape; a value that is no object of objects of strings gives the
shape error, which tells the places at fault. Every other value, and no other, is accepted, and the sections are that value: its
members in their order, none dropped, added or changed. When the file is not read, whatever error that gives is passed on, unless
it is one that says by its code that the file is not there, and the file need not be. -/
theorem document_acceptance (host : Host) (hz : host.validator.ChecksRecords) (file : String) (required : Bool)
    (directory : Path) :
    (∀ octets, host.read (Path.resolve directory file) = .ok octets →
      ((¬ ∃ v, Written (.padded v) (utf8Decode octets)) →
        (Source.document file required directory).load host =
          .error (.invalidInput "content" ("json:" ++ file ++ " is not valid JSON") .malformed)) ∧
      ∀ v, Written (.padded v) (utf8Decode octets) →
        (v.HasKey "__proto__" →
          (Source.document file required directory).load host =
            .error (.invalid "content" ("json:" ++ file ++ " uses the reserved name \"__proto__\""))) ∧
        (¬ v.HasKey "__proto__" → ¬ v.IsSections →
          ∃ issues : List Issue, (∀ i, i ∈ issues ↔ v.Misplaced i) ∧
            (Source.document file required directory).load host =
              .error (.invalid "content" ("json:" ++ file ++ " must map section names to string properties\n" ++
                String.intercalate "\n" (issues.map fun i =>
                  "✖ " ++ i.message ++ if i.path = [] then "" else "\n  → at " ++ Issue.pathText i.path)))) ∧
        ((∃ sections, (Source.document file required directory).load host = .ok sections) ↔
          ¬ v.HasKey "__proto__" ∧ v.IsSections) ∧
        ∀ sections, (Source.document file required directory).load host = .ok sections →
          sections.toJson = v ∧ sections.entries.Pairwise (InOrder .indexFirst)) ∧
    ∀ t, host.read (Path.resolve directory file) = .error t →
      ((Source.document file required directory).load host = .ok .empty ↔
        (t.isError = true ∧ t.code? = some "ENOENT") ∧ required = false) ∧
      (¬ ((t.isError = true ∧ t.code? = some "ENOENT") ∧ required = false) →
        (Source.document file required directory).load host = .error t) := by
  constructor
  · intro octets hoctets
    have hload : (Source.document file required directory).load host = _ := Source.load_document_of_octets hoctets
    refine ⟨fun hmalformed => ?_, fun v hv => ⟨fun hkey => ?_, fun hkey hshape => ?_, ?_, fun sections hok => ?_⟩⟩
    · rw [hload, Document.read_of_malformed _ _ hmalformed]
    · rw [hload, Document.read_of_reserved _ _ hv hkey]
    · exact ⟨Document.reported v, fun _ => Document.mem_reported_iff,
        Source.load_document_of_misshapen hz hoctets hv hkey hshape⟩
    · simp only [hload, Document.read_eq_ok_iff hz _ hv, ← Document.exists_check_iff]
      constructor
      · rintro ⟨sections, hkey, r, hr, -⟩
        exact ⟨hkey, r, hr⟩
      · rintro ⟨hkey, r, hr⟩
        exact ⟨r.toTable, hkey, r, hr, rfl⟩
    · rw [hload] at hok
      obtain ⟨-, r, hr, rfl⟩ := (Document.read_eq_ok_iff hz _ hv).1 hok
      exact ⟨((Document.check_eq_ok_iff (Json.canonical_of_written hv)).1 hr).symm, r.inOrder⟩
  · intro t ht
    rw [Source.load_document_of_error ht]
    have hnotFound : t.isNotFound = true ↔ t.isError = true ∧ t.code? = some "ENOENT" := by
      simp [Thrown.isNotFound, Thrown.notFoundCode]
    rw [← hnotFound]
    cases t.isNotFound <;> cases required <;> simp

/-! ## Drafts of a document -/

/-- the text of a half of a pair that stands alone -/
def loneText (n : Nat) : String := String.singleton (unitChar n)

/-- the value of a sound draft; two of its names differ only in halves without a partner -/
def soundDraft : Json := .obj [
  ("2", .obj []),
  ("dev", .obj [("9", .str "a"), ("10", .str "b"), ("zone", .str "é/1"), (loneText 0xd800, .str "c"), (loneText 0xd801, .str "d")])]

/-- an array, in which an object uses the reserved name -/
def reservedDraft : Json := .arr [.obj [("dev", .str "west")], .arr [.obj [("__proto__", .null)]]]

/-- a property that is no string, and a section that is no object -/
def misshapenDraft : Json := .obj [("dev", .obj [("retries", .bool true)]), ("qa", .arr [])]

/-- a text of the sound draft, in which the index-like names stand behind others -/
def soundText : String :=
  "\x7b \"dev\": \x7b \"zone\": \"\\u00e9/1\", \"\\ud800\": \"c\", \"\\uD801\": \"d\", \"10\": \"b\", \"9\": \"a\" \x7d, \"2\": \x7b\x7d \x7d"

/-- a directory with drafts -/
def drafts : FileTree where
  nodes := [
    (["drafts"], .directory),
    (["drafts", "sound"], .file soundText.toUTF8.toList),
    (["drafts", "reserved"], .file reservedDraft.text.toUTF8.toList),
    (["drafts", "misshapen"], .file misshapenDraft.text.toUTF8.toList),
    (["drafts", "notes"], .file "no JSON yet".toUTF8.toList)]

theorem read_drafts {name : String} (h : Path.IsName name) :
    drafts.host.read (Path.resolve ["drafts"] name) = drafts.read ["drafts", name] :=
  congrArg drafts.read (Path.resolve_name ["drafts"] h)

theorem load_of_drafts :
    (∃ sections, (Source.document "sound" true ["drafts"]).load drafts.host = .ok sections ∧ sections.toJson = soundDraft) ∧
    (Source.document "reserved" true ["drafts"]).load drafts.host =
      .error (.invalid "content" "json:reserved uses the reserved name \"__proto__\"") ∧
    (∃ issues : List Issue, (∀ i, i ∈ issues ↔ misshapenDraft.Misplaced i) ∧
      (Source.document "misshapen" true ["drafts"]).load drafts.host =
        .error (.invalid "content" ("json:misshapen must map section names to string properties\n" ++
          String.intercalate "\n" (issues.map Issue.entry)))) ∧
    (Source.document "notes" true ["drafts"]).load drafts.host =
      .error (.invalidInput "content" "json:notes is not valid JSON" .malformed) ∧
    (Source.document "absent" false ["drafts"]).load drafts.host = .ok .empty ∧
    (Source.document "absent" true ["drafts"]).load drafts.host = .error (.file "ENOENT" "ENOENT") := by
  have hkey : ∀ v, Document.usesReserved v = false → ¬ v.HasKey "__proto__" := by
    intro v h hkey
    rw [(Document.usesReserved_iff v).2 hkey] at h
    cases h
  have hacceptance := fun name => document_acceptance drafts.host Validator.checksRecords_standard name
  refine ⟨?_, ?_, ?_, ?_, ?_, ?_⟩
  · have h := (hacceptance "sound" true ["drafts"]).1 _ (read_drafts (by decide))
    obtain ⟨-, -, haccepted, hexact⟩ := h.2 soundDraft (written_of_octets rfl)
    obtain ⟨sections, hload⟩ := haccepted.2 ⟨hkey _ rfl, Document.exists_check_iff.1 ⟨_, rfl⟩⟩
    exact ⟨sections, hload, (hexact sections hload).1⟩
  · have h := (hacceptance "reserved" true ["drafts"]).1 _ (read_drafts (by decide))
    obtain ⟨hreserved, -⟩ := h.2 reservedDraft (written_of_octets rfl)
    exact hreserved ((Document.usesReserved_iff _).1 rfl)
  · have h := (hacceptance "misshapen" true ["drafts"]).1 _ (read_drafts (by decide))
    obtain ⟨-, hmisshapen, -⟩ := h.2 misshapenDraft (written_of_octets rfl)
    apply hmisshapen (hkey _ rfl)
    rw [← Document.exists_check_iff]
    rintro ⟨r, hr⟩
    cases hr
  · have h := (hacceptance "notes" true ["drafts"]).1 _ (read_drafts (by decide))
    apply h.1
    rintro ⟨v, hv⟩
    rw [utf8Decode_toUTF8] at hv
    cases Json.readChars?_eq_some_iff.2 hv
  · have h := (hacceptance "absent" false ["drafts"]).2 (.file "ENOENT" "ENOENT") (read_drafts (by decide))
    exact h.1.2 ⟨⟨rfl, rfl⟩, rfl⟩
  · have h := (hacceptance "absent" true ["drafts"]).2 (.file "ENOENT" "ENOENT") (read_drafts (by decide))
    exact h.2 (by simp)

end LayeredProfiles
