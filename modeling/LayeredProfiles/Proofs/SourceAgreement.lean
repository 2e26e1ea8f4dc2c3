/-
The same sections in a document and in memory.

The text of a record of sections, written to a file, is loaded as the record is when it is held in memory. No text as name, key or
value is an exception, not even one with halves of pairs that stand alone; only the reserved name is, which a document refuses.
Texts are made of units (`IsText`), so a character beyond the basic plane occurs in them as its pair of halves and not as itself.

Main statement: `source_agreement`.
-/
import LayeredProfiles.FileTree
import LayeredProfiles.Proofs.DocumentStages
import LayeredProfiles.Proofs.StandardValidator

namespace LayeredProfiles

variable {host : Host} {file : String} {required : Bool} {directory : Path} {sections : Sections}

/-- sections whose names, keys and values are texts, made of units as all texts are -/
def Sections.AreTexts (sections : Sections) : Prop :=
  ∀ e ∈ sections.entries, IsText e.1 ∧ ∀ d ∈ e.2.entries, IsText d.1 ∧ IsText d.2

instance (sections : Sections) : Decidable sections.AreTexts := inferInstanceAs (Decidable (∀ e ∈ _, _))

theorem Sections.whole_text (h : sections.AreTexts) : Whole sections.toJson.text.toList := by
  rw [Json.text, String.toList_ofList]
  apply Json.whole_render_obj
  intro e he
  obtain ⟨⟨name, p⟩, hp, rfl⟩ := List.mem_map.1 he
  obtain ⟨hname, hproperties⟩ := h _ hp
  refine ⟨hname, Json.whole_render_obj fun d hd => ?_⟩
  obtain ⟨⟨key, value⟩, hvalue, rfl⟩ := List.mem_map.1 hd
  exact ⟨(hproperties _ hvalue).1, Json.whole_quote (hproperties _ hvalue).2⟩

/-- a document that was written from sections in record order, none of them with the reserved name, is loaded as them -/
theorem Source.load_of_text (hz : host.validator.ChecksRecords) (hnames : "__proto__" ∉ sections.keys)
    (hkeys : ∀ e ∈ sections.entries, "__proto__" ∉ e.2.keys) (htexts : sections.AreTexts)
    (horder : sections.entries.Pairwise (InOrder .indexFirst))
    (hfile : host.read (Path.resolve directory file) = .ok (utf8Encode sections.toJson.text.toList)) :
    (Source.document file required directory).load host = .ok sections := by
  have hwritten : Json.Written (.padded sections.toJson) (utf8Decode (utf8Encode sections.toJson.text.toList)) := by
    rw [utf8Decode_utf8Encode (Sections.whole_text htexts)]
    exact Json.readChars?_eq_some_iff.1 (Sections.read?_text horder)
  have hkey : ¬ sections.toJson.HasKey Document.reservedName := by
    rw [Sections.hasKey_toJson_iff]
    rintro ⟨e, he, hname | hkey⟩
    · exact hnames (List.mem_map.2 ⟨e, he, hname⟩)
    · exact hkeys e he hkey
  have hcheck : Document.check sections.toJson = .ok ⟨sections.entries, horder⟩ :=
    (Document.check_eq_ok_iff (Sections.canonical_toJson horder)).2 rfl
  rw [load_document_of_octets hfile, Document.read_of_shape hz _ hwritten hkey, hcheck]
  rfl

/-- **Agreement of sources.** A record of sections, none of them and none of their properties under the reserved name, written
as JSON to a file and loaded from there, required or not, gives what the record gives when it is held in memory: the same names
in the same order, with the same property maps. -/
theorem source_agreement (host : Host) (hz : host.validator.ChecksRecords) (file label : String) (required : Bool)
    (directory : Path) (sections : Record Properties) (hnames : "__proto__" ∉ sections.keys)
    (hkeys : ∀ e ∈ sections.entries, "__proto__" ∉ e.2.keys) (htexts : Sections.AreTexts sections.toTable)
    (hfile : host.read (Path.resolve directory file) = .ok (utf8Encode (Sections.toJson sections.toTable).text.toList)) :
    ∃ loaded, (Source.document file required directory).load host = .ok loaded ∧
      (Source.inline label (.record sections)).load host = .ok loaded ∧ loaded.entries = sections.entries :=
  ⟨sections.toTable, Source.load_of_text hz hnames hkeys htexts sections.inOrder hfile, rfl, rfl⟩

/-- names and values that a text must escape, names like array indices, and a character outside the basic plane -/
def curious : Record Properties := .ofList [
  ("say \"when\"", .ofList [("back\\slash", "line\nbreak"), ("10", "\u0001"), ("9", textOf "😀")]),
  ("constructor", .ofList [("toString", "é"), ("source_profile", "2")]),
  ("2", .empty)]

/-- a directory with the text of them in a file -/
def curiousTree : FileTree where
  nodes := [
    (["site"], .directory),
    (["site", "sections"], .file (utf8Encode (Sections.toJson curious.toTable).text.toList))]

theorem load_of_curious :
    "__proto__" ∉ curious.keys ∧ (∀ e ∈ curious.entries, "__proto__" ∉ e.2.keys) ∧ Sections.AreTexts curious.toTable ∧
    ∃ loaded, (Source.document "sections" false ["site"]).load curiousTree.host = .ok loaded ∧
      (Source.inline "curious" (.record curious)).load curiousTree.host = .ok loaded ∧ loaded.entries = curious.entries := by
  have hnames : "__proto__" ∉ curious.keys := by decide
  have hkeys : ∀ e ∈ curious.entries, "__proto__" ∉ e.2.keys := by decide
  have htexts : Sections.AreTexts curious.toTable := by decide
  have hfile : curiousTree.host.read (Path.resolve ["site"] "sections") =
      .ok (utf8Encode (Sections.toJson curious.toTable).text.toList) := by
    rw [Path.resolve_name ["site"] (by decide)]
    rfl
  exact ⟨hnames, hkeys, htexts, source_agreement curiousTree.host Validator.checksRecords_standard "sections" "curious" false
    ["site"] curious hnames hkeys htexts hfile⟩

end LayeredProfiles
