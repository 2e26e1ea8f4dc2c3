/-
The stages of loading a document, one by one.

The stages stand in one order: reading the file, reading the text, looking for the reserved name, checking the shape. Each has its
own error, and a later one does not show while an earlier one is at fault. How a name is a path of one entry is here as well, for
the files of examples.

Results:
- `Path.resolve_name`: a plain name stands below the directory.
- `Document.read_of_malformed`, `Document.read_of_reserved`, `Document.read_of_shape`: what each stage gives.
- `Source.load_document_of_octets`, `Source.load_document_of_error`: a file that is read, and one that is not.
-/
import Mathlib.Data.String.Basic
import LayeredProfiles.Proofs.DocumentChecks
import LayeredProfiles.Proofs.EncodedTexts
import LayeredProfiles.Source

namespace LayeredProfiles

open Json (Written)

variable {host : Host} {z : Validator} {file name : String} {required : Bool} {directory : Path} {octets : List UInt8} {t : Thrown}
  {text : List Char} {v : Json} {sections : Sections}

/-! ## Plain file names -/

theorem splitOnAux_of_notMem (front back : List Char) (h : '/' ∉ back) :
    String.splitOnAux (.ofList (front ++ back)) "/" 0 ⟨String.utf8Len front⟩ 0 [] = [.ofList (front ++ back)] := by
  induction back generalizing front with
  | nil =>
    have hend : String.Pos.Raw.atEnd (.ofList (front ++ [])) ⟨String.utf8Len front⟩ = true :=
      (String.atEnd_of_valid front []).2 rfl
    have hall : String.Pos.Raw.extract (.ofList (front ++ [])) 0 ⟨String.utf8Len front⟩ = .ofList (front ++ []) := by
      simpa using String.extract_of_valid [] front []
    rw [String.splitOnAux, if_pos hend, hall]
    rfl
  | cons c back ih =>
    have hend : String.Pos.Raw.atEnd (.ofList (front ++ c :: back)) ⟨String.utf8Len front⟩ = false := by
      rw [Bool.eq_false_iff, Ne, String.atEnd_of_valid]
      exact List.cons_ne_nil c back
    have hget : String.Pos.Raw.get (.ofList (front ++ c :: back)) ⟨String.utf8Len front⟩ = c :=
      String.get_of_valid front (c :: back)
    have hnext : String.Pos.Raw.next (.ofList (front ++ c :: back)) ⟨String.utf8Len front⟩ =
        ⟨String.utf8Len (front ++ [c])⟩ := by
      rw [String.next_of_valid]
      simp
    have hslash : (c == String.Pos.Raw.get "/" 0) = false := by
      have hc : c ≠ '/' := fun hc => h (hc ▸ List.mem_cons_self)
      exact beq_false_of_ne hc
    have hrest := ih (front ++ [c]) fun hmem => h (List.mem_cons_of_mem c hmem)
    rw [List.append_assoc, List.singleton_append] at hrest
    rw [String.splitOnAux]
    simp only [hend, hget, hslash, Bool.false_eq_true, if_false]
    have hu : String.Pos.Raw.unoffsetBy ⟨String.utf8Len front⟩ 0 = ⟨String.utf8Len front⟩ := rfl
    rw [hu, hnext, hrest]

/-- a text that, as a written path, is the name of one entry -/
def Path.IsName (name : String) : Prop := '/' ∉ name.toList ∧ name ∉ ["", ".", ".."]

instance (name : String) : Decidable (Path.IsName name) := inferInstanceAs (Decidable (_ ∧ _))

theorem Path.resolve_name (directory : Path) {name : String} (h : Path.IsName name) :
    Path.resolve directory name = directory ++ [name] := by
  obtain ⟨hslash, hname⟩ := h
  have hsplit : name.splitOn "/" = [name] := by
    have haux := splitOnAux_of_notMem [] name.toList hslash
    rw [List.nil_append, String.ofList_toList] at haux
    exact haux
  have hbelow : Path.below directory name = directory ++ [name] := by
    simp only [List.mem_cons, List.not_mem_nil, or_false, not_or] at hname
    simp [Path.below, hsplit, Path.walk, hname]
  unfold Path.resolve
  split
  · rename_i heq
    simp [heq] at hslash
  · exact hbelow

/-! ## The stages -/

namespace Document

theorem read_of_malformed (z : Validator) (name : String) (h : ¬ ∃ v, Written (.padded v) text) :
    read z name text = .error (.invalidInput "content" (name ++ " is not valid JSON") .malformed) := by
  have hnone : Json.readChars? text = none := by
    apply Option.eq_none_iff_forall_ne_some.2
    intro v hv
    exact h ⟨v, Json.readChars?_eq_some_iff.1 hv⟩
  rw [read, hnone]

theorem read_of_reserved (z : Validator) (name : String) (h : Written (.padded v) text) (hkey : v.HasKey reservedName) :
    read z name text = .error (.invalid "content" (name ++ " uses the reserved name \"__proto__\"")) := by
  simp only [read, Json.readChars?_eq_some_iff.2 h, (usesReserved_iff v).2 hkey, if_true]
  rw [String.append_assoc, String.append_assoc]
  rfl

/-- a value without the reserved name is what the check makes of it -/
theorem read_of_shape (hz : z.ChecksRecords) (name : String) (h : Written (.padded v) text) (hkey : ¬ v.HasKey reservedName) :
    read z name text = match check v with
      | .ok sections => .ok sections.toTable
      | .error issues =>
        .error (.invalid "content" (name ++ " must map section names to string properties\n" ++ Issue.report issues)) := by
  have hreserved : usesReserved v = false := Bool.eq_false_iff.2 (mt (usesReserved_iff v).1 hkey)
  have hcheck : z.check Document.schema (some v) = .ok (check v) := check_schema hz (Json.canonical_of_written h) hkey
  simp only [read, Json.readChars?_eq_some_iff.2 h, hreserved, Bool.false_eq_true, if_false, hcheck, hz.prettify]
  cases check v <;> rfl

end Document

namespace Source

theorem load_document_of_octets (h : host.read (Path.resolve directory file) = .ok octets) :
    (document file required directory).load host = Document.read host.validator ("json:" ++ file) (utf8Decode octets) := by
  simp only [load, h, name]

theorem load_document_of_error (h : host.read (Path.resolve directory file) = .error t) :
    (document file required directory).load host = if !required && t.isNotFound then .ok .empty else .error t := by
  simp only [load, h]

end Source

theorem written_of_octets {text : String} (h : Json.readChars? (toUnits text.toList) = some v) :
    Written (.padded v) (utf8Decode text.toUTF8.toList) :=
  utf8Decode_toUTF8 text ▸ Json.readChars?_eq_some_iff.1 h

end LayeredProfiles
