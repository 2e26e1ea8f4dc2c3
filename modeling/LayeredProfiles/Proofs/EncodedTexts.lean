/-
Encoded texts: decoding the octets of a text gives the text.

The encoding of a character is the standard library's. A character below 128 is its own octet. Of every other one the first octet fixes how
many follow and the range of the next, which keeps out the overlong forms and the surrogates, and each that follows brings six
bits.

Results:
- `utf8Run_utf8EncodeChar`: the octets of one character complete that character and leave nothing begun.
- `utf8Decode_utf8Encode`: the octets of a whole text are decoded to that text.
-/
import LayeredProfiles.Proofs.UnitTexts
import LayeredProfiles.Text.Utf8

namespace LayeredProfiles

variable {n m : Nat} {b : Begun} {rest : List UInt8}

/-! ## Single octets -/

theorem utf8Run_octet (begun : Option Begun) (h : n < 256) (rest : List UInt8) :
    utf8Run begun (.ofNat n :: rest) = (utf8Step begun n).1 ++ utf8Run (utf8Step begun n).2 rest := by
  have hn : (UInt8.ofNat n).toNat = n := UInt8.toNat_ofNat_of_lt' h
  rw [utf8Run, hn]

theorem utf8Run_ascii (h : n < 0x80) : utf8Run none (.ofNat n :: rest) = Char.ofNat n :: utf8Run none rest := by
  rw [utf8Run_octet none (by omega)]
  simp [utf8Step, restart, lead, h]

/-- an octet that begins a character of several -/
theorem utf8Run_lead (hn : n < 256) (h : lead n = .begun b) : utf8Run none (.ofNat n :: rest) = utf8Run (some b) rest := by
  rw [utf8Run_octet none hn]
  simp [utf8Step, restart, h]

/-- an octet inside a character brings six bits -/
theorem utf8Run_more (hm : m < 0x40) (hlow : b.low ≤ m + 0x80) (hhigh : m + 0x80 ≤ b.high) (hb : b.missing ≠ 1) :
    utf8Run (some b) (.ofNat (m + 0x80) :: rest) = utf8Run (some ⟨b.missing - 1, b.bits * 64 + m, 0x80, 0xbf⟩) rest := by
  rw [utf8Run_octet (some b) (by omega)]
  simp [utf8Step, hlow, hhigh, hb]

/-- the octet that completes a character -/
theorem utf8Run_last (hm : m < 0x40) (hlow : b.low ≤ m + 0x80) (hhigh : m + 0x80 ≤ b.high) (hb : b.missing = 1) :
    utf8Run (some b) (.ofNat (m + 0x80) :: rest) = Char.ofNat (b.bits * 64 + m) :: utf8Run none rest := by
  rw [utf8Run_octet (some b) (by omega)]
  simp [utf8Step, hlow, hhigh, hb]

/-! ## First octets -/

theorem lead_of_two (hlow : 2 ≤ m) (hhigh : m < 0x20) : lead (m + 0xc0) = .begun ⟨1, m, 0x80, 0xbf⟩ := by
  rw [lead, if_neg (by omega), if_neg (by omega), if_pos (by omega), Nat.add_sub_cancel]

theorem lead_of_three (h : m < 0x10) :
    lead (m + 0xe0) = .begun ⟨2, m, if m = 0 then 0xa0 else 0x80, if m = 0xd then 0x9f else 0xbf⟩ := by
  rw [lead, if_neg (by omega), if_neg (by omega), if_neg (by omega), if_pos (by omega), Nat.add_sub_cancel]
  simp

theorem lead_of_four (h : m < 5) :
    lead (m + 0xf0) = .begun ⟨3, m, if m = 0 then 0x90 else 0x80, if m = 4 then 0x8f else 0xbf⟩ := by
  rw [lead, if_neg (by omega), if_neg (by omega), if_neg (by omega), if_neg (by omega), if_pos (by omega), Nat.add_sub_cancel]
  simp

/-! ## Characters -/

/-- the octets of a character complete it and leave nothing begun -/
theorem utf8Run_utf8EncodeChar (c : Char) (rest : List UInt8) :
    utf8Run none (String.utf8EncodeChar c ++ rest) = c :: utf8Run none rest := by
  have hchar : Char.ofNat c.val.toNat = c := c.ofNat_toNat
  have hvalid : c.val.toNat < 0xd800 ∨ 0xdfff < c.val.toNat ∧ c.val.toNat < 0x110000 := c.valid
  fun_cases String.utf8EncodeChar c with
  | case1 v h =>
    simp only [List.cons_append, List.nil_append]
    rw [utf8Run_ascii (by omega), hchar]
  | case2 v h h' =>
    have hbits : v / 64 % 0x20 * 64 + v % 0x40 = v := by omega
    simp only [List.cons_append, List.nil_append]
    rw [utf8Run_lead (by omega) (lead_of_two (by omega) (by omega)), utf8Run_last (by omega) (by simp) (by simp; omega) rfl, hbits,
      hchar]
  | case3 v h h' h'' =>
    have hbits : (v / 4096 % 0x10 * 64 + v / 64 % 0x40) * 64 + v % 0x40 = v := by omega
    simp only [List.cons_append, List.nil_append]
    rw [utf8Run_lead (by omega) (lead_of_three (by omega)),
      utf8Run_more (by omega) (by simp only; split <;> omega) (by simp only; split <;> omega) (by simp),
      utf8Run_last (by omega) (by simp) (by simp; omega) rfl, hbits, hchar]
  | case4 v h h' h'' =>
    have hbits : ((v / 262144 % 0x08 * 64 + v / 4096 % 0x40) * 64 + v / 64 % 0x40) * 64 + v % 0x40 = v := by omega
    simp only [List.cons_append, List.nil_append]
    rw [utf8Run_lead (by omega) (lead_of_four (by omega)),
      utf8Run_more (by omega) (by simp only; split <;> omega) (by simp only; split <;> omega) (by simp),
      utf8Run_more (by omega) (by simp) (by simp; omega) (by simp), utf8Run_last (by omega) (by simp) (by simp; omega) rfl,
      hbits, hchar]

theorem utf8Run_flatMap (cs : List Char) : utf8Run none (cs.flatMap String.utf8EncodeChar) = cs := by
  induction cs with
  | nil => rfl
  | cons c cs ih => rw [List.flatMap_cons, utf8Run_utf8EncodeChar, ih]

/-! ## Texts -/

theorem toList_loop_eq (octets : ByteArray) (i : Nat) (done : List UInt8) :
    ByteArray.toList.loop octets i done = done.reverse ++ octets.data.toList.drop i := by
  fun_induction ByteArray.toList.loop octets i done with
  | case1 i done h ih =>
    have hi : i < octets.data.toList.length := h
    rw [ih, List.drop_eq_getElem_cons hi]
    simp [ByteArray.get!, h]
  | case2 i done h =>
    rw [List.drop_eq_nil_of_le (Nat.le_of_not_lt h), List.append_nil]

theorem toUTF8_eq_flatMap (s : String) : s.toUTF8.toList = s.toList.flatMap String.utf8EncodeChar := by
  rw [String.toUTF8_eq_toByteArray, ← String.utf8Encode_toList, ByteArray.toList, toList_loop_eq]
  simp [List.utf8Encode]

/-- the octets of characters are decoded to their units -/
theorem utf8Decode_toUTF8 (s : String) : utf8Decode s.toUTF8.toList = toUnits s.toList := by
  rw [utf8Decode, toUTF8_eq_flatMap, utf8Run_flatMap]

/-- the octets of a whole text are decoded to that text -/
theorem utf8Decode_utf8Encode {text : List Char} (h : Whole text) : utf8Decode (utf8Encode text) = text := by
  obtain ⟨chars, rfl⟩ := h
  rw [utf8Decode, utf8Encode, ofUnits_toUnits, utf8Run_flatMap]

end LayeredProfiles
