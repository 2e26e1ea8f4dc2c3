/-
How JSON writes numbers: a minus sign or none, a whole part without a zero in front of other digits, a fraction or none, an
exponent or none.

`Decimal` holds these parts as characters, so that its text and its value are functions of it, and says which parts a number may
have. It does not mention the reader.

Main statement: `Number.read?_eq_some_iff`, the reader takes exactly the texts of well-formed decimals, each for its value.
-/
import Mathlib.Data.List.TakeWhile
import Mathlib.Tactic
import LayeredProfiles.Json.Reader

namespace LayeredProfiles

/-! ## Decimals -/

/-- one digit or more -/
def Digits (cs : List Char) : Prop := cs ≠ [] ∧ ∀ c ∈ cs, c.isDigit = true

/-- an exponent: the letter, a sign or none, and digits -/
structure Exponent where
  letter : Char
  sign? : Option Char
  digits : List Char

namespace Exponent

def text (e : Exponent) : List Char := e.letter :: (e.sign?.toList ++ e.digits)

/-- the power of ten that an exponent stands for -/
def value (e : Exponent) : Int :=
  if e.sign? = some '-' then -(decimalValue e.digits : Int) else decimalValue e.digits

/-- what an exponent may be made of -/
structure WellFormed (e : Exponent) : Prop where
  letter : e.letter = 'e' ∨ e.letter = 'E'
  sign : ∀ c ∈ e.sign?, c = '+' ∨ c = '-'
  digits : Digits e.digits

end Exponent

/-- a number as it is written -/
structure Decimal where
  negative : Bool
  whole : List Char
  fraction? : Option (List Char)
  exponent? : Option Exponent

namespace Decimal

def fraction (d : Decimal) : List Char := d.fraction?.getD []

def power (d : Decimal) : Int := (d.exponent?.map Exponent.value).getD 0

def fractionText (d : Decimal) : List Char := (d.fraction?.map fun digits => '.' :: digits).getD []

def exponentText (d : Decimal) : List Char := (d.exponent?.map Exponent.text).getD []

def text (d : Decimal) : List Char := (if d.negative then ['-'] else []) ++ (d.whole ++ (d.fractionText ++ d.exponentText))

/-- the number that a decimal stands for -/
def value (d : Decimal) : Number :=
  .ofDecimal d.negative (decimalValue (d.whole ++ d.fraction)) (d.power - d.fraction.length)

/-- what a number may be made of -/
structure WellFormed (d : Decimal) : Prop where
  whole : Digits d.whole
  noLeadingZero : ∀ rest, d.whole = '0' :: rest → rest = []
  fraction : ∀ digits ∈ d.fraction?, Digits digits
  exponent : ∀ e ∈ d.exponent?, e.WellFormed

end Decimal

/-! ## The reader's parts -/

namespace Number

variable {cs digits rest : List Char} {n : Number}

/-- a text that does not begin with a digit -/
def NoDigit (cs : List Char) : Prop := ∀ c ∈ cs.head?, c.isDigit = false

theorem noDigit_dropWhile (cs : List Char) : NoDigit (cs.dropWhile Char.isDigit) := by
  induction cs with
  | nil => simp [NoDigit]
  | cons c cs ih =>
    by_cases hc : c.isDigit = true
    · rwa [List.dropWhile_cons_of_pos hc]
    · rw [List.dropWhile_cons_of_neg hc]
      simpa [NoDigit] using hc

theorem digits?_eq_some_iff : digits? cs = some (digits, rest) ↔ Digits digits ∧ NoDigit rest ∧ cs = digits ++ rest := by
  constructor
  · intro h
    simp only [digits?, List.isEmpty_iff] at h
    split at h
    · cases h
    · rename_i hne
      obtain ⟨rfl, rfl⟩ : cs.takeWhile Char.isDigit = digits ∧ cs.dropWhile Char.isDigit = rest := by simpa using h
      exact ⟨⟨hne, fun c hc => List.mem_takeWhile_imp hc⟩, noDigit_dropWhile cs, List.takeWhile_append_dropWhile.symm⟩
  · rintro ⟨⟨hne, hd⟩, hr, rfl⟩
    have hstop : rest.takeWhile Char.isDigit = [] ∧ rest.dropWhile Char.isDigit = rest := by
      cases rest with
      | nil => exact ⟨rfl, rfl⟩
      | cons c rest =>
        have hc : c.isDigit = false := hr c rfl
        exact ⟨List.takeWhile_cons_of_neg (by simp [hc]), List.dropWhile_cons_of_neg (by simp [hc])⟩
    simp [digits?, List.takeWhile_append_of_pos hd, List.dropWhile_append_of_pos hd, hstop, hne]

theorem whole?_eq_some_iff :
    whole? cs = some (digits, rest) ↔
      digits? cs = some (digits, rest) ∧ ∀ others, digits = '0' :: others → others = [] := by
  unfold whole?
  constructor
  · intro h
    split at h
    · cases h
    · rename_i hz
      refine ⟨h, fun others ho => ?_⟩
      cases others with
      | nil => rfl
      | cons c others => exact absurd (ho ▸ h) (hz _ _ _)
  · rintro ⟨h, hz⟩
    rw [h]
    split
    · rename_i heq
      have := hz _ (by simpa using congrArg (Option.map Prod.fst) heq)
      simp at this
    · rfl

/-- a fraction that stands at the front of a text, and what follows it -/
theorem fraction?_eq_some_iff :
    fraction? cs = some (digits, rest) ↔
      (∃ tail, cs = '.' :: tail ∧ digits? tail = some (digits, rest)) ∨
        (∀ tail, cs ≠ '.' :: tail) ∧ digits = [] ∧ rest = cs := by
  unfold fraction?
  split
  · rename_i tail
    simp
  · rename_i hne
    constructor
    · intro h
      obtain ⟨rfl, rfl⟩ : [] = digits ∧ cs = rest := by simpa using h
      exact .inr ⟨hne, rfl, rfl⟩
    · rintro (⟨tail, rfl, -⟩ | ⟨-, rfl, rfl⟩)
      · exact absurd rfl (hne tail)
      · rfl

/-- digits up to the end of a text -/
theorem digits?_eq_some_nil_iff : digits? cs = some (digits, []) ↔ Digits digits ∧ cs = digits := by
  rw [digits?_eq_some_iff, List.append_nil]
  simp [NoDigit]

/-- whether a text begins with a minus sign, and what follows its sign -/
def afterSign : List Char → Bool × List Char
  | '-' :: cs => (true, cs)
  | '+' :: cs => (false, cs)
  | cs => (false, cs)

theorem exponent?_cons (c : Char) (cs : List Char) :
    exponent? (c :: cs) =
      if c = 'e' || c = 'E' then
        match digits? (afterSign cs).2 with
        | some (digits, []) => some (if (afterSign cs).1 then -(decimalValue digits : Int) else decimalValue digits)
        | _ => none
      else none := rfl

theorem exists_sign (cs : List Char) :
    ∃ sign? : Option Char, (∀ c ∈ sign?, c = '+' ∨ c = '-') ∧ cs = sign?.toList ++ (afterSign cs).2 ∧
      (afterSign cs).1 = decide (sign? = some '-') := by
  unfold afterSign
  split
  · exact ⟨some '-', by simp, rfl, rfl⟩
  · exact ⟨some '+', by simp, rfl, rfl⟩
  · exact ⟨none, by simp, rfl, rfl⟩

theorem afterSign_append {sign? : Option Char} (hs : ∀ c ∈ sign?, c = '+' ∨ c = '-') (hd : Digits digits) :
    afterSign (sign?.toList ++ digits) = (decide (sign? = some '-'), digits) := by
  cases sign? with
  | some c => rcases hs c rfl with rfl | rfl <;> rfl
  | none =>
    obtain ⟨hne, hd⟩ := hd
    rcases digits with _ | ⟨c, digits⟩
    · exact absurd rfl hne
    · have hc := hd c List.mem_cons_self
      simp only [Option.toList_none, List.nil_append]
      unfold afterSign
      split
      · rename_i heq
        obtain rfl : c = '-' := (List.cons.inj heq).1
        cases hc
      · rename_i heq
        obtain rfl : c = '+' := (List.cons.inj heq).1
        cases hc
      · rfl

theorem exponent?_eq_some_iff {value : Int} :
    exponent? cs = some value ↔ (cs = [] ∧ value = 0) ∨ ∃ e : Exponent, e.WellFormed ∧ e.text = cs ∧ e.value = value := by
  constructor
  · intro h
    cases cs with
    | nil => exact .inl ⟨rfl, by simpa [exponent?, eq_comm] using h⟩
    | cons c cs =>
      rw [exponent?_cons] at h
      split at h
      · rename_i hletter
        split at h
        · rename_i digits hdigits
          obtain ⟨hd, hrest⟩ := digits?_eq_some_nil_iff.1 hdigits
          obtain ⟨sign?, hsign, hcs, hneg⟩ := exists_sign cs
          refine .inr ⟨⟨c, sign?, digits⟩, ⟨by simpa using hletter, hsign, hd⟩, ?_, ?_⟩
          · rw [Exponent.text, ← hrest, ← hcs]
          · simpa [Exponent.value, hneg] using h
        · cases h
      · cases h
  · rintro (⟨rfl, rfl⟩ | ⟨e, he, rfl, rfl⟩)
    · rfl
    · rw [Exponent.text, exponent?_cons, afterSign_append he.sign he.digits, if_pos (by simpa using he.letter),
        digits?_eq_some_nil_iff.2 ⟨he.digits, rfl⟩]
      simp [Exponent.value]

/-! ## Numbers without sign -/

theorem unsigned?_eq_some_iff {negative : Bool} :
    unsigned? negative cs = some n ↔
      ∃ whole afterWhole fraction afterFraction power,
        whole? cs = some (whole, afterWhole) ∧ fraction? afterWhole = some (fraction, afterFraction) ∧
          exponent? afterFraction = some power ∧
          ofDecimal negative (decimalValue (whole ++ fraction)) (power - fraction.length) = n := by
  simp [unsigned?, Option.bind_eq_some_iff]

theorem head_exponentText {d : Decimal} (h : d.WellFormed) : ∀ c ∈ d.exponentText.head?, c = 'e' ∨ c = 'E' := by
  unfold Decimal.exponentText
  cases he : d.exponent? with
  | none => simp
  | some e => simpa [Exponent.text] using (h.exponent e he).letter

theorem noDigit_exponentText {d : Decimal} (h : d.WellFormed) : NoDigit d.exponentText := by
  intro c hc
  rcases head_exponentText h c hc with rfl | rfl <;> rfl

theorem noDigit_fractionText {d : Decimal} (h : d.WellFormed) : NoDigit (d.fractionText ++ d.exponentText) := by
  cases hf : d.fraction? with
  | none => simpa [Decimal.fractionText, hf] using noDigit_exponentText h
  | some digits => simp [NoDigit, Decimal.fractionText, hf]

theorem fraction?_text {d : Decimal} (h : d.WellFormed) :
    fraction? (d.fractionText ++ d.exponentText) = some (d.fraction, d.exponentText) := by
  apply fraction?_eq_some_iff.2
  cases hf : d.fraction? with
  | none =>
    refine .inr ⟨fun tail htail => ?_, by simp [Decimal.fraction, hf], by simp [Decimal.fractionText, hf]⟩
    have hpoint : '.' ∈ d.exponentText.head? := by
      rw [Decimal.fractionText, hf] at htail
      exact congrArg List.head? htail
    rcases head_exponentText h '.' hpoint with hc | hc <;> cases hc
  | some digits =>
    refine .inl ⟨digits ++ d.exponentText, by simp [Decimal.fractionText, hf], ?_⟩
    exact digits?_eq_some_iff.2
      ⟨by simpa [Decimal.fraction, hf] using h.fraction digits hf, noDigit_exponentText h, by simp [Decimal.fraction, hf]⟩

theorem exponent?_text {d : Decimal} (h : d.WellFormed) : exponent? d.exponentText = some d.power := by
  apply exponent?_eq_some_iff.2
  cases he : d.exponent? with
  | none => exact .inl ⟨by simp [Decimal.exponentText, he], by simp [Decimal.power, he]⟩
  | some e => exact .inr ⟨e, h.exponent e he, by simp [Decimal.exponentText, he], by simp [Decimal.power, he]⟩

theorem unsigned?_text {d : Decimal} (h : d.WellFormed) :
    unsigned? d.negative (d.whole ++ (d.fractionText ++ d.exponentText)) = some d.value := by
  have hwhole : whole? (d.whole ++ (d.fractionText ++ d.exponentText)) = some (d.whole, d.fractionText ++ d.exponentText) :=
    whole?_eq_some_iff.2 ⟨digits?_eq_some_iff.2 ⟨h.whole, noDigit_fractionText h, rfl⟩, h.noLeadingZero⟩
  exact unsigned?_eq_some_iff.2 ⟨_, _, _, _, _, hwhole, fraction?_text h, exponent?_text h, rfl⟩

theorem exists_decimal {negative : Bool} (h : unsigned? negative cs = some n) :
    ∃ d : Decimal, d.WellFormed ∧ d.negative = negative ∧ d.whole ++ (d.fractionText ++ d.exponentText) = cs ∧
      d.value = n := by
  obtain ⟨whole, afterWhole, fraction, afterFraction, power, hw, hf, he, rfl⟩ := unsigned?_eq_some_iff.1 h
  obtain ⟨hw, hzero⟩ := whole?_eq_some_iff.1 hw
  obtain ⟨hwhole, -, rfl⟩ := digits?_eq_some_iff.1 hw
  -- the fraction, which may be missing
  obtain ⟨fraction?, hfraction, rfl, rfl⟩ : ∃ fraction? : Option (List Char), (∀ digits ∈ fraction?, Digits digits) ∧
      fraction?.getD [] = fraction ∧ (fraction?.map fun digits => '.' :: digits).getD [] ++ afterFraction = afterWhole := by
    rcases fraction?_eq_some_iff.1 hf with ⟨tail, rfl, hd⟩ | ⟨-, rfl, rfl⟩
    · obtain ⟨hdigits, -, rfl⟩ := digits?_eq_some_iff.1 hd
      exact ⟨some fraction, fun x hx => Option.some.inj hx ▸ hdigits, rfl, rfl⟩
    · exact ⟨none, by simp, rfl, rfl⟩
  -- the exponent, which may be missing too
  obtain ⟨exponent?, hexponent, rfl, rfl⟩ : ∃ exponent? : Option Exponent, (∀ e ∈ exponent?, e.WellFormed) ∧
      (exponent?.map Exponent.text).getD [] = afterFraction ∧ (exponent?.map Exponent.value).getD 0 = power := by
    rcases exponent?_eq_some_iff.1 he with ⟨rfl, rfl⟩ | ⟨e, hwell, rfl, rfl⟩
    · exact ⟨none, by simp, rfl, rfl⟩
    · exact ⟨some e, fun x hx => Option.some.inj hx ▸ hwell, rfl, rfl⟩
  exact ⟨⟨negative, whole, fraction?, exponent?⟩, ⟨hwhole, hzero, hfraction, hexponent⟩, rfl, rfl, rfl⟩

/-! ## Main result -/

theorem read?_of_head {c : Char} (hc : c ≠ '-') (cs : List Char) : read? (c :: cs) = unsigned? false (c :: cs) := by
  unfold read?
  split
  · rename_i heq
    exact absurd (List.cons.inj heq).1 hc
  · rfl

/-- the reader takes exactly the texts of well-formed decimals, each for the decimal's value -/
theorem read?_eq_some_iff : read? cs = some n ↔ ∃ d : Decimal, d.WellFormed ∧ d.text = cs ∧ d.value = n := by
  constructor
  · intro h
    unfold read? at h
    split at h
    · obtain ⟨d, hd, hneg, rfl, hv⟩ := exists_decimal h
      exact ⟨d, hd, by simp [Decimal.text, hneg], hv⟩
    · obtain ⟨d, hd, hneg, rfl, hv⟩ := exists_decimal h
      exact ⟨d, hd, by simp [Decimal.text, hneg], hv⟩
  · rintro ⟨d, hd, rfl, rfl⟩
    have h := unsigned?_text hd
    cases hneg : d.negative with
    | true =>
      rw [hneg] at h
      simpa [Decimal.text, hneg, read?] using h
    | false =>
      obtain ⟨c, whole, hw⟩ := List.exists_cons_of_ne_nil hd.whole.1
      have hc : c ≠ '-' := by
        rintro rfl
        have := hd.whole.2 '-' (by simp [hw])
        cases this
      rw [hneg, hw, List.cons_append] at h
      rw [Decimal.text, hneg, hw, if_neg (by decide), List.nil_append, List.cons_append, read?_of_head hc, h]

end Number

end LayeredProfiles
