/-
The text of a number is read as that number.

A number is written with the digits of its shortest decimal, in one of four layouts: as a whole number with zeros behind the digits,
with the point among the digits, with zeros in front of them, or with an exponent. Each layout is a text of the grammar of numbers for
the same decimal (`Number.exists_layout`), and the decimal is rounded to the number that was written
(`Number.ofDecimal_of_roundsTo`).

Main statement: `Number.read?_text_of_proper`.
-/
import LayeredProfiles.Proofs.Binary64Rounding
import LayeredProfiles.Proofs.Decimals

namespace LayeredProfiles

open Binary64 (RoundsTo)

variable {digits cs : List Char} {n k : ℕ} {e : ℤ} {negative : Bool} {x : Binary64}

/-! ## The digits of natural numbers -/

theorem decimalValue_eq (cs : List Char) : decimalValue cs = Nat.ofDigitChars 10 cs 0 := rfl

theorem decimalValue_toDigits (n : ℕ) : decimalValue (Nat.toDigits 10 n) = n := Nat.ofDigitChars_ten_toDigits

theorem decimalValue_append_zeros (cs : List Char) (k : ℕ) :
    decimalValue (cs ++ List.replicate k '0') = decimalValue cs * 10 ^ k := by
  rw [decimalValue_eq, Nat.ofDigitChars_append, Nat.ofDigitChars_replicate_zero, mul_comm]
  rfl

theorem decimalValue_zeros_append (k : ℕ) (cs : List Char) : decimalValue (List.replicate k '0' ++ cs) = decimalValue cs := by
  rw [decimalValue_eq, Nat.ofDigitChars_append, Nat.ofDigitChars_replicate_zero, mul_zero]
  rfl

theorem digits_toDigits (n : ℕ) : Digits (Nat.toDigits 10 n) :=
  ⟨Nat.toDigits_ne_nil, fun _ hc => Nat.isDigit_of_mem_toDigits (by decide) (by decide) hc⟩

theorem Digits.append (h : Digits digits) (hcs : ∀ c ∈ cs, c.isDigit = true) : Digits (digits ++ cs) :=
  ⟨by simp [h.1], fun c hc => (List.mem_append.1 hc).elim (h.2 c) (hcs c)⟩

/-- digits that begin with a zero write a number with fewer of them -/
theorem head_toDigits_ne_zero (hn : 0 < n) : (Nat.toDigits 10 n).head? ≠ some '0' := by
  induction n using Nat.strongRecOn with
  | _ n ih =>
    by_cases hlt : n < 10
    · rw [Nat.toDigits_of_lt_base hlt]
      simpa using hn.ne'
    · rw [Nat.toDigits_of_base_le (by decide) (not_lt.1 hlt), List.head?_append_of_ne_nil _ Nat.toDigits_ne_nil]
      exact ih (n / 10) (Nat.div_lt_self hn (by decide)) (by omega)

namespace Number

/-! ## Decimals between the half-way points -/

/-- the number of digits bounds a decimal from both sides -/
theorem decimal_bounds (hn : 0 < n) (e : ℤ) :
    (10 : ℚ) ^ ((Binary64.decimalLength n : ℤ) + e - 1) ≤ n * 10 ^ e ∧
      (n : ℚ) * 10 ^ e < 10 ^ ((Binary64.decimalLength n : ℤ) + e) := by
  have hten : (10 : ℚ) ≠ 0 := by norm_num
  have hpos : (0 : ℚ) < 10 ^ e := zpow_pos (by norm_num) e
  obtain ⟨k, hk⟩ : ∃ k, Binary64.decimalLength n = k + 1 := Nat.exists_eq_add_one.2 Nat.length_toDigits_pos
  have hle : 10 ^ k ≤ n := by
    cases k with
    | zero => exact hn
    | succ k =>
      by_contra hlt
      have hshort := (Nat.length_toDigits_le_iff (by decide) k.succ_pos).2 (not_le.1 hlt)
      exact absurd (hk.symm.le.trans hshort) (by omega)
  have hlt : n < 10 ^ (k + 1) := (Nat.length_toDigits_le_iff (by decide) k.succ_pos).1 hk.le
  rw [hk]
  constructor
  · rw [show ((k + 1 : ℕ) : ℤ) + e - 1 = k + e by push_cast; ring, zpow_add₀ hten, zpow_natCast]
    exact mul_le_mul_of_nonneg_right (by exact_mod_cast hle) hpos.le
  · rw [zpow_add₀ hten, zpow_natCast]
    exact mul_lt_mul_of_pos_right (by exact_mod_cast hlt) hpos

theorem greatest_lt_ten_zpow : (2 : ℚ) ^ (1024 : ℤ) ≤ 10 ^ (310 : ℤ) := by
  have h : 2 ^ 1024 ≤ 10 ^ 310 := by decide +kernel
  exact_mod_cast h

theorem ten_zpow_le_least : (10 : ℚ) ^ (-330 : ℤ) ≤ 2 ^ (-1075 : ℤ) := by
  have h : 2 ^ 1075 ≤ 10 ^ 330 := by decide +kernel
  rw [zpow_neg, zpow_neg]
  exact inv_anti₀ (zpow_pos two_pos _) (by exact_mod_cast h)

/-- values are neither so small nor so great that a decimal is taken for zero or for infinity by its digits alone -/
theorem length_bounds (hx : x.Proper) (hn : 0 < n) (h : RoundsTo (n * 10 ^ e) x) :
    -330 ≤ (Binary64.decimalLength n : ℤ) + e ∧ (Binary64.decimalLength n : ℤ) + e ≤ 310 := by
  obtain ⟨hlow, hhigh⟩ := decimal_bounds hn e
  constructor
  · by_contra hlt
    have hvalue : (2 : ℚ) ^ (-1075 : ℤ) ≤ n * 10 ^ e := by
      have hmantissa : (1 : ℚ) ≤ x.mantissa := by exact_mod_cast hx.positive
      calc (2 : ℚ) ^ (-1075 : ℤ) = 1 / 2 * 2 ^ (-1074 : ℤ) := by
            rw [show (-1075 : ℤ) = -1 + -1074 from rfl, zpow_add₀ two_ne_zero]
            norm_num
        _ ≤ (x.mantissa - x.stepBelow) * 2 ^ x.exponent :=
          mul_le_mul (by linarith [x.stepBelow_le]) (zpow_le_zpow_right₀ one_le_two hx.least) (zpow_pos two_pos _).le
            (by linarith [x.stepBelow_le])
        _ ≤ n * 10 ^ e := h.low
    have hsmall : (10 : ℚ) ^ ((Binary64.decimalLength n : ℤ) + e) ≤ 10 ^ (-330 : ℤ) :=
      zpow_le_zpow_right₀ (by norm_num) (by omega)
    exact absurd ((hvalue.trans_lt hhigh).trans_le hsmall) ten_zpow_le_least.not_gt
  · by_contra hgt
    have htop : x.exponent + 53 ≤ 1024 := Int.add_le_add_right hx.greatest 53
    have hvalue : (n : ℚ) * 10 ^ e < 2 ^ (1024 : ℤ) := (h.lt_top hx).trans_le (zpow_le_zpow_right₀ one_le_two htop)
    have hgreat : (10 : ℚ) ^ (310 : ℤ) ≤ 10 ^ ((Binary64.decimalLength n : ℤ) + e - 1) :=
      zpow_le_zpow_right₀ (by norm_num) (by omega)
    exact absurd ((hgreat.trans hlow).trans_lt hvalue) greatest_lt_ten_zpow.not_gt

/-- a decimal between the half-way points of a value is read as the value -/
theorem ofDecimal_of_roundsTo (hx : x.Proper) (h : RoundsTo (n * 10 ^ e) x) :
    ofDecimal negative n e = .finite negative x := by
  have hn : 0 < n := by
    rcases Nat.eq_zero_or_pos n with rfl | hn
    · exact absurd (h.pos hx) (by simp)
    · exact hn
  obtain ⟨hleast, hgreatest⟩ := length_bounds hx hn h
  have hscale : Binary64.ratio (Binary64.scale 10 e n 1) = n * 10 ^ e := by
    rw [Binary64.ratio_scale (by decide), Nat.cast_one, div_one]
    rfl
  have hnearest : Binary64.nearest? (Binary64.scale 10 e n 1).1 (Binary64.scale 10 e n 1).2 = some x := by
    have hden : 0 < (Binary64.scale 10 e n 1).2 := Binary64.scale_den_pos (by decide) one_pos
    have hnum : 0 < (Binary64.scale 10 e n 1).1 := Binary64.scale_num_pos (by decide) hn
    exact Binary64.nearest?_of_roundsTo hx hnum hden (by rw [← Binary64.ratio, hscale]; exact h)
  have hmantissa : x.mantissa ≠ 0 := hx.positive.ne'
  unfold ofDecimal
  rw [if_neg (by simp; omega), if_neg (by omega)]
  simp only [hnearest, if_neg hmantissa]

/-! ## Layouts -/

/-- a decimal in the grammar of numbers, whose text but for the sign is `cs` and which has the value of `digits · 10 ^ e` -/
structure LaidOut (digits : List Char) (e : ℤ) (cs : List Char) (d : Decimal) : Prop where
  wellFormed : d.WellFormed
  text : d.whole ++ (d.fractionText ++ d.exponentText) = cs
  value : (decimalValue (d.whole ++ d.fraction) : ℚ) * 10 ^ (d.power - d.fraction.length) = decimalValue digits * 10 ^ e

section Layouts

variable {point : ℤ} (hd : Digits digits) (hz : digits.head? ≠ some '0')

theorem noLeadingZero_of_head {whole : List Char} (h : whole.head? ≠ some '0') : ∀ rest, whole = '0' :: rest → rest = [] := by
  rintro rest rfl
  exact absurd rfl h

theorem value_signed (p : ℤ) :
    Exponent.value ⟨'e', some (if p < 0 then '-' else '+'), Nat.toDigits 10 p.natAbs⟩ = p := by
  unfold Exponent.value
  simp only [decimalValue_toDigits]
  by_cases hp : p < 0
  · rw [if_pos hp, if_pos rfl]
    omega
  · rw [if_neg hp, if_neg (by decide)]
    omega

include hd hz

/-- zeros behind the digits -/
theorem laidOut_whole (k : ℕ) (negative : Bool) :
    LaidOut digits k (digits ++ List.replicate k '0') ⟨negative, digits ++ List.replicate k '0', none, none⟩ where
  wellFormed :=
    { whole := hd.append fun c hc => by rw [List.eq_of_mem_replicate hc]; rfl
      noLeadingZero := noLeadingZero_of_head (by rwa [List.head?_append_of_ne_nil _ hd.1])
      fraction := fun digits hd => nomatch hd
      exponent := fun e he => nomatch he }
  text := List.append_nil _
  value := by simp [Decimal.fraction, Decimal.power, decimalValue_append_zeros]

/-- the point among the digits -/
theorem laidOut_pointed (hk : 0 < k) (hlt : k < digits.length) (he : (k : ℤ) = digits.length + e) (negative : Bool) :
    LaidOut digits e (digits.take k ++ '.' :: digits.drop k) ⟨negative, digits.take k, some (digits.drop k), none⟩ where
  wellFormed :=
    { whole := by
        refine ⟨?_, fun c hc => hd.2 c (List.mem_of_mem_take hc)⟩
        rw [Ne, List.take_eq_nil_iff]
        simp [hk.ne', hd.1]
      noLeadingZero := noLeadingZero_of_head (by rwa [List.head?_take, if_neg hk.ne'])
      fraction := by
        intro fraction hfraction
        cases hfraction
        exact ⟨by rw [Ne, List.drop_eq_nil_iff]; omega, fun c hc => hd.2 c (List.mem_of_mem_drop hc)⟩
      exponent := fun e he => nomatch he }
  text := by simp [Decimal.fractionText, Decimal.exponentText]
  value := by
    have hlength : (digits.drop k).length = digits.length - k := List.length_drop
    have hpower : (0 : ℤ) - ((digits.drop k).length : ℤ) = e := by omega
    simp [Decimal.fraction, Decimal.power, ← hpower]

omit hz in
/-- zeros between the point and the digits -/
theorem laidOut_small (he : -(k : ℤ) = digits.length + e) (negative : Bool) :
    LaidOut digits e ('0' :: '.' :: (List.replicate k '0' ++ digits))
      ⟨negative, ['0'], some (List.replicate k '0' ++ digits), none⟩ where
  wellFormed :=
    { whole := ⟨List.cons_ne_nil _ _, fun c hc => by rw [List.mem_singleton.1 hc]; rfl⟩
      noLeadingZero := fun rest h => (List.cons.inj h).2.symm
      fraction := by
        intro fraction hfraction
        cases hfraction
        refine ⟨by simp [hd.1], fun c hc => ?_⟩
        rcases List.mem_append.1 hc with hc | hc
        · rw [List.eq_of_mem_replicate hc]
          rfl
        · exact hd.2 c hc
      exponent := fun e he => nomatch he }
  text := by simp [Decimal.fractionText, Decimal.exponentText]
  value := by
    have hlength : (List.replicate k '0' ++ digits).length = k + digits.length := by simp
    have hpower : (0 : ℤ) - ((List.replicate k '0' ++ digits).length : ℤ) = e := by omega
    have hdigits : decimalValue (['0'] ++ (List.replicate k '0' ++ digits)) = decimalValue digits := by
      rw [show ['0'] = List.replicate 1 '0' from rfl, decimalValue_zeros_append, decimalValue_zeros_append]
    simp only [Decimal.fraction, Decimal.power, Option.getD_some, Option.map_none, Option.getD_none, hdigits, hpower]

/-- one digit before the point, the others, if there are any, behind it, and an exponent -/
theorem laidOut_exponent {p : ℤ} (he : p + 1 = digits.length + e) (negative : Bool) :
    LaidOut digits e
      (digits.take 1 ++ (if digits.tail = [] then [] else '.' :: digits.tail) ++
        'e' :: (if p < 0 then '-' else '+') :: Nat.toDigits 10 p.natAbs)
      ⟨negative, digits.take 1, if digits.tail = [] then none else some digits.tail,
        some ⟨'e', some (if p < 0 then '-' else '+'), Nat.toDigits 10 p.natAbs⟩⟩ where
  wellFormed :=
    { whole := by
        refine ⟨?_, fun c hc => hd.2 c (List.mem_of_mem_take hc)⟩
        rw [Ne, List.take_eq_nil_iff]
        simp [hd.1]
      noLeadingZero := noLeadingZero_of_head (by rwa [List.head?_take, if_neg one_ne_zero])
      fraction := by
        intro fraction hfraction
        split at hfraction
        · cases hfraction
        · rename_i htail
          cases hfraction
          exact ⟨htail, fun c hc => hd.2 c (List.mem_of_mem_tail hc)⟩
      exponent := by
        intro exponent hexponent
        cases hexponent
        refine ⟨.inl rfl, ?_, digits_toDigits _⟩
        intro c hc
        cases hc
        split
        · exact .inr rfl
        · exact .inl rfl }
  text := by
    by_cases htail : digits.tail = [] <;> simp [htail, Decimal.fractionText, Decimal.exponentText, Exponent.text]
  value := by
    have hfraction : (if digits.tail = [] then none else some digits.tail).getD [] = digits.tail := by
      split
      · rename_i htail
        exact htail.symm
      · rfl
    have hsplit : digits.take 1 ++ digits.tail = digits := by
      rw [← List.drop_one, List.take_append_drop]
    have hlength : 0 < digits.length := List.length_pos_of_ne_nil hd.1
    have htail : digits.tail.length = digits.length - 1 := List.length_tail
    have hpower : p - (digits.tail.length : ℤ) = e := by omega
    simp only [Decimal.fraction, Decimal.power, hfraction, hsplit, Option.map_some, Option.getD_some, value_signed, hpower]

end Layouts

/-- what the digits of a number are laid out as is a text of their decimal -/
theorem exists_layout (hd : Digits digits) (hz : digits.head? ≠ some '0') (e : ℤ) (negative : Bool) :
    ∃ d : Decimal, d.negative = negative ∧ LaidOut digits e (layout digits (digits.length + e)) d := by
  unfold layout
  simp only [Bool.and_eq_true, decide_eq_true_eq]
  split
  · rename_i hwhole
    obtain ⟨k, rfl⟩ := Int.eq_ofNat_of_zero_le (show 0 ≤ e by omega)
    rw [add_sub_cancel_left]
    exact ⟨_, rfl, laidOut_whole hd hz k negative⟩
  split
  · rename_i hwhole hpointed
    obtain ⟨k, hk⟩ := Int.eq_ofNat_of_zero_le (show 0 ≤ digits.length + e by omega)
    rw [hk]
    exact ⟨_, rfl, laidOut_pointed hd hz (by omega) (by omega) hk.symm negative⟩
  split
  · rename_i hsmall
    obtain ⟨k, hk⟩ := Int.eq_ofNat_of_zero_le (show 0 ≤ -((digits.length : ℤ) + e) by omega)
    rw [hk]
    exact ⟨_, rfl, laidOut_small hd (by omega) negative⟩
  · have hpower : (digits.length : ℤ) + e - 1 + 1 = digits.length + e := sub_add_cancel _ _
    have hlaid := laidOut_exponent hd hz hpower negative
    cases htail : digits.tail with
    | nil =>
      rw [if_pos htail] at hlaid
      exact ⟨_, rfl, hlaid⟩
    | cons c rest =>
      rw [if_neg (htail ▸ List.cons_ne_nil c rest), htail] at hlaid
      exact ⟨_, rfl, hlaid⟩

/-! ## Main result -/

/-- the numbers that there are: zero has no sign and one form, and the others are values of binary floating point -/
def Proper : Number → Prop
  | .finite negative x => x.Proper ∨ negative = false ∧ x = .zero
  | .infinite _ => False

/-- every decimal is rounded to a number that there is, or to an infinite one -/
theorem proper_ofDecimal (negative : Bool) (n : ℕ) (e : ℤ) :
    (ofDecimal negative n e).Proper ∨ ofDecimal negative n e = .infinite negative := by
  have hzero : zero.Proper := .inr ⟨rfl, rfl⟩
  unfold ofDecimal
  simp only [Bool.or_eq_true, decide_eq_true_eq]
  split
  · exact .inl hzero
  rename_i hn
  split
  · exact .inr rfl
  have hden : 0 < (Binary64.scale 10 e n 1).2 := Binary64.scale_den_pos (by decide) one_pos
  have hnum : 0 < (Binary64.scale 10 e n 1).1 := Binary64.scale_num_pos (by decide) (by omega)
  cases hnearest : Binary64.nearest? (Binary64.scale 10 e n 1).1 (Binary64.scale 10 e n 1).2 with
  | none => exact .inr rfl
  | some x =>
    simp only
    split
    · exact .inl hzero
    · rename_i hmantissa
      exact .inl (.inl ((Binary64.proper_of_nearest? hnum hden hnearest).resolve_left hmantissa))

/-- what is read as a number is one that there is, or infinite -/
theorem text_of_positive (hx : 0 < x.mantissa) :
    (text (.finite negative x)).toList = (if negative then ['-'] else []) ++
      layout (Nat.toDigits 10 x.shortest.1) ((Nat.toDigits 10 x.shortest.1).length + x.shortest.2) := by
  rw [text, if_neg hx.ne', String.toList_ofList]

/-- the text of a number is read as that number -/
theorem read?_text_of_proper {number : Number} (h : number.Proper) : read? number.text.toList = some number := by
  cases number with
  | infinite negative => cases h
  | finite negative x =>
    rcases h with hx | ⟨rfl, rfl⟩
    · have hrounds : RoundsTo (x.shortest.1 * 10 ^ x.shortest.2) x := Binary64.roundsTo_shortest hx
      have hdigits : 0 < x.shortest.1 := by
        rcases Nat.eq_zero_or_pos x.shortest.1 with hzero | hpos
        · exact absurd (hrounds.pos hx) (by simp [hzero])
        · exact hpos
      obtain ⟨d, rfl, hd⟩ := exists_layout (digits_toDigits x.shortest.1) (head_toDigits_ne_zero hdigits) x.shortest.2 negative
      have hvalue : RoundsTo (decimalValue (d.whole ++ d.fraction) * 10 ^ (d.power - d.fraction.length)) x := by
        rw [hd.value, decimalValue_toDigits]
        exact hrounds
      refine read?_eq_some_iff.2 ⟨d, hd.wellFormed, ?_, ofDecimal_of_roundsTo hx hvalue⟩
      rw [text_of_positive hx.positive, Decimal.text, hd.text]
    · rfl

end Number

end LayeredProfiles
