/-
Which quotients round to a binary floating-point value, and that its shortest decimal is one of them.

The quotients that round to a value lie between two half-way points (`Binary64.RoundsTo`), which count themselves when the mantissa
is even; where the gap below is half of the gap above, the lower point is nearer. Everything is stated of the exact quotient, so that
`Binary64.scale` only changes how it is written (`Binary64.ratio_scale`).

Results:
- `Binary64.exponentFor_fits`, `Binary64.Fits.unique`: the exponent at which a quotient is rounded.
- `Binary64.nearest?_of_roundsTo`: rounding finds the value.
- `Binary64.readsBack_iff`, `Binary64.roundsTo_shortest`: the shortest decimal lies between the half-way points.
-/
import Mathlib.Tactic
import LayeredProfiles.Number.Binary64

namespace LayeredProfiles

namespace Binary64

variable {num den k digits : ℕ} {e e' : ℤ} {q : ℚ} {x : Binary64}

/-! ## Quotients -/

def ratio (p : ℕ × ℕ) : ℚ := p.1 / p.2

def value (x : Binary64) : ℚ := x.mantissa * 2 ^ x.exponent

theorem scale_den_pos {base : ℕ} (hb : 0 < base) (hd : 0 < den) : 0 < (scale base e num den).2 := by
  unfold scale
  split
  · exact hd
  · exact Nat.mul_pos hd (Nat.pow_pos hb)

theorem scale_num_pos {base : ℕ} (hb : 0 < base) (hn : 0 < num) : 0 < (scale base e num den).1 := by
  unfold scale
  split
  · exact Nat.mul_pos hn (Nat.pow_pos hb)
  · exact hn

theorem ratio_scale {base : ℕ} (hb : 0 < base) (e : ℤ) (num den : ℕ) :
    ratio (scale base e num den) = num / den * (base : ℚ) ^ e := by
  have hb' : (base : ℚ) ≠ 0 := Nat.cast_ne_zero.2 hb.ne'
  unfold scale ratio
  split
  · rename_i he
    lift e to ℕ using he with n
    show ((num * base ^ n : ℕ) : ℚ) / den = _
    rw [Nat.cast_mul, Nat.cast_pow, zpow_natCast, mul_div_right_comm]
  · rename_i he
    obtain ⟨n, rfl⟩ := Int.exists_eq_neg_ofNat (not_le.1 he).le
    show (num : ℚ) / ((den * base ^ (- -(n : ℤ)).toNat : ℕ) : ℚ) = _
    rw [neg_neg, Int.toNat_natCast, Nat.cast_mul, Nat.cast_pow, zpow_neg, zpow_natCast, ← div_div, div_eq_mul_inv (_ / _)]

theorem ratio_scale_neg {base : ℕ} (hb : 0 < base) (e : ℤ) (num den : ℕ) :
    ((scale base (-e) num den).1 : ℚ) / (scale base (-e) num den).2 = num / den / (base : ℚ) ^ e := by
  have hscale := ratio_scale hb (-e) num den
  rw [ratio] at hscale
  rw [hscale, zpow_neg, div_eq_mul_inv _ ((base : ℚ) ^ e)]

theorem ratio_quotient (x : Binary64) : ratio x.quotient = x.value := by
  rw [quotient, ratio_scale two_pos, value, Nat.cast_one, div_one]
  rfl

/-! ## The exponent of a quotient -/

/-- where a quotient is rounded: its mantissa has at most 53 binary digits, and not fewer unless the exponent is the least -/
structure Fits (e : ℤ) (q : ℚ) : Prop where
  least : minExponent ≤ e
  below : q < 2 ^ (e + 53)
  full : e = minExponent ∨ 2 ^ (e + 52) ≤ q

theorem Fits.le (h : Fits e q) (h' : Fits e' q) : e ≤ e' := by
  rcases h.full with rfl | hfull
  · exact h'.least
  · have hlt : (2 : ℚ) ^ (e + 52) < 2 ^ (e' + 53) := hfull.trans_lt h'.below
    have := (zpow_lt_zpow_iff_right₀ one_lt_two).1 hlt
    omega

theorem Fits.unique (h : Fits e q) (h' : Fits e' q) : e = e' := le_antisymm (h.le h') (h'.le h)

theorem two_zpow_log2_le (h : 0 < num) : (2 : ℚ) ^ (num.log2 : ℤ) ≤ num := by
  rw [zpow_natCast]
  exact_mod_cast Nat.log2_self_le h.ne'

theorem lt_two_zpow_log2 (num : ℕ) : (num : ℚ) < 2 ^ ((num.log2 : ℤ) + 1) := by
  rw [← Nat.cast_succ, zpow_natCast]
  exact_mod_cast Nat.lt_log2_self (n := num)

/-- the number of binary digits of a quotient is known up to one -/
theorem ratio_bounds (hn : 0 < num) (hd : 0 < den) :
    (2 : ℚ) ^ ((num.log2 : ℤ) - den.log2 - 1) < num / den ∧ (num : ℚ) / den < 2 ^ ((num.log2 : ℤ) - den.log2 + 1) := by
  have hd' : (0 : ℚ) < den := Nat.cast_pos.2 hd
  constructor
  · rw [lt_div_iff₀ hd']
    calc (2 : ℚ) ^ ((num.log2 : ℤ) - den.log2 - 1) * den
        < 2 ^ ((num.log2 : ℤ) - den.log2 - 1) * 2 ^ ((den.log2 : ℤ) + 1) :=
          mul_lt_mul_of_pos_left (lt_two_zpow_log2 den) (zpow_pos two_pos _)
      _ = 2 ^ (num.log2 : ℤ) := by rw [← zpow_add₀ two_ne_zero]; congr 1; ring
      _ ≤ num := two_zpow_log2_le hn
  · rw [div_lt_iff₀ hd']
    calc (num : ℚ) < 2 ^ ((num.log2 : ℤ) + 1) := lt_two_zpow_log2 num
      _ = 2 ^ ((num.log2 : ℤ) - den.log2 + 1) * 2 ^ (den.log2 : ℤ) := by rw [← zpow_add₀ two_ne_zero]; congr 1; ring
      _ ≤ 2 ^ ((num.log2 : ℤ) - den.log2 + 1) * den :=
          mul_le_mul_of_nonneg_left (two_zpow_log2_le hd) (zpow_pos two_pos _).le

theorem div_lt_iff_ratio (hd : 0 < den) (k : ℕ) : num / den < k ↔ (num : ℚ) / den < k := by
  rw [Nat.div_lt_iff_lt_mul hd, div_lt_iff₀ (Nat.cast_pos.2 hd)]
  exact_mod_cast Iff.rfl

theorem exponentFor_fits (hn : 0 < num) (hd : 0 < den) : Fits (exponentFor num den) (num / den) := by
  obtain ⟨hlow, hhigh⟩ := ratio_bounds hn hd
  set low := max minExponent ((num.log2 : ℤ) - (den.log2 : ℤ) - (precision : ℤ)) with hlowdef
  have hprecision : (precision : ℤ) = 53 := rfl
  have htest : (scale 2 (-low) num den).1 / (scale 2 (-low) num den).2 < Nat.pow 2 precision ↔
      (num : ℚ) / den < 2 ^ (low + 53) := by
    rw [div_lt_iff_ratio (scale_den_pos two_pos hd)]
    rw [ratio_scale_neg two_pos, Nat.cast_two, div_lt_iff₀ (zpow_pos two_pos _), add_comm low, zpow_add₀ two_ne_zero]
    norm_num [precision]
  have hexponent : exponentFor num den = if (num : ℚ) / den < 2 ^ (low + 53) then low else low + 1 := by
    by_cases h : (num : ℚ) / den < 2 ^ (low + 53)
    · rw [if_pos h]
      exact if_pos (htest.2 h)
    · rw [if_neg h]
      exact if_neg (mt htest.1 h)
  rw [hexponent]
  split
  · rename_i hlt
    refine ⟨le_max_left _ _, hlt, ?_⟩
    rcases max_choice minExponent ((num.log2 : ℤ) - (den.log2 : ℤ) - (precision : ℤ)) with hmax | hmax
    · exact .inl (hlowdef.trans hmax)
    · refine .inr (le_trans (zpow_le_zpow_right₀ one_le_two ?_) hlow.le)
      omega
  · rename_i hge
    have hleast : minExponent ≤ low := le_max_left _ _
    refine ⟨by omega, hhigh.trans_le (zpow_le_zpow_right₀ one_le_two ?_), .inr ?_⟩
    · have := le_max_right minExponent ((num.log2 : ℤ) - (den.log2 : ℤ) - (precision : ℤ))
      omega
    · rw [add_assoc, show (1 : ℤ) + 52 = 53 from rfl]
      exact not_lt.1 hge

/-! ## Rounding to a natural number -/

/-- what is nearer to a number than to its neighbours is rounded to it, and what lies half-way is rounded to the even one -/
theorem roundEven_eq (hd : 0 < den) (low : 2 * k * den ≤ 2 * num + den) (high : 2 * num ≤ 2 * k * den + den)
    (odd : k % 2 = 1 → 2 * k * den < 2 * num + den ∧ 2 * num < 2 * k * den + den) : roundEven num den = k := by
  have hsplit : num = den * (num / den) + num % den := (Nat.div_add_mod num den).symm
  have hmod : num % den < den := Nat.mod_lt num hd
  set quot := num / den with hquot
  set rest := num % den with hrest
  have hle : k ≤ quot + 1 := by
    have : 2 * k * den < (2 * quot + 3) * den := by linarith
    have := Nat.lt_of_mul_lt_mul_right this
    omega
  have hge : quot ≤ k := by
    have : 2 * quot * den < (2 * k + 2) * den := by linarith
    have := Nat.lt_of_mul_lt_mul_right this
    omega
  unfold roundEven
  rw [← hquot, ← hrest]
  simp only [Bool.or_eq_true, decide_eq_true_eq, Bool.and_eq_true, beq_iff_eq]
  rcases Nat.eq_or_lt_of_le hge with rfl | hlt
  · have hhalf : 2 * rest ≤ den := by linarith
    rw [if_pos]
    rcases Nat.lt_or_eq_of_le hhalf with h | h
    · exact .inl h
    · refine .inr ⟨h, ?_⟩
      by_contra hodd
      obtain ⟨-, hhigh⟩ := odd (by omega)
      linarith
  · obtain rfl : k = quot + 1 := by omega
    have hhalf : den ≤ 2 * rest := by linarith
    rw [if_neg]
    rintro (h | ⟨h, heven⟩)
    · omega
    · obtain ⟨hlow, -⟩ := odd (by omega)
      linarith

/-- the same for the exact quotient -/
theorem roundEven_of_ratio (hd : 0 < den) (low : (k : ℚ) - 1 / 2 ≤ num / den) (high : (num : ℚ) / den ≤ k + 1 / 2)
    (odd : k % 2 = 1 → (k : ℚ) - 1 / 2 < num / den ∧ (num : ℚ) / den < k + 1 / 2) : roundEven num den = k := by
  have hd' : (0 : ℚ) < den := Nat.cast_pos.2 hd
  rw [le_div_iff₀ hd'] at low
  rw [div_le_iff₀ hd'] at high
  rw [lt_div_iff₀ hd', div_lt_iff₀ hd'] at odd
  refine roundEven_eq hd ?_ ?_ fun hk => ⟨?_, ?_⟩
  · have : (2 * k * den : ℚ) ≤ 2 * num + den := by linarith
    exact_mod_cast this
  · have : (2 * num : ℚ) ≤ 2 * k * den + den := by linarith
    exact_mod_cast this
  · have : (2 * k * den : ℚ) < 2 * num + den := by linarith [(odd hk).1]
    exact_mod_cast this
  · have : (2 * num : ℚ) < 2 * k * den + den := by linarith [(odd hk).2]
    exact_mod_cast this

/-- the same in units of a power of two -/
theorem roundEven_scale (hd : 0 < den) (low : ((k : ℚ) - 1 / 2) * 2 ^ e ≤ num / den)
    (high : (num : ℚ) / den ≤ (k + 1 / 2) * 2 ^ e)
    (odd : k % 2 = 1 → ((k : ℚ) - 1 / 2) * 2 ^ e < num / den ∧ (num : ℚ) / den < (k + 1 / 2) * 2 ^ e) :
    roundEven (scale 2 (-e) num den).1 (scale 2 (-e) num den).2 = k := by
  have hpow : (0 : ℚ) < 2 ^ e := zpow_pos two_pos e
  have hratio : ((scale 2 (-e) num den).1 : ℚ) / (scale 2 (-e) num den).2 = num / den / 2 ^ e :=
    ratio_scale_neg two_pos e num den
  refine roundEven_of_ratio (scale_den_pos two_pos hd) ?_ ?_ fun hodd => ⟨?_, ?_⟩
  · rwa [hratio, le_div_iff₀ hpow]
  · rwa [hratio, div_le_iff₀ hpow]
  · rw [hratio, lt_div_iff₀ hpow]
    exact (odd hodd).1
  · rw [hratio, div_lt_iff₀ hpow]
    exact (odd hodd).2

/-! ## Values and their half-way points -/

/-- the positive values that there are: the mantissa is as long as it can be, unless the exponent is the least -/
structure Proper (x : Binary64) : Prop where
  positive : 0 < x.mantissa
  short : x.mantissa < 2 ^ 53
  least : minExponent ≤ x.exponent
  greatest : x.exponent ≤ maxExponent
  full : 2 ^ 52 ≤ x.mantissa ∨ x.exponent = minExponent

/-- half of the way to the next value below, in units of the mantissa -/
def stepBelow (x : Binary64) : ℚ := if x.narrowBelow then 1 / 4 else 1 / 2

/-- the quotients that are rounded to a value: they lie between the half-way points, which count when the mantissa is even -/
structure RoundsTo (q : ℚ) (x : Binary64) : Prop where
  low : (x.mantissa - x.stepBelow) * 2 ^ x.exponent ≤ q
  high : q ≤ (x.mantissa + 1 / 2) * 2 ^ x.exponent
  odd : x.mantissa % 2 = 1 → (x.mantissa - x.stepBelow) * 2 ^ x.exponent < q ∧ q < (x.mantissa + 1 / 2) * 2 ^ x.exponent

theorem stepBelow_pos (x : Binary64) : 0 < x.stepBelow := by
  unfold stepBelow
  split <;> norm_num

theorem stepBelow_le (x : Binary64) : x.stepBelow ≤ 1 / 2 := by
  unfold stepBelow
  split <;> norm_num

/-- a value is rounded to itself -/
theorem roundsTo_value (x : Binary64) : RoundsTo x.value x := by
  have hpow : (0 : ℚ) < 2 ^ x.exponent := zpow_pos two_pos _
  have hlow : ((x.mantissa : ℚ) - x.stepBelow) * 2 ^ x.exponent < x.value :=
    mul_lt_mul_of_pos_right (by linarith [x.stepBelow_pos]) hpow
  have hhigh : x.value < ((x.mantissa : ℚ) + 1 / 2) * 2 ^ x.exponent := mul_lt_mul_of_pos_right (by linarith) hpow
  exact ⟨hlow.le, hhigh.le, fun _ => ⟨hlow, hhigh⟩⟩

theorem narrowBelow_iff : x.narrowBelow = true ↔ x.mantissa = 2 ^ 52 ∧ minExponent < x.exponent := by
  simp [narrowBelow, precision]

namespace RoundsTo

theorem lt_top (hx : x.Proper) (h : RoundsTo q x) : q < 2 ^ (x.exponent + 53) := by
  have hm : (x.mantissa : ℚ) + 1 / 2 < 2 ^ (53 : ℤ) := by
    have : (x.mantissa : ℚ) + 1 ≤ 2 ^ 53 := by exact_mod_cast hx.short
    norm_num at this ⊢
    linarith
  calc q ≤ (x.mantissa + 1 / 2) * 2 ^ x.exponent := h.high
    _ < 2 ^ (53 : ℤ) * 2 ^ x.exponent := mul_lt_mul_of_pos_right hm (zpow_pos two_pos _)
    _ = 2 ^ (x.exponent + 53) := by rw [← zpow_add₀ two_ne_zero, add_comm]

theorem pos (hx : x.Proper) (h : RoundsTo q x) : 0 < q := by
  refine lt_of_lt_of_le (mul_pos ?_ (zpow_pos two_pos _)) h.low
  have : (1 : ℚ) ≤ x.mantissa := by exact_mod_cast hx.positive
  linarith [x.stepBelow_le]

/-- the quotient is rounded at the exponent of the value, or it lies below a power of two and is rounded up to it -/
theorem fits_or (hx : x.Proper) (h : RoundsTo q x) :
    Fits x.exponent q ∨ x.narrowBelow = true ∧ Fits (x.exponent - 1) q ∧ q < 2 ^ 52 * 2 ^ x.exponent := by
  have hpow : (0 : ℚ) < 2 ^ x.exponent := zpow_pos two_pos _
  by_cases hfull : x.exponent = minExponent ∨ 2 ^ (x.exponent + 52) ≤ q
  · exact .inl ⟨hx.least, h.lt_top hx, hfull⟩
  obtain ⟨hleast, hlt⟩ := not_or.1 hfull
  rw [not_le, zpow_add₀ two_ne_zero, mul_comm] at hlt
  have hlt' : q < 2 ^ 52 * 2 ^ x.exponent := by exact_mod_cast hlt
  have hmantissa : (2 : ℚ) ^ 52 ≤ x.mantissa := by exact_mod_cast hx.full.resolve_right hleast
  have habove : minExponent < x.exponent := lt_of_le_of_ne hx.least (Ne.symm hleast)
  -- the mantissa is not above its least value, as the half-way point below would be too great
  have hbelow : ((x.mantissa : ℚ) - x.stepBelow) < 2 ^ 52 := lt_of_mul_lt_mul_right (h.low.trans_lt hlt') hpow.le
  have hpower : x.mantissa = 2 ^ 52 := by
    have : (x.mantissa : ℚ) < 2 ^ 52 + 1 := by linarith [x.stepBelow_le]
    have hle : x.mantissa < 2 ^ 52 + 1 := by exact_mod_cast this
    have hge : 2 ^ 52 ≤ x.mantissa := by exact_mod_cast hmantissa
    omega
  refine .inr ⟨narrowBelow_iff.2 ⟨hpower, habove⟩, ⟨by omega, ?_, .inr ?_⟩, hlt'⟩
  · calc q < 2 ^ 52 * 2 ^ x.exponent := hlt'
      _ = 2 ^ (x.exponent - 1 + 53) := by
        rw [show x.exponent - 1 + 53 = 52 + x.exponent by ring, zpow_add₀ two_ne_zero]
        norm_num
  · calc (2 : ℚ) ^ (x.exponent - 1 + 52) = 2 ^ 51 * 2 ^ x.exponent := by
          rw [show x.exponent - 1 + 52 = 51 + x.exponent by ring, zpow_add₀ two_ne_zero]
          norm_num
      _ ≤ (x.mantissa - x.stepBelow) * 2 ^ x.exponent := by
          refine mul_le_mul_of_nonneg_right ?_ hpow.le
          rw [hpower, Nat.cast_pow, Nat.cast_ofNat]
          linarith [x.stepBelow_le, show (2 : ℚ) ^ 51 + 1 / 2 ≤ 2 ^ 52 by norm_num]
      _ ≤ q := h.low

end RoundsTo

/-- a quotient at its exponent, and the mantissa that this gives: one that is too great by one digit is halved -/
theorem nearest?_of_fits (hn : 0 < num) (hd : 0 < den) (hfits : Fits e (num / den))
    (hround : roundEven (scale 2 (-e) num den).1 (scale 2 (-e) num den).2 = k) :
    nearest? num den =
      let x : Binary64 := if k = 2 ^ 53 then ⟨2 ^ 52, e + 1⟩ else ⟨k, e⟩
      if maxExponent < x.exponent then none else some x := by
  have hexponent : exponentFor num den = e := (exponentFor_fits hn hd).unique hfits
  unfold nearest?
  simp only [hexponent, hround]
  rfl

/-- rounding a quotient between the half-way points of a value gives the value -/
theorem nearest?_of_roundsTo (hx : x.Proper) (hn : 0 < num) (hd : 0 < den) (h : RoundsTo (num / den) x) :
    nearest? num den = some x := by
  have hgreatest := not_lt.2 hx.greatest
  rcases h.fits_or hx with hfits | ⟨hnarrow, hfits, hlt⟩
  · have hround : roundEven (scale 2 (-x.exponent) num den).1 (scale 2 (-x.exponent) num den).2 = x.mantissa := by
      have hbelow : ((x.mantissa : ℚ) - 1 / 2) * 2 ^ x.exponent ≤ (x.mantissa - x.stepBelow) * 2 ^ x.exponent :=
        mul_le_mul_of_nonneg_right (by linarith [x.stepBelow_le]) (zpow_pos two_pos _).le
      exact roundEven_scale hd (hbelow.trans h.low) h.high fun hodd =>
        ⟨hbelow.trans_lt (h.odd hodd).1, (h.odd hodd).2⟩
    rw [nearest?_of_fits hn hd hfits hround, if_neg hx.short.ne]
    exact if_neg hgreatest
  · -- the quotient is just below a power of two, and its mantissa is rounded up to one digit too many
    obtain ⟨hpower, -⟩ := narrowBelow_iff.1 hnarrow
    have hpow : (0 : ℚ) < 2 ^ (x.exponent - 1) := zpow_pos two_pos _
    have hhalf : (2 : ℚ) ^ x.exponent = 2 * 2 ^ (x.exponent - 1) := by
      rw [zpow_sub_one₀ two_ne_zero, mul_comm 2, inv_mul_cancel_right₀ two_ne_zero]
    have hround : roundEven (scale 2 (-(x.exponent - 1)) num den).1 (scale 2 (-(x.exponent - 1)) num den).2 = 2 ^ 53 := by
      have hlow := h.low
      rw [stepBelow, if_pos hnarrow, hpower, hhalf] at hlow
      rw [hhalf] at hlt
      refine roundEven_scale hd ?_ ?_ fun hodd => absurd hodd (by decide)
      · push_cast at hlow ⊢
        linarith
      · push_cast
        linarith
    rw [nearest?_of_fits hn hd hfits hround, if_pos rfl, sub_add_cancel]
    obtain ⟨mantissa, exponent⟩ := x
    obtain rfl : mantissa = 2 ^ 52 := hpower
    exact if_neg hgreatest

theorem div_le_roundEven (num den : ℕ) : num / den ≤ roundEven num den ∧ roundEven num den ≤ num / den + 1 := by
  unfold roundEven
  simp only
  split
  · exact ⟨le_rfl, Nat.le_succ _⟩
  · exact ⟨Nat.le_succ _, le_rfl⟩

/-- what rounding gives is zero or one of the values that there are -/
theorem proper_of_nearest? (hn : 0 < num) (hd : 0 < den) (h : nearest? num den = some x) : x.mantissa = 0 ∨ x.Proper := by
  have hfits := exponentFor_fits hn hd
  set e := exponentFor num den
  set mantissa := roundEven (scale 2 (-e) num den).1 (scale 2 (-e) num den).2 with hmantissa
  have hpow : (0 : ℚ) < 2 ^ e := zpow_pos two_pos _
  have hden : 0 < (scale 2 (-e) num den).2 := scale_den_pos two_pos hd
  have hratio := ratio_scale_neg two_pos e num den
  obtain ⟨hfloor, hceil⟩ := div_le_roundEven (scale 2 (-e) num den).1 (scale 2 (-e) num den).2
  have hshort : (scale 2 (-e) num den).1 / (scale 2 (-e) num den).2 < 2 ^ 53 := by
    have hbelow := hfits.below
    rw [add_comm, zpow_add₀ two_ne_zero] at hbelow
    rw [div_lt_iff_ratio hden, hratio, Nat.cast_two, div_lt_iff₀ hpow]
    exact_mod_cast hbelow
  have hfull : e = minExponent ∨ 2 ^ 52 ≤ (scale 2 (-e) num den).1 / (scale 2 (-e) num den).2 := by
    refine hfits.full.imp id fun hfull => ?_
    rw [add_comm, zpow_add₀ two_ne_zero] at hfull
    rw [← not_lt, div_lt_iff_ratio hden, not_lt, hratio, Nat.cast_two, le_div_iff₀ hpow]
    exact_mod_cast hfull
  rw [nearest?_of_fits hn hd hfits hmantissa.symm] at h
  by_cases hpower : mantissa = 2 ^ 53
  · simp only [if_pos hpower, Option.ite_none_left_eq_some, Option.some.injEq] at h
    obtain ⟨hgreatest, rfl⟩ := h
    have hleast := hfits.least
    exact .inr ⟨by positivity, by norm_num, by simp only; omega, not_lt.1 hgreatest, .inl le_rfl⟩
  · simp only [if_neg hpower, Option.ite_none_left_eq_some, Option.some.injEq] at h
    obtain ⟨hgreatest, rfl⟩ := h
    rcases Nat.eq_zero_or_pos mantissa with hzero | hpos
    · exact .inl hzero
    · exact .inr ⟨hpos, by simp only; omega, hfits.least, not_lt.1 hgreatest, hfull.symm.imp (fun h => h.trans hfloor) id⟩

/-! ## Decimals that read back -/

theorem cross_le_iff {p p' : ℕ × ℕ} (hp : 0 < p.2) (hp' : 0 < p'.2) : p.1 * p'.2 ≤ p'.1 * p.2 ↔ ratio p ≤ ratio p' := by
  rw [ratio, ratio, div_le_div_iff₀ (Nat.cast_pos.2 hp) (Nat.cast_pos.2 hp')]
  exact_mod_cast Iff.rfl

theorem cross_lt_iff {p p' : ℕ × ℕ} (hp : 0 < p.2) (hp' : 0 < p'.2) : p.1 * p'.2 < p'.1 * p.2 ↔ ratio p < ratio p' := by
  rw [ratio, ratio, div_lt_div_iff₀ (Nat.cast_pos.2 hp) (Nat.cast_pos.2 hp')]
  exact_mod_cast Iff.rfl

/-- the comparisons of `readsBack` are those with the half-way points -/
theorem readsBack_iff (hx : 0 < x.mantissa) : x.readsBack digits e = true ↔ RoundsTo (digits * 10 ^ e) x := by
  set decimal := scale 10 e digits 1 with hdecimal
  set low := scale 2 x.exponent (4 * x.mantissa - (if x.narrowBelow then 1 else 2)) 4 with hlow
  set high := scale 2 x.exponent (4 * x.mantissa + 2) 4 with hhigh
  have hunfold : x.readsBack digits e =
      if x.mantissa % 2 == 0 then decide (low.1 * decimal.2 ≤ decimal.1 * low.2) && decide (decimal.1 * high.2 ≤ high.1 * decimal.2)
      else decide (low.1 * decimal.2 < decimal.1 * low.2) && decide (decimal.1 * high.2 < high.1 * decimal.2) := rfl
  have hdecimal_pos : 0 < decimal.2 := scale_den_pos (by decide) one_pos
  have hlow_pos : 0 < low.2 := scale_den_pos two_pos (by decide)
  have hhigh_pos : 0 < high.2 := scale_den_pos two_pos (by decide)
  have hdecimal_eq : ratio decimal = digits * 10 ^ e := by
    rw [hdecimal, ratio_scale (by decide), Nat.cast_one, div_one]
    rfl
  have hlow_eq : ratio low = (x.mantissa - x.stepBelow) * 2 ^ x.exponent := by
    rw [hlow, ratio_scale two_pos, Nat.cast_two, stepBelow]
    congr 1
    split
    · rw [Nat.cast_sub (by omega)]
      push_cast
      ring
    · rw [Nat.cast_sub (by omega)]
      push_cast
      ring
  have hhigh_eq : ratio high = (x.mantissa + 1 / 2) * 2 ^ x.exponent := by
    rw [hhigh, ratio_scale two_pos, Nat.cast_two]
    congr 1
    push_cast
    ring
  rw [hunfold]
  split
  · rename_i heven
    rw [Bool.and_eq_true, decide_eq_true_eq, decide_eq_true_eq, cross_le_iff hlow_pos hdecimal_pos,
      cross_le_iff hdecimal_pos hhigh_pos, hlow_eq, hhigh_eq, hdecimal_eq]
    have hno : x.mantissa % 2 ≠ 1 := by simpa using heven
    exact ⟨fun h => ⟨h.1, h.2, fun hodd => absurd hodd hno⟩, fun h => ⟨h.low, h.high⟩⟩
  · rename_i hodd
    rw [Bool.and_eq_true, decide_eq_true_eq, decide_eq_true_eq, cross_lt_iff hlow_pos hdecimal_pos,
      cross_lt_iff hdecimal_pos hhigh_pos, hlow_eq, hhigh_eq, hdecimal_eq]
    have hone : x.mantissa % 2 = 1 := by simpa using hodd
    exact ⟨fun h => ⟨h.1.le, h.2.le, fun _ => h⟩, fun h => h.odd hone⟩

/-- taking zeros away does not change a decimal -/
theorem stripZeros_value (digits : ℕ) (e : ℤ) :
    ((stripZeros digits e).1 : ℚ) * 10 ^ (stripZeros digits e).2 = digits * 10 ^ e := by
  fun_induction stripZeros digits e with
  | case1 digits e h ih =>
    rw [ih, add_comm e, zpow_add₀ (by norm_num), zpow_one, ← mul_assoc]
    congr 1
    have hten : digits / 10 * 10 = digits := Nat.div_mul_cancel (Nat.dvd_of_mod_eq_zero h.2)
    exact_mod_cast hten
  | case2 => rfl

/-- the decimal of all digits that a value has -/
theorem exact_value (x : Binary64) :
    let exact : ℕ × ℤ := if 0 ≤ x.exponent then (x.quotient.1, 0)
      else (x.mantissa * Nat.pow 5 (-x.exponent).toNat, x.exponent)
    (exact.1 : ℚ) * 10 ^ exact.2 = x.value := by
  rw [← ratio_quotient, ratio]
  intro exact
  by_cases he : 0 ≤ x.exponent
  · have hexact : exact = (x.quotient.1, 0) := if_pos he
    have hden : x.quotient.2 = 1 := by simp [quotient, scale, he]
    rw [hexact, hden, zpow_zero, mul_one, Nat.cast_one, div_one]
  · have hexact : exact = (x.mantissa * 5 ^ (-x.exponent).toNat, x.exponent) := if_neg he
    obtain ⟨n, hn⟩ := Int.exists_eq_neg_ofNat (not_le.1 he).le
    have hquotient : x.quotient = (x.mantissa, 1 * 2 ^ (-x.exponent).toNat) := if_neg he
    rw [hexact, hquotient, hn, neg_neg, Int.toNat_natCast, zpow_neg, zpow_natCast]
    push_cast
    rw [show (10 : ℚ) = 5 * 2 by norm_num, mul_pow]
    field_simp

/-- of two candidates the first that reads back -/
theorem readsBack_of_candidates {first second : ℕ} {decimal : ℕ × ℤ}
    (h : (if x.readsBack first e then some (first, e) else if x.readsBack second e then some (second, e) else none) =
      some decimal) : x.readsBack decimal.1 decimal.2 = true := by
  split at h
  · rename_i hfirst
    cases h
    exact hfirst
  split at h
  · rename_i hsecond
    cases h
    exact hsecond
  · cases h

theorem readsBack_of_digits? {magnitude : ℤ} {n : ℕ} {decimal : ℕ × ℤ} (h : x.digits? magnitude n = some decimal) :
    x.readsBack decimal.1 decimal.2 = true := readsBack_of_candidates h

/-- the shortest decimal of a value rounds to it -/
theorem roundsTo_shortest (hx : x.Proper) : RoundsTo (x.shortest.1 * 10 ^ x.shortest.2) x := by
  set exact : ℕ × ℤ := if 0 ≤ x.exponent then (x.quotient.1, 0)
    else (x.mantissa * Nat.pow 5 (-x.exponent).toNat, x.exponent) with hexact
  set found := (List.range' 1 17).findSome? (x.digits? (magnitude x.quotient.1 x.quotient.2)) with hfound
  have hshortest : x.shortest = stripZeros (found.getD exact).1 (found.getD exact).2 := rfl
  rw [hshortest, stripZeros_value]
  cases hf : found with
  | none =>
    have hvalue := x.exact_value
    rw [Option.getD_none]
    exact hvalue ▸ x.roundsTo_value
  | some decimal =>
    obtain ⟨n, -, hn⟩ := List.exists_of_findSome?_eq_some (hfound.symm.trans hf)
    rw [Option.getD_some, ← readsBack_iff hx.positive]
    exact readsBack_of_digits? hn

end Binary64

end LayeredProfiles
