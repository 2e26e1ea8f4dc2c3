/-
Binary floating point with 53 binary digits, in exact arithmetic on natural numbers.

`Binary64.nearest?` rounds a positive quotient to the nearest value `mantissa · 2 ^ exponent`, a tie to the even mantissa.
`Binary64.shortest` goes back: of the decimals that round to a value it finds those with the fewest digits, and of these the
nearest one. Both compare by cross-multiplication, so nothing is lost on the way.
-/

namespace LayeredProfiles

/-- the non-negative value `mantissa · 2 ^ exponent` -/
structure Binary64 where
  mantissa : Nat
  exponent : Int
  deriving DecidableEq, Repr

namespace Binary64

/-- the number of binary digits of a mantissa -/
def precision : Nat := 53

def minExponent : Int := -1074

def maxExponent : Int := 971

def zero : Binary64 := ⟨0, minExponent⟩

/-! ## Rounding -/

/-- a quotient scaled by a power of the base, as numerator and denominator -/
def scale (base : Nat) (e : Int) (num den : Nat) : Nat × Nat :=
  if 0 ≤ e then (num * base.pow e.toNat, den) else (num, den * base.pow (-e).toNat)

/-- a quotient rounded to the nearest natural number, a tie to the even one -/
def roundEven (num den : Nat) : Nat :=
  let q := num / den
  let r := 2 * (num % den)
  if r < den || (r == den && q % 2 == 0) then q else q + 1

/-- the least exponent at which a positive quotient's mantissa does not have too many digits -/
def exponentFor (num den : Nat) : Int :=
  let low := max minExponent ((num.log2 : Int) - (den.log2 : Int) - (precision : Int))
  let (n, d) := scale 2 (-low) num den
  if n / d < Nat.pow 2 precision then low else low + 1

/-- the value nearest to a positive quotient; none when that lies above the greatest value -/
def nearest? (num den : Nat) : Option Binary64 :=
  let e := exponentFor num den
  let (n, d) := scale 2 (-e) num den
  let m := roundEven n d
  let x : Binary64 := if m = Nat.pow 2 precision then ⟨Nat.pow 2 (precision - 1), e + 1⟩ else ⟨m, e⟩
  if maxExponent < x.exponent then none else some x

/-! ## The fewest digits -/

def decimalLength (n : Nat) : Nat := (Nat.toDigits 10 n).length

/-- the least power of ten above a positive quotient -/
def magnitude (num den : Nat) : Int :=
  let k : Int := (decimalLength num : Int) - (decimalLength den : Int)
  let (n, d) := scale 10 (-k) num den
  if n < d then k else k + 1

/-- a value as quotient -/
def quotient (x : Binary64) : Nat × Nat := scale 2 x.exponent x.mantissa 1

/-- whether the gap below a value is half of the gap above it -/
def narrowBelow (x : Binary64) : Bool := x.mantissa == Nat.pow 2 (precision - 1) && minExponent < x.exponent

/-- whether the decimal `digits · 10 ^ e` rounds to `x`: it lies between the two half-way points, which count when the
mantissa is even -/
def readsBack (x : Binary64) (digits : Nat) (e : Int) : Bool :=
  let low := 4 * x.mantissa - (if x.narrowBelow then 1 else 2)
  let high := 4 * x.mantissa + 2
  let (n, d) := scale 10 e digits 1
  let (ln, ld) := scale 2 x.exponent low 4
  let (hn, hd) := scale 2 x.exponent high 4
  if x.mantissa % 2 == 0 then ln * d ≤ n * ld && n * hd ≤ hn * d
  else ln * d < n * ld && n * hd < hn * d

/-- the digits of a decimal with `n` digits that reads back as `x`, the nearer one where there are two, on a tie the even
one -/
def digits? (x : Binary64) (magnitude : Int) (n : Nat) : Option (Nat × Int) :=
  let e : Int := magnitude - n
  let (num, den) := x.quotient
  let (a, b) := scale 10 (-e) num den
  let floor := a / b
  let up := roundEven a b
  let other := if up = floor then floor + 1 else floor
  if x.readsBack up e then some (up, e)
  else if x.readsBack other e then some (other, e)
  else none

/-- a decimal without zeros at the end of its digits -/
def stripZeros (digits : Nat) (e : Int) : Nat × Int :=
  if h : digits ≠ 0 ∧ digits % 10 = 0 then stripZeros (digits / 10) (e + 1) else (digits, e)
termination_by digits
decreasing_by omega

/-- the shortest decimal that reads back as a positive value, as digits and power of ten; seventeen digits always do, and
should none of them read back the answer is the exact value -/
def shortest (x : Binary64) : Nat × Int :=
  let (num, den) := x.quotient
  let found := (List.range' 1 17).findSome? (x.digits? (magnitude num den))
  let exact : Nat × Int :=
    if 0 ≤ x.exponent then (num, 0) else (x.mantissa * Nat.pow 5 (-x.exponent).toNat, x.exponent)
  let (digits, e) := found.getD exact
  stripZeros digits e

end Binary64

end LayeredProfiles
