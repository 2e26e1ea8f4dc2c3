/-
The numbers that texts are taken for.

`Number.ofNumeral?` is more lenient than the reader of JSON numbers. Blanks at the ends of a text do not count, and a text of
blanks alone stands for zero. A decimal may have a sign of either kind, zeros in front, and a point at its beginning or end;
the word `Infinity` counts as a decimal. A whole number may also be written in base 2, 8 or 16 behind a zero and a letter,
without sign. No other text stands for a number.
-/
import LayeredProfiles.Number
import LayeredProfiles.Text.Blank

namespace LayeredProfiles

namespace Number

/-- the value of a digit in a base of up to sixteen -/
def digitIn? (base : Nat) (c : Char) : Option Nat :=
  let c := c.toLower
  let d := if c.isDigit then c.toNat - '0'.toNat else if 'a' ≤ c ∧ c ≤ 'f' then c.toNat - 'a'.toNat + 10 else base
  if d < base then some d else none

/-- the whole number that digits write in a base; there must be a digit -/
def inBase? (base : Nat) (digits : List Char) : Option Number :=
  if digits.isEmpty then none
  else ((digits.mapM (digitIn? base)).map fun values => ofNat (values.foldl (fun n d => base * n + d) 0))

/-- a decimal without sign; digits may be missing on one side of the point -/
def decimal? (negative : Bool) (cs : List Char) : Option Number :=
  if cs = "Infinity".toList then some (.infinite negative)
  else
    let whole := cs.takeWhile Char.isDigit
    let (fraction, rest) : List Char × List Char := match cs.dropWhile Char.isDigit with
      | '.' :: rest => (rest.takeWhile Char.isDigit, rest.dropWhile Char.isDigit)
      | rest => ([], rest)
    if (whole ++ fraction).isEmpty then none
    else (exponent? rest).map fun e => ofDecimal negative (decimalValue (whole ++ fraction)) (e - fraction.length)

/-- the number that a text without blanks at its ends is taken for -/
def ofTrimmed? : List Char → Option Number
  | [] => some zero
  | '-' :: cs => decimal? true cs
  | '+' :: cs => decimal? false cs
  | cs@('0' :: c :: digits) =>
    match c.toLower with
    | 'b' => inBase? 2 digits
    | 'o' => inBase? 8 digits
    | 'x' => inBase? 16 digits
    | _ => decimal? false cs
  | cs => decimal? false cs

/-- the number that a text is taken for -/
def ofNumeral? (text : String) : Option Number := ofTrimmed? (trim text.toList)

end Number

end LayeredProfiles
