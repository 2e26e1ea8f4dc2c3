/-
Numbers of JSON texts.

A number is read as the nearest 64-bit binary floating-point value, or as infinite when it is too great, and it is written
with the fewest digits that read back: positionally from 10⁻⁶ up to below 10²¹, else with an exponent. Zero has no sign.
-/
import LayeredProfiles.KeyOrder
import LayeredProfiles.Number.Binary64

namespace LayeredProfiles

/-- a number as values carry it -/
inductive Number where
  | finite (negative : Bool) (magnitude : Binary64)
  | infinite (negative : Bool)
  deriving DecidableEq, Repr

namespace Number

def zero : Number := .finite false .zero

/-- the number nearest to the decimal `± digits · 10 ^ e` -/
def ofDecimal (negative : Bool) (digits : Nat) (e : Int) : Number :=
  let length := (Binary64.decimalLength digits : Int)
  if digits = 0 || length + e < -330 then zero
  else if 310 < length + e then .infinite negative
  else
    let (num, den) := Binary64.scale 10 e digits 1
    match Binary64.nearest? num den with
    | none => .infinite negative
    | some x => if x.mantissa = 0 then zero else .finite negative x

def ofNat (n : Nat) : Number := ofDecimal false n 0

def isZero : Number → Bool
  | .finite _ x => x.mantissa == 0
  | .infinite _ => false

def atLeastOne : Number → Bool
  | .finite negative x => !negative && (let (num, den) := x.quotient; den ≤ num)
  | .infinite negative => !negative

/-! ## Reading -/

/-- the digits at the front of a text, at least one, and what follows them -/
def digits? (cs : List Char) : Option (List Char × List Char) :=
  let digits := cs.takeWhile Char.isDigit
  if digits.isEmpty then none else some (digits, cs.dropWhile Char.isDigit)

/-- the whole part: digits without a leading zero, or a single zero -/
def whole? (cs : List Char) : Option (List Char × List Char) :=
  match digits? cs with
  | some ('0' :: _ :: _, _) => none
  | found => found

/-- the fraction: a point and digits, or nothing -/
def fraction? : List Char → Option (List Char × List Char)
  | '.' :: cs => digits? cs
  | cs => some ([], cs)

/-- the exponent, up to the end of the text: a letter, a sign or none, and digits, or nothing at all -/
def exponent? : List Char → Option Int
  | [] => some 0
  | c :: cs =>
    if c = 'e' || c = 'E' then
      let (negative, cs) : Bool × List Char := match cs with
        | '-' :: cs => (true, cs)
        | '+' :: cs => (false, cs)
        | cs => (false, cs)
      match digits? cs with
      | some (digits, []) => some (if negative then -(decimalValue digits : Int) else decimalValue digits)
      | _ => none
    else none

/-- the number without sign that a text writes -/
def unsigned? (negative : Bool) (cs : List Char) : Option Number := do
  let (whole, cs) ← whole? cs
  let (fraction, cs) ← fraction? cs
  let e ← exponent? cs
  return ofDecimal negative (decimalValue (whole ++ fraction)) (e - fraction.length)

/-- the number that a text writes -/
def read? : List Char → Option Number
  | '-' :: cs => unsigned? true cs
  | cs => unsigned? false cs

/-! ## Writing -/

/-- digits that stand for `0.digits · 10 ^ point`, laid out -/
def layout (digits : List Char) (point : Int) : List Char :=
  let n : Int := digits.length
  if n ≤ point && point ≤ 21 then digits ++ List.replicate (point - n).toNat '0'
  else if 0 < point && point ≤ 21 then digits.take point.toNat ++ '.' :: digits.drop point.toNat
  else if -6 < point && point ≤ 0 then '0' :: '.' :: List.replicate (-point).toNat '0' ++ digits
  else
    let e := point - 1
    let fraction := match digits.tail with
      | [] => []
      | rest => '.' :: rest
    digits.take 1 ++ fraction ++ 'e' :: (if e < 0 then '-' else '+') :: Nat.toDigits 10 e.natAbs

def text : Number → String
  | .infinite negative => if negative then "-Infinity" else "Infinity"
  | .finite negative x =>
    if x.mantissa = 0 then "0"
    else
      let (digits, e) := x.shortest
      let digits := Nat.toDigits 10 digits
      String.ofList ((if negative then ['-'] else []) ++ layout digits (digits.length + e))

end Number

end LayeredProfiles
