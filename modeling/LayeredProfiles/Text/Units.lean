/-
Texts as sequences of units of 16 bits.

A unit that is a character of the basic plane is written as this character. The numbers 0xD800 to 0xDFFF are no characters
but halves of pairs, and a half is written as the private character that lies 0x100000 above its number (`unitChar`). So a
text may hold a half without its partner, and every character beyond the basic plane, the private ones too, is a pair of
halves. `toUnits` takes characters apart, `ofUnits` puts them together again and has U+FFFD for a half without partner.
-/

namespace LayeredProfiles

/-- what stands for what is no character -/
def replacementChar : Char := '\ufffd'

def isHighHalf (c : Char) : Bool := 0x10d800 ≤ c.toNat && c.toNat ≤ 0x10dbff

def isLowHalf (c : Char) : Bool := 0x10dc00 ≤ c.toNat && c.toNat ≤ 0x10dfff

def isHalf (c : Char) : Bool := isHighHalf c || isLowHalf c

/-- the unit of a number below 2¹⁶ -/
def unitChar (n : Nat) : Char := Char.ofNat (if 0xd800 ≤ n ∧ n ≤ 0xdfff then 0x100000 + n else n)

def halfNumber (c : Char) : Nat := c.toNat - 0x100000

theorem toNat_of_isHalf {c : Char} (h : isHalf c = true) : 0x10d800 ≤ c.toNat ∧ c.toNat ≤ 0x10dfff := by
  simp only [isHalf, isHighHalf, isLowHalf, Bool.or_eq_true, Bool.and_eq_true, decide_eq_true_eq] at h
  omega

theorem unitChar_halfNumber {c : Char} (h : isHalf c = true) : unitChar (halfNumber c) = c := by
  have hc := toNat_of_isHalf h
  unfold unitChar halfNumber
  rw [if_pos (by omega), Nat.add_sub_of_le (by omega), Char.ofNat_toNat]

def pairChar (high low : Char) : Char :=
  Char.ofNat (0x10000 + (halfNumber high - 0xd800) * 0x400 + (halfNumber low - 0xdc00))

def charUnits (c : Char) : List Char :=
  if c.toNat < 0x10000 then [c]
  else [unitChar (0xd800 + (c.toNat - 0x10000) / 0x400), unitChar (0xdc00 + (c.toNat - 0x10000) % 0x400)]

def toUnits (cs : List Char) : List Char := cs.flatMap charUnits

/-- the character of a unit that is in no pair -/
def loneChar (c : Char) : Char := if isHalf c then replacementChar else c

def ofUnits : List Char → List Char
  | [] => []
  | [c] => [loneChar c]
  | c :: d :: rest =>
    if isHighHalf c && isLowHalf d then pairChar c d :: ofUnits rest else loneChar c :: ofUnits (d :: rest)

/-- the text with the given characters -/
def textOf (s : String) : String := String.ofList (toUnits s.toList)

end LayeredProfiles
