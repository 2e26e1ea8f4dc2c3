/-
Which keys of a map go ahead of which, whatever the order in which they arrive.

A `KeyOrder` says which keys must stand ahead of which; keys that it leaves alone stay in order of arrival. Two orders are
used in this library. `arrival` never moves a key. `indexFirst` puts the array indices (`arrayIndex?`) ahead of all other
keys and in ascending order among themselves, as property maps and JSON objects do.
-/

namespace LayeredProfiles

/-- which keys stand ahead of which, whatever their order of arrival: a strict order, not necessarily total -/
structure KeyOrder where
  ahead : String → String → Bool
  irrefl : ∀ a, ahead a a = false
  trans : ∀ a b c, ahead a b = true → ahead b c = true → ahead a c = true

namespace KeyOrder

/-- nothing can be ahead of what is ahead of it -/
theorem asymm (o : KeyOrder) {a b : String} (h : o.ahead a b = true) : o.ahead b a = false := by
  cases hba : o.ahead b a with
  | false => rfl
  | true => exact absurd (o.trans a b a h hba) (by simp [o.irrefl])

def arrival : KeyOrder where
  ahead _ _ := false
  irrefl _ := rfl
  trans _ _ _ h _ := by simp at h

end KeyOrder

/-! ## Array indices -/

def decimalValue (digits : List Char) : Nat :=
  digits.foldl (fun n c => 10 * n + (c.toNat - '0'.toNat)) 0

/-- the greatest array index, 2³² − 2 -/
def maxArrayIndex : Nat := 4294967294

/-- the array index a key is: it must be the decimal text of its own value, so no sign, no leading zero and no blank -/
def arrayIndex? (key : String) : Option Nat :=
  let digits := key.toList
  if digits.length ≤ 10 && digits.all Char.isDigit then
    let n := decimalValue digits
    if n ≤ maxArrayIndex && Nat.repr n == key then some n else none
  else none

/-- a key that is an array index is the decimal text of that index, so no two keys are the same index -/
theorem repr_of_arrayIndex? {key : String} {n : Nat} (h : arrayIndex? key = some n) : key = Nat.repr n := by
  grind [arrayIndex?]

theorem le_of_arrayIndex? {key : String} {n : Nat} (h : arrayIndex? key = some n) : n ≤ maxArrayIndex := by
  grind [arrayIndex?]

/-- the order of property maps: an index is ahead of every greater index and of every key that is no index -/
def indexAhead (a b : String) : Bool :=
  match arrayIndex? a, arrayIndex? b with
  | some i, some j => i < j
  | some _, none => true
  | none, _ => false

namespace KeyOrder

/-- array indices first, in ascending order; the other keys as they arrived -/
def indexFirst : KeyOrder where
  ahead := indexAhead
  irrefl a := by cases h : arrayIndex? a <;> simp [indexAhead, h]
  trans a b c hab hbc := by
    cases ha : arrayIndex? a <;> cases hb : arrayIndex? b <;> cases hc : arrayIndex? c <;>
      simp_all [indexAhead]
    omega

end KeyOrder

end LayeredProfiles
