/-
The number that a JSON value counts for.

A text, or the text of an array or object, may be a numeral. A value without text counts for nothing, not even for no number.
-/
import LayeredProfiles.Json.Display
import LayeredProfiles.Number.Numeral

namespace LayeredProfiles

/-- the number that a value counts for, if it is one, unless the value has no text -/
def Json.count? : Json → Option (Option Number)
  | .null => some (some .zero)
  | .bool b => some (some (.ofNat b.toNat))
  | .num n => some (some n)
  | v => v.display?.map Number.ofNumeral?

end LayeredProfiles
