/-
Texts and their octets.

`utf8Decode` reads UTF-8. What is no UTF-8 becomes U+FFFD, one for each longest stretch of octets that begins a character
and is not completed, and one for each octet that cannot begin a character. A byte order mark is kept as a character.
`utf8Encode` writes it, the two halves of a pair as one character.
-/
import LayeredProfiles.Text.Units

namespace LayeredProfiles

/-- a character that has begun: how many octets are missing, the bits read, and the range of the next octet -/
structure Begun where
  missing : Nat
  bits : Nat
  low : Nat
  high : Nat

/-- what an octet is that stands where a character may begin -/
inductive Lead where
  | char (c : Char)
  | begun (b : Begun)
  | wrong

/-- the first octet of a character: the range of the second one leaves out overlong forms, surrogates and what lies above
the last character -/
def lead (n : Nat) : Lead :=
  if n < 0x80 then .char (Char.ofNat n)
  else if n < 0xc2 then .wrong
  else if n < 0xe0 then .begun ⟨1, n - 0xc0, 0x80, 0xbf⟩
  else if n < 0xf0 then
    .begun ⟨2, n - 0xe0, if n = 0xe0 then 0xa0 else 0x80, if n = 0xed then 0x9f else 0xbf⟩
  else if n < 0xf5 then
    .begun ⟨3, n - 0xf0, if n = 0xf0 then 0x90 else 0x80, if n = 0xf4 then 0x8f else 0xbf⟩
  else .wrong

/-- the characters of an octet that begins anew, and what has begun behind it -/
def restart (n : Nat) : List Char × Option Begun :=
  match lead n with
  | .char c => ([c], none)
  | .begun b => ([], some b)
  | .wrong => ([replacementChar], none)

/-- one octet: the characters it completes, and what has begun behind it -/
def utf8Step (begun : Option Begun) (n : Nat) : List Char × Option Begun :=
  match begun with
  | none => restart n
  | some b =>
    if b.low ≤ n ∧ n ≤ b.high then
      let bits := b.bits * 64 + (n - 0x80)
      if b.missing = 1 then ([Char.ofNat bits], none) else ([], some ⟨b.missing - 1, bits, 0x80, 0xbf⟩)
    else
      let (cs, next) := restart n
      (replacementChar :: cs, next)

def utf8Run (begun : Option Begun) : List UInt8 → List Char
  | [] => if begun.isSome then [replacementChar] else []
  | b :: rest =>
    let (cs, next) := utf8Step begun b.toNat
    cs ++ utf8Run next rest

def utf8Decode (octets : List UInt8) : List Char := toUnits (utf8Run none octets)

def utf8Encode (text : List Char) : List UInt8 := (ofUnits text).flatMap String.utf8EncodeChar

end LayeredProfiles
