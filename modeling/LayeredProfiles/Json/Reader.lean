/-
Reading JSON texts, strictly.

The reader is a machine that takes one character at a time (`Reader.step`). Its state says what may come next and which
arrays and objects are still open, so depth costs nothing but memory, and a text is read by a fold over its characters
(`Json.read?`). Only space, tab, line feed and carriage return are blanks here. Members of an object are entered into a
record: a repeated key keeps its first place and takes its last value. An escape gives the unit of its number, also when this
is half of a pair.
-/
import LayeredProfiles.Json

namespace LayeredProfiles

namespace Reader

/-! ## Strings -/

/-- where the reader stands within a string -/
inductive Spot where
  | plain
  | escape
  /-- behind `\u`: how many digits have come, and their value -/
  | unit (count value : Nat)

/-- a string being read: its units, latest first -/
structure Text where
  chars : List Char
  spot : Spot

namespace Text

def start : Text := ⟨[], .plain⟩

def push (t : Text) (c : Char) : Text := ⟨c :: t.chars, .plain⟩

def hexValue? (c : Char) : Option Nat :=
  if c.isDigit then some (c.toNat - '0'.toNat)
  else if 'a' ≤ c ∧ c ≤ 'f' then some (c.toNat - 'a'.toNat + 10)
  else if 'A' ≤ c ∧ c ≤ 'F' then some (c.toNat - 'A'.toNat + 10)
  else none

/-- what one character does to a string: it goes on, or it has ended -/
inductive Outcome where
  | more (t : Text)
  | closed (s : String)

/-- one character of a string; control characters must be escaped -/
def step (t : Text) (c : Char) : Option Outcome :=
  match t.spot with
  | .plain =>
    if c = '"' then some (.closed (String.ofList t.chars.reverse))
    else if c = '\\' then some (.more { t with spot := .escape })
    else if c.toNat < 0x20 then none
    else some (.more (t.push c))
  | .escape =>
    match c with
    | '"' => some (.more (t.push '"'))
    | '\\' => some (.more (t.push '\\'))
    | '/' => some (.more (t.push '/'))
    | 'b' => some (.more (t.push '\x08'))
    | 'f' => some (.more (t.push '\x0c'))
    | 'n' => some (.more (t.push '\n'))
    | 'r' => some (.more (t.push '\r'))
    | 't' => some (.more (t.push '\t'))
    | 'u' => some (.more { t with spot := .unit 0 0 })
    | _ => none
  | .unit count value =>
    match hexValue? c with
    | none => none
    | some d =>
      if count = 3 then some (.more (t.push (unitChar (16 * value + d))))
      else some (.more { t with spot := .unit (count + 1) (16 * value + d) })

end Text

/-! ## Values -/

/-- an array or object that is still open -/
inductive Frame where
  /-- the items read, latest first -/
  | array (items : List Json)
  /-- the members read, and the key of the one being read -/
  | object (members : Record Json) (key : String)

/-- what the reader expects or is in the middle of -/
inductive Mode where
  /-- a value must follow; behind an opening bracket the array may also end -/
  | value (mayEnd : Bool)
  /-- a key must follow; behind an opening brace the object may also end -/
  | key (members : Record Json) (mayEnd : Bool)
  /-- a colon must follow -/
  | colon (members : Record Json) (key : String)
  /-- a value is complete -/
  | after (v : Json)
  /-- a number or a literal, its characters latest first -/
  | word (chars : List Char)
  /-- a string value -/
  | string (t : Text)
  /-- a string that is a key -/
  | keyString (members : Record Json) (t : Text)

/-- the mode and the open arrays and objects, innermost first -/
structure State where
  mode : Mode
  frames : List Frame

def start : State := ⟨.value false, []⟩

def isSpace (c : Char) : Bool := c = ' ' || c = '\t' || c = '\n' || c = '\r'

def isWordChar (c : Char) : Bool := c.isAlphanum || c = '-' || c = '+' || c = '.'

/-- the value that a number or literal stands for -/
def ofWord? (chars : List Char) : Option Json :=
  if chars = "null".toList then some .null
  else if chars = "true".toList then some (.bool true)
  else if chars = "false".toList then some (.bool false)
  else (Number.read? chars).map .num

/-- one character behind a complete value: it goes into the innermost open array or object, or closes that too -/
def stepAfter (v : Json) (frames : List Frame) (c : Char) : Option State :=
  if isSpace c then some ⟨.after v, frames⟩
  else match frames with
    | [] => none
    | .array items :: frames =>
      if c = ',' then some ⟨.value false, .array (v :: items) :: frames⟩
      else if c = ']' then some ⟨.after (.arr (v :: items).reverse), frames⟩
      else none
    | .object members key :: frames =>
      if c = ',' then some ⟨.key (members.insert key v) false, frames⟩
      else if c = '}' then some ⟨.after (.ofRecord (members.insert key v)), frames⟩
      else none

/-- one character -/
def step (s : State) (c : Char) : Option State :=
  match s.mode with
  | .value mayEnd =>
    if isSpace c then some s
    else if c = '"' then some ⟨.string .start, s.frames⟩
    else if c = '[' then some ⟨.value true, .array [] :: s.frames⟩
    else if c = '{' then some ⟨.key .empty true, s.frames⟩
    else if isWordChar c then some ⟨.word [c], s.frames⟩
    else match mayEnd, c, s.frames with
      | true, ']', .array _ :: frames => some ⟨.after (.arr []), frames⟩
      | _, _, _ => none
  | .key members mayEnd =>
    if isSpace c then some s
    else if c = '"' then some ⟨.keyString members .start, s.frames⟩
    else if mayEnd && c = '}' then some ⟨.after (.obj []), s.frames⟩
    else none
  | .colon members key =>
    if isSpace c then some s
    else if c = ':' then some ⟨.value false, .object members key :: s.frames⟩
    else none
  | .after v => stepAfter v s.frames c
  | .word chars =>
    if isWordChar c then some ⟨.word (c :: chars), s.frames⟩
    else (ofWord? chars.reverse).bind fun v => stepAfter v s.frames c
  | .string t =>
    (t.step c).map fun
      | .more t => ⟨.string t, s.frames⟩
      | .closed text => ⟨.after (.str text), s.frames⟩
  | .keyString members t =>
    (t.step c).map fun
      | .more t => ⟨.keyString members t, s.frames⟩
      | .closed key => ⟨.colon members key, s.frames⟩

def run (s : State) : List Char → Option State
  | [] => some s
  | c :: cs => (step s c).bind fun t => run t cs

/-- the value read, when the text may end here -/
def finish (s : State) : Option Json :=
  match s.mode, s.frames with
  | .after v, [] => some v
  | .word chars, [] => ofWord? chars.reverse
  | _, _ => none

end Reader

/-- the value of a JSON text -/
def Json.readChars? (cs : List Char) : Option Json := (Reader.run Reader.start cs).bind Reader.finish

/-- the value of a JSON text given as string -/
def Json.read? (s : String) : Option Json := readChars? s.toList

end LayeredProfiles
