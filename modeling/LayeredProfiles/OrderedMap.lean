/-
Maps with string keys that remember an order.

`OrderedMap o α` holds its entries as a list in which no key occurs twice and no key stands behind one that the key order
`o` puts it ahead of. `insert` gives a present key its new value where it stands; a new key goes to the end, or in front of
the first key that it must stand ahead of. `get?` and `keys` are the two views: the statements below say what each
operation does to them.
-/
import LayeredProfiles.KeyOrder

namespace LayeredProfiles

/-- what holds of two entries, the first standing before the second -/
def InOrder (o : KeyOrder) {α : Type} (a b : String × α) : Prop :=
  a.1 ≠ b.1 ∧ o.ahead b.1 a.1 = false

/-- a map that keeps its keys in the order `o` -/
structure OrderedMap (o : KeyOrder) (α : Type) where
  entries : List (String × α)
  inOrder : entries.Pairwise (InOrder o)

namespace OrderedMap

variable {o : KeyOrder} {α β : Type}

theorem ext {m m' : OrderedMap o α} (h : m.entries = m'.entries) : m = m' := by
  cases m; cases m'; simp_all

instance [DecidableEq α] : DecidableEq (OrderedMap o α) := fun m m' =>
  if h : m.entries = m'.entries then isTrue (ext h) else isFalse fun e => h (congrArg entries e)

/-! ## Entries -/

def find? (key : String) : List (String × α) → Option α
  | [] => none
  | e :: rest => if e.1 = key then some e.2 else find? key rest

/-- enter a value: in place when the key is there, else where the order puts a new key -/
def enter (o : KeyOrder) (key : String) (value : α) : List (String × α) → List (String × α)
  | [] => [(key, value)]
  | e :: rest =>
    if e.1 = key then (key, value) :: rest
    else if o.ahead key e.1 then (key, value) :: e :: rest
    else e :: enter o key value rest

theorem mem_of_mem_enter {key : String} {value : α} {l : List (String × α)} {e : String × α}
    (h : e ∈ enter o key value l) : e = (key, value) ∨ e ∈ l := by
  induction l with
  | nil => simp_all [enter]
  | cons d l ih => grind [enter]

theorem inOrder_enter (key : String) (value : α) {l : List (String × α)} (h : l.Pairwise (InOrder o)) :
    (enter o key value l).Pairwise (InOrder o) := by
  induction l with
  | nil => simp [enter]
  | cons d l ih =>
    obtain ⟨hd, hl⟩ := List.pairwise_cons.1 h
    unfold enter
    split
    · rename_i hk
      refine List.pairwise_cons.2 ⟨fun e he => ?_, hl⟩
      have := hd e he
      rwa [InOrder, hk] at this
    split
    · rename_i hk ha
      refine List.pairwise_cons.2 ⟨fun e he => ?_, h⟩
      rcases List.mem_cons.1 he with rfl | he
      · exact ⟨fun e => hk e.symm, o.asymm ha⟩
      · have hde : o.ahead e.1 d.1 = false := (hd e he).2
        refine ⟨fun hke => ?_, ?_⟩
        · have hke : key = e.1 := hke
          simp [← hke, ha] at hde
        · cases hek : o.ahead e.1 key with
          | false => rfl
          | true => simp [o.trans _ _ _ hek ha] at hde
    · rename_i hk ha
      refine List.pairwise_cons.2 ⟨fun e he => ?_, ih hl⟩
      rcases mem_of_mem_enter he with rfl | he
      · exact ⟨hk, by simpa using ha⟩
      · exact hd e he

theorem find?_enter (key : String) (value : α) (l : List (String × α)) (k : String) :
    find? k (enter o key value l) = if k = key then some value else find? k l := by
  induction l with
  | nil => grind [enter, find?]
  | cons d l ih => grind [enter, find?]

theorem inOrder_map (f : String → α → β) {l : List (String × α)} (h : l.Pairwise (InOrder o)) :
    (l.map fun e => (e.1, f e.1 e.2)).Pairwise (InOrder o) :=
  List.pairwise_map.2 (h.imp fun hab => hab)

/-! ## Operations -/

def empty : OrderedMap o α := ⟨[], .nil⟩

instance : Inhabited (OrderedMap o α) := ⟨empty⟩

def get? (m : OrderedMap o α) (key : String) : Option α := find? key m.entries

def contains (m : OrderedMap o α) (key : String) : Bool := (m.get? key).isSome

def keys (m : OrderedMap o α) : List String := m.entries.map (·.1)

def size (m : OrderedMap o α) : Nat := m.entries.length

def insert (m : OrderedMap o α) (key : String) (value : α) : OrderedMap o α :=
  ⟨enter o key value m.entries, inOrder_enter key value m.inOrder⟩

def erase (m : OrderedMap o α) (key : String) : OrderedMap o α :=
  ⟨m.entries.filter (·.1 ≠ key), m.inOrder.filter _⟩

/-- the entries of a list, entered from left to right: a repeated key keeps its first place and its last value -/
def ofList (l : List (String × α)) : OrderedMap o α :=
  l.foldl (fun m e => m.insert e.1 e.2) empty

/-- lay the entries of `upper` over those of `lower` -/
def overlay (lower upper : OrderedMap o α) : OrderedMap o α :=
  upper.entries.foldl (fun m e => m.insert e.1 e.2) lower

/-- change each value, keeping the keys where they are -/
def mapValues (f : String → α → β) (m : OrderedMap o α) : OrderedMap o β :=
  ⟨m.entries.map fun e => (e.1, f e.1 e.2), inOrder_map f m.inOrder⟩

/-! ## What the operations do to the views -/

@[simp] theorem get?_empty (key : String) : (empty : OrderedMap o α).get? key = none := rfl

@[simp] theorem entries_empty : (empty : OrderedMap o α).entries = [] := rfl

theorem get?_insert (m : OrderedMap o α) (key : String) (value : α) (k : String) :
    (m.insert key value).get? k = if k = key then some value else m.get? k :=
  find?_enter key value m.entries k

@[simp] theorem get?_insert_self (m : OrderedMap o α) (key : String) (value : α) :
    (m.insert key value).get? key = some value := by
  simp [get?_insert]

/-- no key occurs twice -/
theorem nodup_keys (m : OrderedMap o α) : m.keys.Nodup :=
  List.pairwise_map.2 (m.inOrder.imp fun h => h.1)

theorem mem_keys_iff (m : OrderedMap o α) (key : String) : key ∈ m.keys ↔ m.contains key = true := by
  obtain ⟨l, hl⟩ := m
  simp only [keys, contains, get?]
  clear hl
  induction l with
  | nil => simp [find?]
  | cons e l ih => grind [find?]

/-- taking a key away leaves the others as they were -/
theorem get?_erase (m : OrderedMap o α) (key k : String) :
    (m.erase key).get? k = if k = key then none else m.get? k := by
  obtain ⟨l, hl⟩ := m
  simp only [erase, get?]
  clear hl
  induction l with
  | nil => simp [find?]
  | cons e l ih => grind [find?]

theorem keys_erase (m : OrderedMap o α) (key : String) : (m.erase key).keys = m.keys.filter (· ≠ key) := by
  simp [erase, keys, List.filter_map, Function.comp_def]

/-- taking away a key that is there makes the map smaller -/
theorem size_erase_lt (m : OrderedMap o α) {key : String} (h : m.contains key = true) :
    (m.erase key).size < m.size := by
  obtain ⟨e, he, rfl⟩ := List.mem_map.1 ((m.mem_keys_iff key).2 h)
  simp only [erase, size]
  refine Nat.lt_of_le_of_ne (List.length_filter_le _ _) fun heq => ?_
  have := List.length_filter_eq_length_iff.1 heq e he
  simp at this

end OrderedMap

/-- a record: array indices first in ascending order, then the other keys by arrival -/
abbrev Record (α : Type) := OrderedMap .indexFirst α

/-- a table: keys by arrival -/
abbrev Table (α : Type) := OrderedMap .arrival α

end LayeredProfiles
