/-
What is read from a line: the fields of the contexts, of the call and of the line itself.

A line has fields of its own, then the fields of the contexts from the root down, those of the call and the message, one behind the
other (`Line.IsTextOf`). Fields are ordinary when they hold JSON values (`Json.Proper`) under keys that need no escapes and mean
nothing of their own (`LogFields.Ordinary`). Of several fields of one key the last counts: the one of the call before those of the
contexts, and of these the nearest. The record of the call has the same. Calls whose fields describe a request are the exception: a
line shows one field in the place of them.

What is relied on (`LineLibrary.Writes`), all for ordinary fields:
- a root is made at a level that is named, and at `info` without a name; loggers can be derived from it;
- for a call below this level there is no line, for any other there is one, and its text is as above.

Results:
- `Json.proper_iff`: JSON values are what texts are read as, but for numbers beyond the greatest.
- `LogEvent.get?_payload`: where the value of a field in a record comes from.

Main statement: `LineWriter.WritesFrom.readsAs`.
-/
import LayeredProfiles.Proofs.CompactTexts
import LayeredProfiles.Proofs.LoadTrace
import LayeredProfiles.Proofs.NumberTexts

namespace LayeredProfiles

namespace OrderedMap

variable {o : KeyOrder} {α : Type}

/-! ## Entries found -/

theorem mem_of_find? {key : String} {l : List (String × α)} {value : α} (h : find? key l = some value) : (key, value) ∈ l := by
  induction l with
  | nil => cases h
  | cons e l ih =>
    rw [find?] at h
    split at h
    · rename_i hk
      obtain rfl := Option.some.inj h
      exact hk ▸ List.mem_cons_self
    · exact List.mem_cons_of_mem e (ih h)

/-- of distinct keys it does not matter from which end they are read -/
theorem find?_reverse_entries (m : OrderedMap o α) (key : String) : find? key m.entries.reverse = m.get? key := by
  rw [← get?_ofList_eq (o := o), get?_ofList _ (m.inOrder.imp fun h => h.1)]
  rfl

end OrderedMap

/-! ## Fields that hold JSON values -/

namespace Json

variable {v m : Json} {key : String}

/-- a JSON value: objects have their members in record order, and the numbers are finite -/
structure Proper (v : Json) : Prop where
  canonical : v.Canonical
  numbers : ∀ n, Inside (.num n) v → n.Proper

theorem Proper.legible (h : v.Proper) : v.Legible := fun n hin => Number.read?_text_of_proper (h.numbers n hin)

theorem proper_or_infinite_of_written {cs : List Char} (h : Written (.padded v) cs) :
    ∀ n, Inside (.num n) v → n.Proper ∨ ∃ negative, n = .infinite negative := by
  refine forall_values_of_written (P := fun v => ∀ n, Inside (.num n) v → n.Proper ∨ ∃ negative, n = .infinite negative)
    ?_ ?_ ?_ ?_ ?_ ?_ h v List.mem_cons_self
  · intro n hin
    cases hin
  · intro b n hin
    cases hin
  · intro d n hin
    cases hin with
    | self => exact (Number.proper_ofDecimal _ _ _).imp_right fun hinfinite => ⟨_, hinfinite⟩
  · intro s n hin
    cases hin
  · intro l ih n hin
    cases hin with
    | item hi hin => exact ih _ hi n hin
  · intro l ih n hin
    cases hin with
    | member he hin => exact ih _ (OrderedMap.mem_of_mem_ofList he) n hin

/-- what is read from a text is a JSON value, but for numbers beyond the greatest, and every JSON value is read from a text -/
theorem proper_iff : v.Proper ↔ (∃ cs, readChars? cs = some v) ∧ ∀ negative, ¬ Inside (.num (.infinite negative)) v := by
  constructor
  · intro h
    exact ⟨⟨v.render, readChars?_render h.canonical h.legible⟩, fun negative hin => h.numbers _ hin⟩
  · rintro ⟨⟨cs, hcs⟩, hfinite⟩
    have hwritten := readChars?_eq_some_iff.1 hcs
    refine ⟨canonical_of_written hwritten, fun n hin => ?_⟩
    refine (proper_or_infinite_of_written hwritten n hin).resolve_right ?_
    rintro ⟨negative, rfl⟩
    exact hfinite negative hin

theorem proper_str (s : String) : Proper (.str s) := ⟨canonical_str s, fun n hin => absurd hin (numberFree_str s n)⟩

theorem proper_null : Proper .null where
  canonical members hin := by cases hin
  numbers n hin := by cases hin

theorem proper_num {n : Number} (h : n.Proper) : Proper (.num n) where
  canonical members hin := by cases hin
  numbers m hin := by
    cases hin with
    | self => exact h

theorem proper_ofNat {n : ℕ} (h : Number.ofNat n ≠ .infinite false) : Proper (.ofNat n) :=
  proper_num ((Number.proper_ofDecimal false n 0).resolve_right h)

theorem proper_ofMembers {members : List (String × Json)} (h : ∀ e ∈ members, e.2.Proper) : (ofMembers members).Proper where
  canonical := canonical_ofMembers fun e he => (h e he).canonical
  numbers n hin := by
    cases hin with
    | member he hin => exact (h _ (OrderedMap.mem_of_mem_ofList he)).numbers n hin

theorem Proper.member? (h : v.Proper) (hm : v.member? key = some m) : m.Proper := by
  cases v with
  | obj members =>
    have hmem : (key, m) ∈ members := OrderedMap.mem_of_find? hm
    exact ⟨h.canonical.member hmem, fun n hin => h.numbers n (.member hmem hin)⟩
  | null | bool | num | str | arr => cases hm

theorem Proper.filled? (h : v.Proper) (hm : v.filled? key = some m) : m.Proper :=
  h.member? (Option.filter_eq_some_iff.1 hm).1

end Json

def LogValue.json? : LogValue → Option Json
  | .json v => some v
  | .thrown _ => none

/-- whether a key between quotes reads back as itself -/
def Line.isPlainKey (key : String) : Bool := Json.quote key == '"' :: key.toList ++ ['"']

/-- the keys that a line has of its own -/
def Line.ownKeys : List String := [levelKey, "time", "pid", "hostname", messageKey]

/-- keys that mean something of their own to who writes a line -/
def Line.specialKeys : List String :=
  ownKeys ++ [LogFields.errorKey, "serializers", "formatters", "customLevels"] ++ inheritedNames

namespace LogFields

/-- a field with a JSON value under a key that is written between quotes as it is and means nothing of its own -/
structure OrdinaryField (e : String × LogValue) : Prop where
  value : ∃ v : Json, e.2 = .json v ∧ v.Proper
  plain : Line.isPlainKey e.1 = true
  free : e.1 ∉ Line.specialKeys

def Ordinary (fields : LogFields) : Prop := ∀ e ∈ fields.entries, OrdinaryField e

/-- fields with a method, headers and a socket, none of them void -/
def DescribesRequest (fields : LogFields) : Prop :=
  ∀ key ∈ ["method", "headers", "socket"], ∃ v, fields.get? key = some (.json v) ∧ v.isVoid = false

def membersOf (l : List (String × LogValue)) : List (String × Json) :=
  l.filterMap fun e => e.2.json?.map fun v => (e.1, v)

def members (fields : LogFields) : List (String × Json) := membersOf fields.entries

theorem membersOf_cons_json {e : String × LogValue} {v : Json} (hv : e.2 = .json v) (l : List (String × LogValue)) :
    membersOf (e :: l) = (e.1, v) :: membersOf l := by
  simp [membersOf, hv, LogValue.json?]

variable {fields : LogFields} {l : List (String × LogValue)} {key : String}

theorem ordinary_ofList (h : ∀ e ∈ l, OrdinaryField e) : Ordinary (.ofList l) := fun e he => h e (OrderedMap.mem_of_mem_ofList he)

theorem ordinary_ofTexts {l : List (String × String)} (h : ∀ e ∈ l, Line.isPlainKey e.1 = true ∧ e.1 ∉ Line.specialKeys) :
    (ofTexts l).Ordinary := by
  refine ordinary_ofList fun e he => ?_
  obtain ⟨d, hd, rfl⟩ := List.mem_map.1 he
  exact ⟨⟨_, rfl, Json.proper_str d.2⟩, (h d hd).1, (h d hd).2⟩

/-- under each key stands the value of the field -/
theorem find?_membersOf (h : ∀ e ∈ l, OrdinaryField e) (key : String) :
    (OrderedMap.find? key (membersOf l)).map LogValue.json = OrderedMap.find? key l := by
  induction l with
  | nil => rfl
  | cons e l ih =>
    obtain ⟨he, hl⟩ := List.forall_mem_cons.1 h
    obtain ⟨v, hv, -⟩ := he.value
    rw [membersOf_cons_json hv]
    by_cases hk : e.1 = key
    · simp [OrderedMap.find?, hk, hv]
    · simp [OrderedMap.find?, hk, ih hl]

theorem proper_of_mem_membersOf (h : ∀ e ∈ l, OrdinaryField e) {d : String × Json} (hd : d ∈ membersOf l) : d.2.Proper := by
  obtain ⟨e, he, hde⟩ := List.mem_filterMap.1 hd
  obtain ⟨v, hv, hproper⟩ := (h e he).value
  rw [hv] at hde
  cases hde
  exact hproper

theorem free_of_mem_membersOf (h : ∀ e ∈ l, OrdinaryField e) {d : String × Json} (hd : d ∈ membersOf l) :
    d.1 ∉ Line.specialKeys := by
  obtain ⟨e, he, hde⟩ := List.mem_filterMap.1 hd
  obtain ⟨v, -, rfl⟩ := Option.map_eq_some_iff.1 hde
  exact (h e he).free

theorem find?_members_reverse (h : fields.Ordinary) (key : String) :
    (OrderedMap.find? key fields.members.reverse).map LogValue.json = fields.get? key := by
  rw [members, membersOf, ← List.filterMap_reverse, ← OrderedMap.find?_reverse_entries]
  exact find?_membersOf (fun e he => h e (List.mem_reverse.1 he)) key

theorem get?_eq_none (h : fields.Ordinary) (hkey : key ∈ Line.specialKeys) : fields.get? key = none := by
  by_contra hsome
  obtain ⟨v, hv⟩ := Option.ne_none_iff_exists'.1 hsome
  exact (h (key, v) (OrderedMap.mem_of_get?_eq hv)).free hkey

end LogFields

namespace LogEvent

/-- the value of a field in the contexts of a call, the nearest first -/
def nearest? (e : LogEvent) (key : String) : Option LogValue := e.contexts.reverse.findSome? fun context => context.get? key

theorem get?_context (e : LogEvent) (key : String) : e.context.get? key = e.nearest? key := by
  unfold context nearest?
  induction e.contexts using List.reverseRecOn with
  | nil => rfl
  | append_singleton contexts context ih =>
    rw [List.foldl_concat, OrderedMap.get?_overlay, ih, List.reverse_concat, List.findSome?_cons]
    cases context.get? key <;> rfl

/-- in the record of a call its own fields come first, and then the nearest context -/
theorem get?_payload (e : LogEvent) (key : String) : e.record.payload.get? key = (e.fields.get? key).or (e.nearest? key) := by
  rw [record, OrderedMap.get?_overlay, get?_context]

/-- a call with ordinary fields in its contexts and of its own -/
structure Ordinary (e : LogEvent) : Prop where
  contexts : ∀ context ∈ e.contexts, context.Ordinary
  fields : e.fields.Ordinary

end LogEvent

/-! ## What is relied on -/

/-- the place of a level among all of them, from `trace` up -/
def LogLevel.rank (l : LogLevel) : Nat := all.idxOf l

/-- fields that a line has of its own, ahead of others: the number of the level, and what else there is of them -/
structure Line.OwnFields (l : LogLevel) (own : List (String × Json)) : Prop where
  level : (levelKey, .ofNat l.number) ∈ own
  unique : ∀ v, (levelKey, v) ∈ own → v = .ofNat l.number
  others : ∀ d ∈ own, d.1 ∈ ownKeys ∧ d.2.Proper

/-- the fields of a line for a call, `shown` in the place of the fields of the call -/
def Line.membersFor (own : List (String × Json)) (e : LogEvent) (shown : List (String × Json)) : List (String × Json) :=
  own ++ e.contexts.flatMap LogFields.members ++ shown ++ [(messageKey, .str e.message)]

/-- a line is the text of an object of these fields, keys repeated as they come -/
def Line.IsTextOf (line : Line) (e : LogEvent) (shown : List (String × Json)) : Prop :=
  ∃ own, OwnFields e.level own ∧ line.chars = (Json.obj (membersFor own e shown)).render

/-- a writer of lines for the calls from a level on -/
structure LineWriter.WritesFrom (writer : LineWriter) (least : LogLevel) : Prop where
  derive : ∀ contexts : List LogFields, (∀ context ∈ contexts, context.Ordinary) → writer.derive contexts = .ok ()
  drop : ∀ e : LogEvent, e.level.rank < least.rank → writer.write e = .ok none
  write : ∀ e : LogEvent, e.Ordinary → least.rank ≤ e.level.rank → ¬ e.fields.DescribesRequest →
    ∃ line, writer.write e = .ok (some line) ∧ line.IsTextOf e e.fields.members
  /-- fields that describe a request give way to one field -/
  request : ∀ e : LogEvent, e.Ordinary → least.rank ≤ e.level.rank → e.fields.DescribesRequest →
    ∃ line v, writer.write e = .ok (some line) ∧ v.Proper ∧ line.IsTextOf e [(Line.requestKey, v)]

/-- a library that makes a root at a level, or at `info` where none is given -/
def LineLibrary.Writes (library : LineLibrary) : Prop :=
  ∀ level? : Option LogLevel,
    ∃ writer, library.make (level?.map LogLevel.word) = .ok writer ∧ writer.WritesFrom (level?.getD .info)

/-! ## Reading a line -/

namespace Line

variable {own shown : List (String × Json)} {event : LogEvent} {line : Line} {key : String}

theorem proper_of_mem_membersFor (hown : OwnFields event.level own) (h : ∀ context ∈ event.contexts, context.Ordinary)
    (hshown : ∀ d ∈ shown, d.2.Proper) {d : String × Json} (hd : d ∈ membersFor own event shown) : d.2.Proper := by
  simp only [membersFor, List.mem_append, List.mem_flatMap, List.mem_singleton] at hd
  rcases hd with ((hd | ⟨context, hcontext, hd⟩) | hd) | rfl
  · exact (hown.others d hd).2
  · exact LogFields.proper_of_mem_membersOf (h context hcontext) hd
  · exact hshown d hd
  · exact Json.proper_str event.message

theorem readChars?_render_obj {l : List (String × Json)} (hne : l ≠ []) (h : ∀ d ∈ l, d.2.Proper) :
    Json.readChars? (Json.obj l).render = some (.ofMembers l) := by
  have hwritten := Json.written_renderMembers l hne (fun d hd => (h d hd).canonical) fun d hd => (h d hd).legible
  rw [Json.render]
  exact Json.readChars?_eq_some_iff.2 (Json.Written.object hwritten).padded_of_value

/-- the line is read as the object of its fields, the last of repeated keys counting -/
theorem fields?_of_text (h : line.chars = (Json.obj (membersFor own event shown)).render)
    (hproper : ∀ d ∈ membersFor own event shown, d.2.Proper) :
    line.fields? = some (.ofList (membersFor own event shown)) := by
  have hne : membersFor own event shown ≠ [] := by simp [membersFor]
  rw [fields?, h, readChars?_render_obj hne hproper]
  exact congrArg some (OrderedMap.ofList_entries _)

/-! ## What such a line shows -/

theorem find?_members_of_contexts {contexts : List LogFields} (h : ∀ context ∈ contexts, context.Ordinary) (key : String) :
    (OrderedMap.find? key (contexts.flatMap LogFields.members).reverse).map LogValue.json =
      contexts.reverse.findSome? fun context => context.get? key := by
  induction contexts with
  | nil => rfl
  | cons context contexts ih =>
    obtain ⟨hcontext, hcontexts⟩ := List.forall_mem_cons.1 h
    rw [List.flatMap_cons, List.reverse_append, OrderedMap.find?_append, List.reverse_cons, List.findSome?_append,
      List.findSome?_singleton, Option.map_or, ih hcontexts, LogFields.find?_members_reverse hcontext]

theorem find?_own (hown : OwnFields event.level own) (hkey : key ∉ ownKeys) : OrderedMap.find? key own.reverse = none := by
  by_contra hsome
  obtain ⟨v, hv⟩ := Option.ne_none_iff_exists'.1 hsome
  have hmem : (key, v) ∈ own := List.mem_reverse.1 (OrderedMap.mem_of_find? hv)
  exact hkey (hown.others _ hmem).1

theorem find?_own_level (hown : OwnFields event.level own) :
    OrderedMap.find? levelKey own.reverse = some (.ofNat event.level.number) := by
  cases hv : OrderedMap.find? levelKey own.reverse with
  | none => exact absurd rfl ((OrderedMap.find?_eq_none_iff _ _).1 hv _ (List.mem_reverse.2 hown.level))
  | some v => rw [hown.unique v (List.mem_reverse.1 (OrderedMap.mem_of_find? hv))]

theorem reverse_membersFor (own : List (String × Json)) (event : LogEvent) (shown : List (String × Json)) :
    (membersFor own event shown).reverse = (messageKey, .str event.message) ::
      (shown.reverse ++ ((event.contexts.flatMap LogFields.members).reverse ++ own.reverse)) := by
  simp [membersFor]

theorem get?_membersFor (hown : OwnFields event.level own) (h : ∀ context ∈ event.contexts, context.Ordinary)
    (hkey : key ∉ ownKeys) :
    ((OrderedMap.ofList (membersFor own event shown) : Record Json).get? key).map LogValue.json =
      ((OrderedMap.find? key shown.reverse).map LogValue.json).or (event.nearest? key) := by
  have hmessage : messageKey ≠ key := by
    rintro rfl
    exact hkey (by decide)
  rw [OrderedMap.get?_ofList_eq, reverse_membersFor, OrderedMap.find?, if_neg hmessage, OrderedMap.find?_append,
    OrderedMap.find?_append, find?_own hown hkey, Option.or_none, Option.map_or, find?_members_of_contexts h]
  rfl

theorem get?_message (own : List (String × Json)) (event : LogEvent) (shown : List (String × Json)) :
    (OrderedMap.ofList (membersFor own event shown) : Record Json).get? messageKey = some (.str event.message) := by
  rw [OrderedMap.get?_ofList_eq, reverse_membersFor, OrderedMap.find?, if_pos rfl]

theorem get?_level (hown : OwnFields event.level own) (h : ∀ context ∈ event.contexts, context.Ordinary)
    (hshown : ∀ d ∈ shown, d.1 ≠ levelKey) :
    (OrderedMap.ofList (membersFor own event shown) : Record Json).get? levelKey = some (.ofNat event.level.number) := by
  have hmessage : messageKey ≠ levelKey := by decide
  have hcontexts : OrderedMap.find? levelKey (event.contexts.flatMap LogFields.members).reverse = none := by
    rw [← Option.map_eq_none_iff, find?_members_of_contexts h]
    exact List.findSome?_eq_none_iff.2 fun context hcontext =>
      LogFields.get?_eq_none (h context (List.mem_reverse.1 hcontext)) (by decide)
  have hcall : OrderedMap.find? levelKey shown.reverse = none :=
    (OrderedMap.find?_eq_none_iff _ _).2 fun d hd => hshown d (List.mem_reverse.1 hd)
  rw [OrderedMap.get?_ofList_eq, reverse_membersFor, OrderedMap.find?, if_neg hmessage, OrderedMap.find?_append, hcall,
    OrderedMap.find?_append, hcontexts, find?_own_level hown]
  rfl

/-- members that show a call: its level and message, and under every other key what the record of the call has -/
structure Shows (members : Record Json) (e : LogEvent) : Prop where
  level : members.get? levelKey = some (.ofNat e.level.number)
  message : members.get? messageKey = some (.str e.message)
  payload : ¬ e.fields.DescribesRequest → ∀ key, key ∉ ownKeys →
    (members.get? key).map LogValue.json = e.record.payload.get? key
  /-- one field stands in the place of fields that describe a request -/
  request : e.fields.DescribesRequest → (members.get? requestKey).isSome = true ∧
    ∀ key, key ∉ ownKeys → key ≠ requestKey → (members.get? key).map LogValue.json = e.nearest? key

theorem Shows.get?_eq {members : Record Json} {v : Json} (h : Shows members event) (hkey : key ∉ ownKeys)
    (hrequest : ¬ event.fields.DescribesRequest) (hv : event.record.payload.get? key = some (.json v)) :
    members.get? key = some v := by
  obtain ⟨w, hw, hwv⟩ := Option.map_eq_some_iff.1 ((h.payload hrequest key hkey).trans hv)
  rw [hw, LogValue.json.inj hwv]

/-- a line is the text of an object whose members show a call -/
def ReadsAs (line : Line) (e : LogEvent) : Prop := ∃ members, line.fields? = some members ∧ Shows members e

end Line

/-- every call at or above the level of a writer has a line, which shows the call -/
theorem LineWriter.WritesFrom.readsAs {writer : LineWriter} {least : LogLevel} (h : writer.WritesFrom least) {e : LogEvent}
    (he : e.Ordinary) (hlevel : least.rank ≤ e.level.rank) :
    ∃ line, writer.write e = .ok (some line) ∧ line.ReadsAs e := by
  by_cases hrequest : e.fields.DescribesRequest
  · obtain ⟨line, v, hline, hv, own, hown, htext⟩ := h.request e he hlevel hrequest
    have hrequestKey : Line.requestKey ∉ Line.ownKeys := by decide
    have hfields : line.fields? = some (.ofList (Line.membersFor own e [(Line.requestKey, v)])) :=
      Line.fields?_of_text htext fun d => Line.proper_of_mem_membersFor hown he.contexts (by simpa using hv)
    refine ⟨line, hline, _, hfields, ?_, Line.get?_message .., fun hnot => absurd hrequest hnot, fun _ => ⟨?_, ?_⟩⟩
    · exact Line.get?_level hown he.contexts (by simpa using fun hk => absurd hk (by decide))
    · rw [← Option.isSome_map (f := LogValue.json), Line.get?_membersFor hown he.contexts hrequestKey]
      simp [OrderedMap.find?]
    · intro key hkey hne
      rw [Line.get?_membersFor hown he.contexts hkey]
      simp [OrderedMap.find?, hne.symm]
  · obtain ⟨line, hline, own, hown, htext⟩ := h.write e he hlevel hrequest
    have hfields : line.fields? = some (.ofList (Line.membersFor own e e.fields.members)) :=
      Line.fields?_of_text htext fun d => Line.proper_of_mem_membersFor hown he.contexts fun d hd =>
        LogFields.proper_of_mem_membersOf he.fields hd
    refine ⟨line, hline, _, hfields, ?_, Line.get?_message .., fun _ key hkey => ?_, fun hdescribes => absurd hdescribes hrequest⟩
    · refine Line.get?_level hown he.contexts fun d hd hk => ?_
      exact LogFields.free_of_mem_membersOf he.fields hd (hk ▸ by decide)
    · rw [Line.get?_membersFor hown he.contexts hkey, LogFields.find?_members_reverse he.fields, e.get?_payload]

end LayeredProfiles
