/-
Compact texts: what the writer puts for a value is read as that value again.

Two things can keep a value from coming back. Members that do not stand in record order would be moved (`Json.Canonical`), and a
number may have no text that is read as the number (`Json.Legible`); stores and sections hold no numbers at all
(`Json.NumberFree`). `Json.Inside` is the depth that these speak of.

Results:
- `Json.canonical_of_written`: whatever is read is canonical.
- `Json.written_render`, `Json.readChars?_render`: the writer's text of such a value is a text of it, and read as it.
-/
import LayeredProfiles.Proofs.JsonTexts
import LayeredProfiles.Proofs.MapViews

namespace LayeredProfiles

namespace Json

variable {v w i : Json} {l items : List Json} {members : List (String × Json)} {e : String × Json} {cs : List Char} {p : Phrase}

/-! ## Depth -/

/-- the value itself, or one that stands in it at any depth -/
inductive Inside (w : Json) : Json → Prop
  | self : Inside w w
  | item {items : List Json} {i : Json} (mem : i ∈ items) (deeper : Inside w i) : Inside w (.arr items)
  | member {members : List (String × Json)} {e : String × Json} (mem : e ∈ members) (deeper : Inside w e.2) :
      Inside w (.obj members)

/-- every object in it has its members in record order, each key once -/
def Canonical (v : Json) : Prop := ∀ members, Inside (.obj members) v → members.Pairwise (InOrder .indexFirst)

/-- the text of every number in it is read as that number -/
def Legible (v : Json) : Prop := ∀ n, Inside (.num n) v → Number.read? n.text.toList = some n

def NumberFree (v : Json) : Prop := ∀ n, ¬ Inside (.num n) v

theorem Canonical.item (h : Canonical (.arr items)) (hi : i ∈ items) : i.Canonical := fun members hin => h members (.item hi hin)

theorem Canonical.member (h : Canonical (.obj members)) (he : e ∈ members) : e.2.Canonical :=
  fun ms hin => h ms (.member he hin)

theorem Legible.item (h : Legible (.arr items)) (hi : i ∈ items) : i.Legible := fun n hin => h n (.item hi hin)

theorem Legible.member (h : Legible (.obj members)) (he : e ∈ members) : e.2.Legible := fun n hin => h n (.member he hin)

theorem NumberFree.legible (h : v.NumberFree) : v.Legible := fun n hin => absurd hin (h n)

theorem canonical_arr (h : ∀ i ∈ items, i.Canonical) : Canonical (.arr items) := by
  intro members hin
  cases hin with
  | item hi hin => exact h _ hi members hin

theorem canonical_ofRecord {r : Record Json} (h : ∀ e ∈ r.entries, e.2.Canonical) : (ofRecord r).Canonical := by
  intro members hin
  cases hin with
  | self => exact r.inOrder
  | member he hin => exact h _ he members hin

theorem numberFree_arr (h : ∀ i ∈ items, i.NumberFree) : NumberFree (.arr items) := by
  intro n hin
  cases hin with
  | item hi hin => exact h _ hi n hin

theorem numberFree_obj (h : ∀ e ∈ members, e.2.NumberFree) : NumberFree (.obj members) := by
  intro n hin
  cases hin with
  | member he hin => exact h _ he n hin

theorem canonical_str (s : String) : Canonical (.str s) := fun _ hin => nomatch hin

theorem numberFree_str (s : String) : NumberFree (.str s) := fun _ hin => nomatch hin

/-- members in record order are entered as they are -/
theorem ofMembers_eq (h : members.Pairwise (InOrder .indexFirst)) : ofMembers members = .obj members := by
  rw [ofMembers, ofRecord, OrderedMap.entries_ofList h]

theorem canonical_ofMembers (h : ∀ e ∈ members, e.2.Canonical) : (ofMembers members).Canonical :=
  canonical_ofRecord fun e he => h e (OrderedMap.mem_of_mem_ofList he)

theorem numberFree_ofMembers (h : ∀ e ∈ members, e.2.NumberFree) : (ofMembers members).NumberFree :=
  numberFree_obj fun e he => h e (OrderedMap.mem_of_mem_ofList he)

/-- of members with distinct names each is found under its name -/
theorem member?_ofMembers (h : members.Pairwise fun a b => a.1 ≠ b.1) (key : String) :
    (ofMembers members).member? key = OrderedMap.find? key members :=
  OrderedMap.get?_ofList members h key

/-! ## What is read is canonical -/

/-- the values that a stretch of a text stands for -/
def Phrase.values : Phrase → List Json
  | .value v | .padded v | .member _ v => [v]
  | .items l => l
  | .members l => l.map (·.2)

/-- what holds of the values without parts, and of arrays and objects when it holds of their parts, holds of whatever is read -/
theorem forall_values_of_written {P : Json → Prop} (null : P .null) (bool : ∀ b, P (.bool b))
    (number : ∀ d : Decimal, P (.num d.value)) (string : ∀ s, P (.str s)) (array : ∀ l, (∀ i ∈ l, P i) → P (.arr l))
    (object : ∀ l : List (String × Json), (∀ e ∈ l, P e.2) → P (.ofMembers l)) (h : Written p cs) : ∀ v ∈ p.values, P v := by
  induction h with
  | null => exact List.forall_mem_singleton.2 null
  | true_ => exact List.forall_mem_singleton.2 (bool true)
  | false_ => exact List.forall_mem_singleton.2 (bool false)
  | number => exact List.forall_mem_singleton.2 (number _)
  | string => exact List.forall_mem_singleton.2 (string _)
  | emptyArray => exact List.forall_mem_singleton.2 (array [] fun _ hi => nomatch hi)
  | emptyObject => exact List.forall_mem_singleton.2 (object [] fun _ he => nomatch he)
  | array _ ih => exact List.forall_mem_singleton.2 (array _ ih)
  | object _ ih => exact List.forall_mem_singleton.2 (object _ fun e he => ih e.2 (List.mem_map_of_mem he))
  | padded _ _ _ ih => exact ih
  | item _ ih => exact ih
  | member _ _ _ _ ih => exact ih
  | oneMember _ ih => exact ih
  | moreItems _ _ ih ihs => exact List.forall_mem_cons.2 ⟨ih _ List.mem_cons_self, ihs⟩
  | moreMembers _ _ ih ihs => exact List.forall_mem_cons.2 ⟨ih _ List.mem_cons_self, ihs⟩

theorem canonical_of_written (h : Written (.padded v) cs) : v.Canonical :=
  forall_values_of_written (fun _ hin => nomatch hin) (fun _ _ hin => nomatch hin) (fun _ _ hin => nomatch hin) canonical_str
    (fun _ => canonical_arr) (fun _ => canonical_ofMembers) h v List.mem_cons_self

/-! ## What is written is read again -/

theorem Written.padded_of_value (h : Written (.value v) cs) : Written (.padded v) cs := by
  simpa using Written.padded blanks_nil h blanks_nil

theorem Written.member_of_value {key : String} (h : Written (.value v) cs) :
    Written (.member key v) (quote key ++ ':' :: cs) := by
  simpa using Written.member blanks_nil (quoted_quote key) blanks_nil h.padded_of_value

theorem written_number {n : Number} (h : Number.read? n.text.toList = some n) : Written (.value (.num n)) (render (.num n)) := by
  cases n with
  | infinite negative => cases negative <;> cases h
  | finite negative x =>
    obtain ⟨d, hd, htext, hvalue⟩ := Number.read?_eq_some_iff.1 h
    rw [render, ← htext, ← hvalue]
    · exact .number hd
    · exact fun _ hinfinite => nomatch hinfinite

mutual

theorem written_render : ∀ v : Json, v.Canonical → v.Legible → Written (.value v) v.render
  | .null, _, _ => .null
  | .bool true, _, _ => .true_
  | .bool false, _, _ => .false_
  | .num n, _, hl => written_number (hl n .self)
  | .str s, _, _ => .string (quoted_quote s)
  | .arr [], _, _ => .emptyArray blanks_nil
  | .arr (v :: l), hc, hl =>
    .array (written_renderItems (v :: l) (List.cons_ne_nil v l) (fun _ hi => hc.item hi) fun _ hi => hl.item hi)
  | .obj [], _, _ => .emptyObject blanks_nil
  | .obj (e :: l), hc, hl => by
    have h := Written.object
      (written_renderMembers (e :: l) (List.cons_ne_nil e l) (fun _ he => hc.member he) fun _ he => hl.member he)
    rwa [ofMembers_eq (hc _ .self)] at h

theorem written_renderItems : ∀ l : List Json, l ≠ [] → (∀ i ∈ l, i.Canonical) → (∀ i ∈ l, i.Legible) →
    Written (.items l) (renderItems l)
  | [], hne, _, _ => absurd rfl hne
  | [v], _, hc, hl => .item (written_render v (hc v List.mem_cons_self) (hl v List.mem_cons_self)).padded_of_value
  | v :: w :: l, _, hc, hl =>
    .moreItems (written_render v (hc v List.mem_cons_self) (hl v List.mem_cons_self)).padded_of_value
      (written_renderItems (w :: l) (List.cons_ne_nil w l) (fun i hi => hc i (List.mem_cons_of_mem v hi)) fun i hi =>
        hl i (List.mem_cons_of_mem v hi))

theorem written_renderMembers : ∀ l : List (String × Json), l ≠ [] → (∀ e ∈ l, e.2.Canonical) →
    (∀ e ∈ l, e.2.Legible) → Written (.members l) (renderMembers l)
  | [], hne, _, _ => absurd rfl hne
  | [(key, v)], _, hc, hl =>
    .oneMember (written_render v (hc (key, v) List.mem_cons_self) (hl (key, v) List.mem_cons_self)).member_of_value
  | (key, v) :: e :: l, _, hc, hl =>
    .moreMembers (written_render v (hc (key, v) List.mem_cons_self) (hl (key, v) List.mem_cons_self)).member_of_value
      (written_renderMembers (e :: l) (List.cons_ne_nil e l) (fun d hd => hc d (List.mem_cons_of_mem (key, v) hd)) fun d hd =>
        hl d (List.mem_cons_of_mem (key, v) hd))

end

/-- the compact text of a value in record order, whose numbers are read back, is read as that value -/
theorem readChars?_render (hc : v.Canonical) (hl : v.Legible) : readChars? v.render = some v :=
  readChars?_eq_some_iff.2 (written_render v hc hl).padded_of_value

theorem read?_text (hc : v.Canonical) (hn : v.NumberFree) : read? v.text = some v := by
  rw [read?, text, String.toList_ofList, readChars?_render hc hn.legible]

end Json

end LayeredProfiles
