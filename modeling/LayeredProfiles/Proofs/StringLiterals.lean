/-
String literals of JSON: what stands between two quotes, and the text it stands for.

A literal is made of pieces (`Json.Piece`): a unit as it is or by an escape of one letter, or its number in four hexadecimal
digits. `Json.Quoted` says of a text and of a literal that the one is written as the other; it does not mention the reader.

Results:
- `Reader.Text.feed?_content`: the reader takes the pieces of a literal one by one.
- `Reader.Text.ends_of_more`: what one character of a string that comes to its end leaves to be written, read backwards.
- `Json.quoted_quote`: what the writer puts for a text is a literal of that text.
- `Json.Quoted.append_inj`, `Json.Quoted.newline_notMem`: a literal ends at one place only, and it is one line.
-/
import Mathlib.Tactic
import LayeredProfiles.Json.Reader

namespace LayeredProfiles

namespace Json

/-! ## Literals -/

/-- a piece of a literal: a unit, or its number -/
inductive Piece where
  | char (c : Char)
  | unit (n : Nat)

def Piece.value : Piece → Char
  | .char c => c
  | .unit n => unitChar n

/-- the letters that stand for a character behind a backslash -/
def shortEscapes : List (Char × Char) :=
  [('"', '"'), ('\\', '\\'), ('/', '/'), ('b', '\x08'), ('f', '\x0c'), ('n', '\n'), ('r', '\r'), ('t', '\t')]

/-- the number that hexadecimal digits write behind those that gave a value -/
def hexNumber? (value : Nat) : List Char → Option Nat
  | [] => some value
  | c :: cs => (Reader.Text.hexValue? c).bind fun d => hexNumber? (16 * value + d) cs

/-- how a piece is written -/
inductive Piece.Written : Piece → List Char → Prop
  | plain {c : Char} (notQuote : c ≠ '"') (notBackslash : c ≠ '\\') (notControl : 0x20 ≤ c.toNat) : Written (.char c) [c]
  | short {letter c : Char} (listed : (letter, c) ∈ shortEscapes) : Written (.char c) ['\\', letter]
  | unit {digits : List Char} {n : Nat} (four : digits.length = 4) (value : hexNumber? 0 digits = some n) :
      Written (.unit n) ('\\' :: 'u' :: digits)

/-- pieces, one behind the other -/
inductive Content : List Piece → List Char → Prop
  | nil : Content [] []
  | cons {p : Piece} {ps : List Piece} {cs rest : List Char} (first : p.Written cs) (others : Content ps rest) :
      Content (p :: ps) (cs ++ rest)

/-- a text and a literal of it -/
def Quoted (s : String) (cs : List Char) : Prop :=
  ∃ pieces content, Content pieces content ∧ s = String.ofList (pieces.map Piece.value) ∧ cs = '"' :: content ++ ['"']

end Json

open Json (Piece Content)

namespace Reader.Text

variable {t u : Text} {p : Piece} {ps : List Piece} {cs rest : List Char} {c : Char} {s : String}

/-! ## Taking a literal apart -/

def take (t : Text) (p : Piece) : Text := t.push p.value

/-- a string that goes on behind some characters -/
def feed? (t : Text) : List Char → Option Text
  | [] => some t
  | c :: cs => match t.step c with
    | some (.more u) => feed? u cs
    | _ => none

theorem spot_take (t : Text) (p : Piece) : (t.take p).spot = .plain := rfl

/-- the units taken are those that the pieces stand for -/
theorem chars_foldl_take (ps : List Piece) (t : Text) : (ps.foldl take t).chars = (ps.map Piece.value).reverse ++ t.chars := by
  induction ps generalizing t with
  | nil => rfl
  | cons p ps ih =>
    rw [List.foldl_cons, ih]
    simp [take, push]

theorem chars_of_start (ps : List Piece) : (ps.foldl take start).chars.reverse = ps.map Piece.value := by
  rw [chars_foldl_take]
  simp [start]

/-! ### From a literal to the reader -/

theorem feed?_cons_more (h : t.step c = some (.more u)) (cs : List Char) : t.feed? (c :: cs) = u.feed? cs := by
  simp [feed?, h]

/-- the digits that are missing of a unit -/
theorem feed?_digits {digits : List Char} {count value n : Nat} (ht : t.spot = .unit count value)
    (hlen : count + digits.length = 4) (hne : digits ≠ []) (hn : Json.hexNumber? value digits = some n) (rest : List Char) :
    t.feed? (digits ++ rest) = (t.take (.unit n)).feed? rest := by
  induction digits generalizing t count value with
  | nil => exact absurd rfl hne
  | cons c cs ih =>
    obtain ⟨d, hd, hn⟩ := Option.bind_eq_some_iff.1 hn
    by_cases hc : count = 3
    · obtain rfl : cs = [] := by
        rw [hc, List.length_cons] at hlen
        exact List.length_eq_zero_iff.1 (by omega)
      obtain rfl : 16 * value + d = n := by simpa [Json.hexNumber?] using hn
      exact feed?_cons_more (by simp [step, ht, hd, hc, take, Piece.value]) rest
    · have hstep : t.step c = some (.more { t with spot := .unit (count + 1) (16 * value + d) }) := by
        simp [step, ht, hd, hc]
      have hcs : cs ≠ [] := by
        rintro rfl
        simp at hlen
        omega
      rw [List.cons_append, feed?_cons_more hstep,
        ih rfl (by simp only [List.length_cons] at hlen; omega) hcs hn]
      rfl

theorem feed?_piece (ht : t.spot = .plain) (h : p.Written cs) (rest : List Char) :
    t.feed? (cs ++ rest) = (t.take p).feed? rest := by
  cases h with
  | @plain c hq hb hc =>
    exact feed?_cons_more (by simp [step, ht, hq, hb, Nat.not_lt.2 hc, take, Piece.value]) rest
  | @short letter c hl =>
    have hesc : t.step '\\' = some (.more { t with spot := .escape }) := by simp [step, ht]
    rw [List.cons_append, feed?_cons_more hesc]
    refine feed?_cons_more ?_ rest
    simp only [Json.shortEscapes, List.mem_cons, Prod.mk.injEq, List.not_mem_nil, or_false] at hl
    rcases hl with ⟨rfl, rfl⟩ | ⟨rfl, rfl⟩ | ⟨rfl, rfl⟩ | ⟨rfl, rfl⟩ | ⟨rfl, rfl⟩ | ⟨rfl, rfl⟩ | ⟨rfl, rfl⟩ |
      ⟨rfl, rfl⟩ <;> rfl
  | @unit digits n hlen hn =>
    have hesc : t.step '\\' = some (.more { t with spot := .escape }) := by simp [step, ht]
    have hu : ({ t with spot := .escape } : Text).step 'u' = some (.more { t with spot := .unit 0 0 }) := rfl
    rw [List.cons_append, feed?_cons_more hesc, List.cons_append, feed?_cons_more hu]
    exact feed?_digits rfl (by omega) (by rintro rfl; simp at hlen) hn rest

theorem feed?_content (ht : t.spot = .plain) (h : Content ps cs) : t.feed? cs = some (ps.foldl take t) := by
  induction h generalizing t with
  | nil => rfl
  | cons hp _ ih => rw [feed?_piece ht hp, List.foldl_cons, ih (spot_take _ _)]

theorem spot_foldl_take (ht : t.spot = .plain) (ps : List Piece) : (ps.foldl take t).spot = .plain := by
  induction ps generalizing t with
  | nil => exact ht
  | cons p ps ih => exact ih (spot_take t p)

/-- the closing quote behind the pieces of a literal -/
theorem step_closing_quote (ps : List Piece) :
    (ps.foldl take start).step '"' = some (.closed (String.ofList (ps.map Piece.value))) := by
  have hspot : (ps.foldl take start).spot = .plain := spot_foldl_take rfl ps
  rw [← chars_of_start]
  simp [step, hspot]

/-- a text that goes on behind a literal's pieces does not go on behind its closing quote -/
theorem feed?_closed (h : Content ps cs) (rest : List Char) : start.feed? (cs ++ '"' :: rest) = none := by
  have hall : ∀ (cs : List Char) (t : Text), t.feed? (cs ++ '"' :: rest) = (t.feed? cs).bind (·.feed? ('"' :: rest)) := by
    intro cs
    induction cs with
    | nil => exact fun t => rfl
    | cons c cs ih =>
      intro t
      simp only [List.cons_append, feed?]
      split
      · exact ih _
      · rfl
  rw [hall, feed?_content rfl h, Option.bind_some, feed?, step_closing_quote]

/-! ### From the reader to a literal -/

/-- a text that ends a string, at a place where a piece may begin: pieces, the quote, and the rest -/
def Closes (t : Text) (cs : List Char) (s : String) (rest : List Char) : Prop :=
  ∃ ps content, Content ps content ∧ cs = content ++ '"' :: rest ∧ s = String.ofList (ps.foldl take t).chars.reverse

/-- a text that ends a string: what is missing of a piece, and then what closes the string -/
def Ends (t : Text) (cs : List Char) (s : String) (rest : List Char) : Prop :=
  match t.spot with
  | .plain => Closes t cs s rest
  | .escape => ∃ p written tail, p.Written ('\\' :: written) ∧ cs = written ++ tail ∧ Closes (t.take p) tail s rest
  | .unit count value => ∃ n digits tail, count + digits.length = 4 ∧ Json.hexNumber? value digits = some n ∧
      cs = digits ++ tail ∧ Closes (t.take (.unit n)) tail s rest

theorem Closes.cons {written tail : List Char} (hp : p.Written written) (h : Closes (t.take p) tail s rest) :
    Closes t (written ++ tail) s rest := by
  obtain ⟨ps, content, hc, rfl, hs⟩ := h
  exact ⟨p :: ps, written ++ content, .cons hp hc, by simp, hs⟩

theorem Ends.closes (ht : t.spot = .plain) (h : Ends t cs s rest) : Closes t cs s rest := by
  simpa [Ends, ht] using h

theorem mem_shortEscapes_of_step (ht : t.spot = .escape) (hu : c ≠ 'u') (h : t.step c = some (.more u)) :
    ∃ d, (c, d) ∈ Json.shortEscapes ∧ u = t.push d := by
  simp only [step, ht] at h
  split at h
  case h_9 => exact absurd rfl hu
  case h_10 => cases h
  all_goals
    cases h
    exact ⟨_, by decide, rfl⟩

/-- what ends a string behind a character ends it, with the character in front, before it -/
theorem ends_of_more (h : t.step c = some (.more u)) (he : Ends u cs s rest) : Ends t (c :: cs) s rest := by
  cases ht : t.spot with
  | plain =>
    simp only [Ends, ht]
    by_cases hq : c = '"'
    · simp [step, ht, hq] at h
    by_cases hb : c = '\\'
    · have hu : u = { t with spot := .escape } := by simpa [step, ht, hb, eq_comm] using h
      subst hu hb
      obtain ⟨p, written, tail, hp, rfl, hc⟩ := he
      exact Closes.cons hp hc
    · by_cases hc : c.toNat < 0x20
      · simp [step, ht, hq, hb, hc] at h
      · have hu : u = t.push c := by simpa [step, ht, hq, hb, hc, eq_comm] using h
        subst hu
        exact Closes.cons (.plain hq hb (Nat.le_of_not_lt hc)) (he.closes rfl)
  | escape =>
    simp only [Ends, ht]
    by_cases hu : c = 'u'
    · have hu' : u = { t with spot := .unit 0 0 } := by
        subst hu
        simpa [step, ht, eq_comm] using h
      subst hu hu'
      obtain ⟨n, digits, tail, hlen, hn, rfl, hc⟩ := he
      exact ⟨.unit n, 'u' :: digits, tail, .unit (by omega) hn, rfl, hc⟩
    · obtain ⟨d, hd, rfl⟩ := mem_shortEscapes_of_step ht hu h
      exact ⟨.char d, [c], cs, .short hd, rfl, he.closes rfl⟩
  | unit count value =>
    simp only [Ends, ht]
    cases hd : hexValue? c with
    | none => simp [step, ht, hd] at h
    | some d =>
      by_cases hcount : count = 3
      · have hu : u = t.take (.unit (16 * value + d)) := by simpa [step, ht, hd, hcount, take, Piece.value, eq_comm] using h
        subst hu
        exact ⟨_, [c], cs, by simp [hcount], by simp [Json.hexNumber?, hd], rfl, he.closes (spot_take t _)⟩
      · have hu : u = { t with spot := .unit (count + 1) (16 * value + d) } := by
          simpa [step, ht, hd, hcount, eq_comm] using h
        subst hu
        obtain ⟨n, digits, tail, hlen, hn, rfl, hc⟩ := he
        exact ⟨n, c :: digits, tail, by simp only [List.length_cons]; omega, by simp [Json.hexNumber?, hd, hn], rfl, hc⟩

theorem ends_of_closed (h : t.step c = some (.closed s)) : Ends t (c :: rest) s rest := by
  cases ht : t.spot with
  | plain =>
    by_cases hq : c = '"'
    · subst hq
      have hs : s = String.ofList t.chars.reverse := by simpa [step, ht, eq_comm] using h
      simp only [Ends, ht]
      exact ⟨[], [], .nil, rfl, hs⟩
    · simp only [step, ht, hq, if_false] at h
      split at h
      · simp at h
      split at h <;> simp at h
  | escape =>
    simp only [step, ht] at h
    split at h <;> simp at h
  | unit count value =>
    simp only [step, ht] at h
    split at h
    · simp at h
    split at h <;> simp at h

/-- what ends a string behind its opening quote is the rest of a literal -/
theorem Ends.quoted (h : Ends start cs s rest) : ∃ literal, Json.Quoted s literal ∧ '"' :: cs = literal ++ rest := by
  obtain ⟨ps, content, hc, rfl, hs⟩ := h.closes rfl
  rw [chars_of_start] at hs
  exact ⟨_, ⟨ps, content, hc, hs, rfl⟩, by simp⟩

end Reader.Text

/-! ## What the writer puts -/

namespace Json

theorem hexValue?_digitChar {d : Nat} (h : d < 16) : Reader.Text.hexValue? (Nat.digitChar d) = some d := by
  revert d
  decide

theorem hexNumber?_hex4 {n : Nat} (h : n < 0x10000) : hexNumber? 0 (hex4 n) = some n := by
  have hd : ∀ d, Reader.Text.hexValue? (Nat.digitChar (d % 16)) = some (d % 16) := fun d =>
    hexValue?_digitChar (Nat.mod_lt d (by decide))
  simp only [hex4, List.map_cons, List.map_nil, hexNumber?, hd, Option.bind_some, Option.some.injEq]
  omega

/-- the control characters with an escape of one letter -/
def shortControls : List Nat := [8, 9, 10, 12, 13]

/-- the piece that the writer puts for a character -/
def pieceOf (c : Char) : Piece := if 0x20 ≤ c.toNat ∨ c.toNat ∈ shortControls then .char c else .unit c.toNat

theorem written_quoteChar (c : Char) : (pieceOf c).Written (quoteChar c) := by
  by_cases hc : 0x20 ≤ c.toNat ∨ c.toNat ∈ shortControls
  · rw [pieceOf, if_pos hc]
    unfold quoteChar
    split
    · rename_i hq
      subst hq
      exact .short (by decide)
    split
    · rename_i hb
      subst hb
      exact .short (by decide)
    split
    · rename_i hq hb hp
      exact .plain hq hb hp
    · rename_i hp
      have hshort : ∀ d : Char, c.toNat = d.toNat → c = d := fun d => Char.toNat_inj.1
      have hmem : c.toNat ∈ shortControls := hc.resolve_left hp
      simp only [shortControls, List.mem_cons, List.not_mem_nil, or_false] at hmem
      rcases hmem with h | h | h | h | h
      · exact hshort '\x08' h ▸ .short (by decide)
      · exact hshort '\t' h ▸ .short (by decide)
      · exact hshort '\n' h ▸ .short (by decide)
      · exact hshort '\x0c' h ▸ .short (by decide)
      · exact hshort '\r' h ▸ .short (by decide)
  · obtain ⟨hp, hs⟩ := not_or.1 hc
    have hq : c ≠ '"' := by
      rintro rfl
      exact hp (by decide)
    have hb : c ≠ '\\' := by
      rintro rfl
      exact hp (by decide)
    have hquote : quoteChar c = '\\' :: 'u' :: hex4 c.toNat := by
      simp only [shortControls, List.mem_cons, List.not_mem_nil, or_false, not_or] at hs
      simp only [quoteChar, hq, hb, hp, if_false]
      split <;> simp_all
    rw [pieceOf, if_neg hc, hquote]
    exact .unit rfl (hexNumber?_hex4 (by omega))

theorem value_pieceOf (c : Char) : (pieceOf c).value = c := by
  unfold pieceOf
  split
  · rfl
  · rename_i hc
    have hlt : c.toNat < 0x20 := Nat.lt_of_not_le fun h => hc (.inl h)
    rw [Piece.value, unitChar, if_neg (by omega), Char.ofNat_toNat]

/-- a half is a unit that can stand in a literal as it is -/
theorem written_half {c : Char} (h : isHalf c = true) : (Piece.char c).Written [c] := by
  have hc := toNat_of_isHalf h
  refine .plain ?_ ?_ (by omega) <;> rintro rfl <;> exact absurd hc (by decide)

theorem written_quoteLone (c : Char) : ∃ p : Piece, p.value = c ∧ p.Written (quoteLone c) := by
  unfold quoteLone
  split
  · rename_i hc
    have hn := toNat_of_isHalf hc
    exact ⟨.unit (halfNumber c), unitChar_halfNumber hc, .unit rfl (hexNumber?_hex4 (by unfold halfNumber; omega))⟩
  · exact ⟨pieceOf c, value_pieceOf c, written_quoteChar c⟩

theorem content_quoteUnits (cs : List Char) : ∃ ps : List Piece, ps.map Piece.value = cs ∧ Content ps (quoteUnits cs) := by
  fun_induction quoteUnits cs with
  | case1 => exact ⟨[], rfl, .nil⟩
  | case2 c =>
    obtain ⟨p, hp, hw⟩ := written_quoteLone c
    refine ⟨[p], by simp [hp], ?_⟩
    simpa using Content.cons hw .nil
  | case3 c d rest hpair ih =>
    obtain ⟨ps, hps, hcontent⟩ := ih
    obtain ⟨hc, hd⟩ := Bool.and_eq_true_iff.1 hpair
    refine ⟨.char c :: .char d :: ps, by simp [Piece.value, hps], ?_⟩
    exact .cons (written_half (by simp [isHalf, hc])) (.cons (written_half (by simp [isHalf, hd])) hcontent)
  | case4 c d rest _ ih =>
    obtain ⟨ps, hps, hcontent⟩ := ih
    obtain ⟨p, hp, hw⟩ := written_quoteLone c
    exact ⟨p :: ps, by simp [hp, hps], .cons hw hcontent⟩

/-- what the writer puts for a text is a literal of it -/
theorem quoted_quote (s : String) : Quoted s (quote s) := by
  obtain ⟨ps, hps, hcontent⟩ := content_quoteUnits s.toList
  exact ⟨ps, _, hcontent, by rw [hps, String.ofList_toList], rfl⟩

theorem newline_notMem_of_hexNumber? {digits : List Char} {value n : Nat} (h : hexNumber? value digits = some n) :
    '\n' ∉ digits := by
  induction digits generalizing value with
  | nil => exact List.not_mem_nil
  | cons c digits ih =>
    obtain ⟨d, hd, hrest⟩ := Option.bind_eq_some_iff.1 h
    rintro (_ | ⟨_, hmem⟩)
    · cases hd
    · exact ih hrest hmem

theorem Piece.Written.newline_notMem {p : Piece} {cs : List Char} (h : p.Written cs) : '\n' ∉ cs := by
  cases h with
  | plain _ _ notControl =>
    rw [List.mem_singleton]
    rintro rfl
    exact absurd notControl (by decide)
  | short listed =>
    have hletters : ∀ e ∈ shortEscapes, '\n' ∉ ['\\', e.1] := by decide
    exact hletters _ listed
  | unit _ value =>
    have hdigits := newline_notMem_of_hexNumber? value
    simp [hdigits]

theorem Content.newline_notMem {ps : List Piece} {cs : List Char} (h : Content ps cs) : '\n' ∉ cs := by
  induction h with
  | nil => exact List.not_mem_nil
  | cons first _ ih => simpa using ⟨first.newline_notMem, ih⟩

/-- a literal is one line -/
theorem Quoted.newline_notMem {s : String} {cs : List Char} (h : Quoted s cs) : '\n' ∉ cs := by
  obtain ⟨ps, content, hcontent, -, rfl⟩ := h
  simpa using hcontent.newline_notMem

/-- a literal ends at one place only, so the text behind it is known with it -/
theorem Quoted.append_inj {s s' : String} {cs cs' rest rest' : List Char} (h : Quoted s cs) (h' : Quoted s' cs')
    (heq : cs ++ rest = cs' ++ rest') : s = s' ∧ rest = rest' := by
  obtain ⟨ps, content, hc, rfl, rfl⟩ := h
  obtain ⟨ps', content', hc', rfl, rfl⟩ := h'
  have hbody : content ++ '"' :: rest = content' ++ '"' :: rest' := by simpa using heq
  -- were one content longer than the other, it would run over the other's closing quote
  have hlonger : ∀ {ps ps' content content' a rest rest'}, Content ps content → Content ps' content' →
      content' = content ++ a → '"' :: rest = a ++ '"' :: rest' → a = [] := by
    intro ps ps' content content' a rest rest' hc hc' hlong hrest
    cases a with
    | nil => rfl
    | cons c a =>
      obtain ⟨rfl, -⟩ := List.cons.inj hrest
      have hfeed := Reader.Text.feed?_content (t := Reader.Text.start) rfl hc'
      rw [hlong, Reader.Text.feed?_closed hc] at hfeed
      cases hfeed
  have hsame : content = content' := by
    rcases List.append_eq_append_iff.1 hbody with ⟨a, hlong, hrest⟩ | ⟨a, hlong, hrest⟩
    · rw [hlong, hlonger hc hc' hlong hrest, List.append_nil]
    · rw [hlong, hlonger hc' hc hlong hrest, List.append_nil]
  subst hsame
  have hfeed := (Reader.Text.feed?_content (t := Reader.Text.start) rfl hc).symm.trans (Reader.Text.feed?_content rfl hc')
  have htake := congrArg (fun t => t.chars.reverse) (Option.some.inj hfeed)
  simp only [Reader.Text.chars_of_start] at htake
  exact ⟨by rw [htake], (List.cons.inj (List.append_cancel_left hbody)).2⟩

end Json

end LayeredProfiles
