/-
Characters and units: a text taken apart into units is put together again.

A text is whole when it is some characters taken apart (`Whole`); then no half in it is without its partner. What a writer puts for
any text of units is whole, since it escapes the other halves.

Results:
- `ofUnits_toUnits`: characters taken apart are put together again.
- `Json.whole_quote`, `Json.whole_render_obj`: what is written for texts of units is whole.
-/
import Mathlib.Tactic
import LayeredProfiles.Json

namespace LayeredProfiles

variable {c d : Char} {cs ds : List Char} {s : String}

/-! ## Halves -/

theorem toNat_ofNat_of_isValidChar {n : Nat} (h : n.isValidChar) : (Char.ofNat n).toNat = n := by
  rw [Char.ofNat, dif_pos h]
  rfl

theorem isHalf_of_basic (h : c.toNat < 0x10000) : isHalf c = false := by
  by_contra hc
  have hhalf := toNat_of_isHalf (Bool.of_not_eq_false hc)
  omega

theorem toNat_unitChar_of_half {n : Nat} (h : 0xd800 ≤ n ∧ n ≤ 0xdfff) : (unitChar n).toNat = 0x100000 + n := by
  rw [unitChar, if_pos h]
  exact toNat_ofNat_of_isValidChar (.inr ⟨by omega, by omega⟩)

theorem halfNumber_unitChar {n : Nat} (h : 0xd800 ≤ n ∧ n ≤ 0xdfff) : halfNumber (unitChar n) = n := by
  unfold halfNumber
  rw [toNat_unitChar_of_half h]
  omega

/-- a character beyond the basic plane is a pair of halves, which stands for it -/
theorem exists_pair (h : 0x10000 ≤ c.toNat) :
    ∃ high low, charUnits c = [high, low] ∧ isHighHalf high = true ∧ isLowHalf low = true ∧ pairChar high low = c := by
  have hvalid : c.toNat < 0xd800 ∨ 0xdfff < c.toNat ∧ c.toNat < 0x110000 := c.valid
  obtain ⟨n, hn⟩ := Nat.exists_eq_add_of_le h
  have hunits : charUnits c = [unitChar (0xd800 + n / 0x400), unitChar (0xdc00 + n % 0x400)] := by
    rw [charUnits, if_neg (by omega), hn, Nat.add_sub_cancel_left]
  refine ⟨_, _, hunits, ?_, ?_, ?_⟩
  · simp only [isHighHalf, toNat_unitChar_of_half (n := 0xd800 + n / 0x400) (by omega), Bool.and_eq_true, decide_eq_true_eq]
    omega
  · simp only [isLowHalf, toNat_unitChar_of_half (n := 0xdc00 + n % 0x400) (by omega), Bool.and_eq_true, decide_eq_true_eq]
    omega
  · have hnumber : 0x10000 + (0xd800 + n / 0x400 - 0xd800) * 0x400 + (0xdc00 + n % 0x400 - 0xdc00) = c.toNat := by omega
    rw [pairChar, halfNumber_unitChar (by omega), halfNumber_unitChar (by omega), hnumber, Char.ofNat_toNat]

theorem charUnits_pairChar (hc : isHighHalf c = true) (hd : isLowHalf d = true) : charUnits (pairChar c d) = [c, d] := by
  have hhigh : isHalf c = true := by simp [isHalf, hc]
  have hlow : isHalf d = true := by simp [isHalf, hd]
  simp only [isHighHalf, Bool.and_eq_true, decide_eq_true_eq] at hc
  simp only [isLowHalf, Bool.and_eq_true, decide_eq_true_eq] at hd
  have hvalue : (pairChar c d).toNat = 0x10000 + (halfNumber c - 0xd800) * 0x400 + (halfNumber d - 0xdc00) := by
    apply toNat_ofNat_of_isValidChar
    unfold halfNumber
    exact .inr ⟨by omega, by omega⟩
  have hfirst : 0xd800 + ((pairChar c d).toNat - 0x10000) / 0x400 = halfNumber c := by
    rw [hvalue]
    unfold halfNumber
    omega
  have hsecond : 0xdc00 + ((pairChar c d).toNat - 0x10000) % 0x400 = halfNumber d := by
    rw [hvalue]
    unfold halfNumber
    omega
  rw [charUnits, if_neg (by omega), hfirst, hsecond, unitChar_halfNumber hhigh, unitChar_halfNumber hlow]

/-! ## Texts -/

theorem toUnits_append (cs ds : List Char) : toUnits (cs ++ ds) = toUnits cs ++ toUnits ds := List.flatMap_append

/-- characters of the basic plane are units as they are -/
theorem toUnits_of_basic (h : ∀ c ∈ cs, c.toNat < 0x10000) : toUnits cs = cs := by
  induction cs with
  | nil => rfl
  | cons c cs ih =>
    obtain ⟨hc, hcs⟩ := List.forall_mem_cons.1 h
    have hunits : charUnits c = [c] := if_pos hc
    have hrest : cs.flatMap charUnits = cs := ih hcs
    rw [toUnits, List.flatMap_cons, hunits, hrest, List.singleton_append]

/-- characters taken apart are put together again -/
theorem ofUnits_toUnits (cs : List Char) : ofUnits (toUnits cs) = cs := by
  induction cs with
  | nil => rfl
  | cons c cs ih =>
    rw [toUnits, List.flatMap_cons]
    change ofUnits (charUnits c ++ toUnits cs) = c :: cs
    rcases Nat.lt_or_ge c.toNat 0x10000 with hc | hc
    · have hhalf := isHalf_of_basic hc
      have hhigh : isHighHalf c = false := (Bool.or_eq_false_iff.1 hhalf).1
      have hunits : charUnits c = [c] := if_pos hc
      rw [hunits, List.singleton_append]
      cases hrest : toUnits cs with
      | nil =>
        rw [hrest] at ih
        simp [ofUnits, loneChar, hhalf, ← ih]
      | cons d ds =>
        rw [hrest] at ih
        simp [ofUnits, loneChar, hhalf, hhigh, ih]
    · obtain ⟨high, low, hunits, hhigh, hlow, hpair⟩ := exists_pair hc
      simp [hunits, ofUnits, hhigh, hlow, hpair, ih]

/-- a unit: a character of the basic plane, or a half of a pair -/
def IsUnit (c : Char) : Prop := c.toNat < 0x10000 ∨ isHalf c = true

/-- a text of units -/
def IsText (s : String) : Prop := ∀ c ∈ s.toList, IsUnit c

instance (c : Char) : Decidable (IsUnit c) := inferInstanceAs (Decidable (_ ∨ _))

instance (s : String) : Decidable (IsText s) :=
  decidable_of_iff ((s.toList.all fun c => decide (IsUnit c)) = true) <| by
    simp only [List.all_eq_true, decide_eq_true_eq]
    rfl

/-! ## Whole texts -/

/-- characters taken apart -/
def Whole (cs : List Char) : Prop := ∃ chars, toUnits chars = cs

theorem whole_of_basic (h : ∀ c ∈ cs, c.toNat < 0x10000) : Whole cs := ⟨cs, toUnits_of_basic h⟩

theorem Whole.append (hc : Whole cs) (hd : Whole ds) : Whole (cs ++ ds) := by
  obtain ⟨as, rfl⟩ := hc
  obtain ⟨bs, rfl⟩ := hd
  exact ⟨as ++ bs, toUnits_append as bs⟩

theorem Whole.cons (hc : c.toNat < 0x10000) (h : Whole cs) : Whole (c :: cs) :=
  (whole_of_basic (List.forall_mem_singleton.2 hc)).append h

namespace Json

theorem toNat_digitChar_lt (n : Nat) : (Nat.digitChar (n % 16)).toNat < 0x10000 := by
  have hall : ∀ d < 16, (Nat.digitChar d).toNat < 0x10000 := by decide
  exact hall _ (Nat.mod_lt n (by decide))

theorem whole_hex4 (n : Nat) : Whole (hex4 n) := by
  apply whole_of_basic
  intro c hc
  obtain ⟨d, -, rfl⟩ := List.mem_map.1 hc
  exact toNat_digitChar_lt d

theorem whole_unit (n : Nat) : Whole ('\\' :: 'u' :: hex4 n) := (whole_hex4 n).cons (by decide) |>.cons (by decide)

theorem whole_quoteChar (h : c.toNat < 0x10000) : Whole (quoteChar c) := by
  have hescape : ∀ d : Char, d.toNat < 0x10000 → Whole ['\\', d] := fun d hd =>
    whole_of_basic (List.forall_mem_cons.2 ⟨by decide, List.forall_mem_singleton.2 hd⟩)
  unfold quoteChar
  split
  · exact hescape _ (by decide)
  split
  · exact hescape _ (by decide)
  split
  · exact whole_of_basic (List.forall_mem_singleton.2 h)
  split
  case _ => exact hescape _ (by decide)
  case _ => exact hescape _ (by decide)
  case _ => exact hescape _ (by decide)
  case _ => exact hescape _ (by decide)
  case _ => exact hescape _ (by decide)
  case _ => exact whole_unit _

theorem whole_quoteLone (h : IsUnit c) : Whole (quoteLone c) := by
  unfold quoteLone
  split
  · exact whole_unit _
  · rename_i hhalf
    exact whole_quoteChar (h.resolve_right hhalf)

/-- in what is put for units, halves stand in pairs only -/
theorem whole_quoteUnits (h : ∀ c ∈ cs, IsUnit c) : Whole (quoteUnits cs) := by
  fun_induction quoteUnits cs with
  | case1 => exact ⟨[], rfl⟩
  | case2 c => exact whole_quoteLone (h c List.mem_cons_self)
  | case3 c d rest hpair ih =>
    obtain ⟨hc, hd⟩ := Bool.and_eq_true_iff.1 hpair
    have hboth : Whole [c, d] := ⟨[pairChar c d], by simp [toUnits, charUnits_pairChar hc hd]⟩
    exact hboth.append (ih fun e he => h e (List.mem_cons_of_mem c (List.mem_cons_of_mem d he)))
  | case4 c d rest _ ih =>
    exact (whole_quoteLone (h c List.mem_cons_self)).append (ih fun e he => h e (List.mem_cons_of_mem c he))

theorem whole_quote (h : IsText s) : Whole (quote s) :=
  (whole_quoteUnits h).append (whole_of_basic (List.forall_mem_singleton.2 (by decide))) |>.cons (by decide)

theorem whole_renderMembers : ∀ members : List (String × Json), (∀ e ∈ members, IsText e.1 ∧ Whole e.2.render) →
    Whole (renderMembers members)
  | [], _ => ⟨[], rfl⟩
  | [(key, v)], h => by
    obtain ⟨hkey, hv⟩ := h (key, v) List.mem_cons_self
    exact (whole_quote hkey).append (hv.cons (c := ':') (by decide))
  | (key, v) :: e :: rest, h => by
    obtain ⟨⟨hkey, hv⟩, hrest⟩ := List.forall_mem_cons.1 h
    have hfirst := (whole_quote hkey).append (hv.cons (c := ':') (by decide))
    exact hfirst.append ((whole_renderMembers (e :: rest) hrest).cons (by decide))

/-- the text of an object is whole when its keys are texts of units and the texts of its members are whole -/
theorem whole_render_obj {members : List (String × Json)} (h : ∀ e ∈ members, IsText e.1 ∧ Whole e.2.render) :
    Whole (render (.obj members)) :=
  (whole_renderMembers members h).append (whole_of_basic (List.forall_mem_singleton.2 (by decide))) |>.cons (by decide)

end Json

end LayeredProfiles
