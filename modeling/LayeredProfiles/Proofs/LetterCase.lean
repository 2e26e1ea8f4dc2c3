/-
Letter case: which texts have a plain word as their lower case.

Lower case is that of all of Unicode, and what ends a word for a sigma is left open. Of the letters of ASCII only the k is the lower
case of a letter outside of ASCII.

Results:
- `caseRuns_sound`: the table of capital letters leads out of ASCII nowhere but from the kelvin.
- `lowerCase_eq_iff`: a word of other letters is the lower case of its ASCII variants alone.
-/
import LayeredProfiles.Log.Level
import LayeredProfiles.Proofs.UnitTexts
import LayeredProfiles.Text.LowerCase

namespace LayeredProfiles

variable {c d : Char} {endsWord : List Char → List Char → Bool} {s word : String}

/-- the sign for a kelvin, whose lower case is the ASCII letter k -/
def kelvinRun : CaseRun := ⟨0x212a, 0x212a, 1, -8383⟩

/-- but for the kelvin, no lower case of a letter outside of ASCII is in ASCII; and all of them are characters -/
theorem caseRuns_sound : ∀ r ∈ caseRuns, r.last < 128 ∨ r = kelvinRun ∨
    128 ≤ r.first + r.shift ∧ (r.last + r.shift < 0xd800 ∨ 0xdfff < r.first + r.shift ∧ r.last + r.shift < 0x110000) := by
  decide +kernel

/-- in ASCII, the letters of the first run alone have a lower case -/
theorem lowerChar_of_ascii (h : c.toNat < 128) : lowerChar c = c.toLower := by
  have hbeyond : ∀ r ∈ caseRuns.tail, 128 ≤ r.first := by decide +kernel
  have hrest : caseRuns.tail.find? (·.covers c.toNat) = none := by
    apply List.find?_eq_none.2
    intro r hr hcovers
    have hfirst := hbeyond r hr
    simp only [CaseRun.covers, Bool.and_eq_true, decide_eq_true_eq] at hcovers
    omega
  have hlatin : lowerChar c = if (⟨0x41, 0x5a, 1, 32⟩ : CaseRun).covers c.toNat then Char.ofNat (c.toNat + 32) else c := by
    have hruns : caseRuns = ⟨0x41, 0x5a, 1, 32⟩ :: caseRuns.tail := rfl
    rw [lowerChar, hruns, List.find?_cons, hrest]
    cases (⟨0x41, 0x5a, 1, 32⟩ : CaseRun).covers c.toNat <;> rfl
  have hall : ∀ n < 128, (if (⟨0x41, 0x5a, 1, 32⟩ : CaseRun).covers n then Char.ofNat (n + 32) else Char.ofNat n) =
      (Char.ofNat n).toLower := by decide
  have hc := hall c.toNat h
  rw [Char.ofNat_toNat] at hc
  exact hlatin.trans hc

theorem lowerChar_of_not_ascii (h : 128 ≤ c.toNat) : lowerChar c = 'k' ∨ 128 ≤ (lowerChar c).toNat := by
  unfold lowerChar
  split
  · rename_i r hr
    have hcovers : r.covers c.toNat = true := by simpa using List.find?_some hr
    simp only [CaseRun.covers, Bool.and_eq_true, decide_eq_true_eq] at hcovers
    obtain ⟨⟨hfirst, hlast⟩, -⟩ := hcovers
    rcases caseRuns_sound r (List.mem_of_find?_eq_some hr) with hascii | rfl | ⟨hlow, hvalid⟩
    · omega
    · have hc : c.toNat = 0x212a := Nat.le_antisymm hlast hfirst
      rw [hc]
      exact .inl rfl
    · right
      have hchar : (c.toNat + r.shift).toNat.isValidChar := by
        unfold Nat.isValidChar
        omega
      rw [toNat_ofNat_of_isValidChar hchar]
      omega
  · exact .inr h

/-- a letter that only ASCII letters have as their lower case -/
def IsWordLetter (d : Char) : Prop := d.toNat < 128 ∧ d ≠ 'k'

instance (d : Char) : Decidable (IsWordLetter d) := inferInstanceAs (Decidable (_ ∧ _))

theorem toLower_of_not_ascii (h : 128 ≤ c.toNat) : c.toLower = c := by
  apply dif_neg
  intro hc
  have hz : c.toNat ≤ 'Z'.toNat := hc.2
  exact absurd (h.trans hz) (by decide)

theorem lowerChar_eq_iff (hd : IsWordLetter d) : lowerChar c = d ↔ c.toLower = d := by
  by_cases hc : c.toNat < 128
  · rw [lowerChar_of_ascii hc]
  · obtain ⟨hascii, hk⟩ := hd
    have hc : 128 ≤ c.toNat := Nat.le_of_not_lt hc
    rw [toLower_of_not_ascii hc]
    constructor
    · rintro rfl
      rcases lowerChar_of_not_ascii hc with h | h
      · exact absurd h hk
      · omega
    · rintro rfl
      omega

theorem not_isWordLetter_of_not_ascii (h : d = 'k' ∨ 128 ≤ d.toNat) : ¬ IsWordLetter d := by
  rintro ⟨hascii, hk⟩
  rcases h with h | h
  · exact hk h
  · omega

/-- the lower case of a pair begins with no letter of a word, whichever character the pair stands for -/
theorem exists_units_lowerChar_pairChar (hc : isHighHalf c = true) (hd : isLowHalf d = true) :
    ∃ u us, charUnits (lowerChar (pairChar c d)) = u :: us ∧ ¬ IsWordLetter u := by
  have hpair : 0x10000 ≤ (pairChar c d).toNat := by
    by_contra hlt
    have hunits : charUnits (pairChar c d) = [pairChar c d] := if_pos (by omega)
    have hlength := congrArg List.length ((charUnits_pairChar hc hd).symm.trans hunits)
    simp at hlength
  rcases Nat.lt_or_ge (lowerChar (pairChar c d)).toNat 0x10000 with hlt | hge
  · exact ⟨_, [], if_pos hlt, not_isWordLetter_of_not_ascii (lowerChar_of_not_ascii (by omega))⟩
  · obtain ⟨high, low, hunits, hhigh, -, -⟩ := exists_pair hge
    have hhalf := toNat_of_isHalf (c := high) (by simp [isHalf, hhigh])
    exact ⟨high, [low], hunits, not_isWordLetter_of_not_ascii (.inr (by omega))⟩

theorem lowerAt_append_eq_iff {before after rest rest' ds : List Char} (hds : ∀ d ∈ ds, IsWordLetter d)
    (ih : ∀ {ds : List Char}, (∀ d ∈ ds, IsWordLetter d) → (rest = ds ↔ rest' = ds)) :
    lowerAt endsWord before after c ++ rest = ds ↔ c.toLower :: rest' = ds := by
  unfold lowerAt
  -- the two exceptions leave a character that is in no word, and so does their ASCII lower case
  split
  · rename_i hc
    subst hc
    constructor <;> rintro rfl
    · exact absurd (hds '\u0307' (by simp)) (by decide)
    · exact absurd (hds ('İ'.toLower) List.mem_cons_self) (by decide)
  split
  · rename_i hc
    subst hc
    constructor <;> rintro rfl
    · have hsigma := hds (if endsWord before after = true then 'ς' else 'σ') (by simp)
      split at hsigma <;> exact absurd hsigma (by decide)
    · exact absurd (hds ('Σ'.toLower) List.mem_cons_self) (by decide)
  cases ds with
  | nil => simp
  | cons d ds =>
    obtain ⟨hd, hds⟩ := List.forall_mem_cons.1 hds
    rw [List.singleton_append, List.cons.injEq, List.cons.injEq, lowerChar_eq_iff hd, ih hds]

/-- letters of a word are the lower case of its ASCII variants, wherever they stand -/
theorem lowerFrom_eq_iff {before cs ds : List Char} (hds : ∀ d ∈ ds, IsWordLetter d) :
    lowerFrom endsWord before cs = ds ↔ cs.map Char.toLower = ds := by
  fun_induction lowerFrom endsWord before cs generalizing ds with
  | case1 => rfl
  | case2 before c =>
    have hone : lowerAt endsWord before [] c ++ [] = ds ↔ [c.toLower] = ds := lowerAt_append_eq_iff hds fun _ => Iff.rfl
    simpa using hone
  | case3 before c d after hpair =>
    obtain ⟨hc, hd⟩ := Bool.and_eq_true_iff.1 hpair
    obtain ⟨u, us, hunits, hu⟩ := exists_units_lowerChar_pairChar hc hd
    have hhalf := toNat_of_isHalf (c := c) (by simp [isHalf, hc])
    rw [hunits]
    constructor <;> rintro rfl
    · exact absurd (hds u (by simp)) hu
    · have hfirst := hds c.toLower (by simp)
      rw [toLower_of_not_ascii (by omega)] at hfirst
      exact absurd hfirst (not_isWordLetter_of_not_ascii (.inr (by omega)))
  | case4 before c d after _ ih => exact lowerAt_append_eq_iff hds ih

/-- the texts whose lower case is a word of these letters are its ASCII variants -/
theorem lowerCase_eq_iff (endsWord : List Char → List Char → Bool) (hw : ∀ d ∈ word.toList, IsWordLetter d) :
    lowerCase endsWord s = word ↔ lowerAscii s = word := by
  rw [lowerCase, lowerAscii, ← String.ofList_toList (s := word), String.ofList_inj, String.ofList_inj, lowerFrom_eq_iff hw]

end LayeredProfiles
