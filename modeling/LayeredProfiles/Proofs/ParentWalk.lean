/-
The parent walk of a section: its own name, then the parent that it declares, then the parent that this one declares, and so
on. `walk` gives the first names of a walk, `ancestry` a walk that ends in full.

A name is `Sound` when its walk stays among the sections, never repeats a name and ends at a section without parent. A
`WalkFault` is what a walk meets otherwise: a name that no section has, or a name that it has passed before.

Results:
- `sound_iff_rooted`: a name is sound exactly when finitely many links lead from it to a root. The links give the induction
  that the proofs about walks go by.
- `Rooted.ancestry_of_link`: the walk of a child is the child followed by the walk of its parent.
- `WalkFault.not_sound`, `WalkFault.unique`: a walk with a fault is not sound, and no walk has two faults.
-/
import Mathlib.Tactic
import LayeredProfiles.ParentsFirst

namespace LayeredProfiles

namespace Sections

variable {m : Sections} {n a parent : String} {h : Nat}

/-! ## Walks -/

/-- the first names of the parent walk of a name, at most so many -/
def walk (m : Sections) : String → Nat → List String
  | _, 0 => []
  | n, k + 1 =>
    n :: match m.parentOf? n with
      | none => []
      | some parent => m.walk parent k

/-- the whole walk of a name, when it ends without repeating a name: then no more names than sections are on it -/
def ancestry (m : Sections) (n : String) : List String := m.walk n m.size

/-- the walk stays among the sections, never repeats a name, and ends at a section that declares no parent -/
structure Sound (m : Sections) (n : String) : Prop where
  within : ∀ k, ∀ a ∈ m.walk n k, m.contains a = true
  distinct : ∀ k, (m.walk n k).Nodup
  ends : ∃ k root, (m.walk n k).getLast? = some root ∧ m.parentOf? root = none

/-- what the walk of a name meets that is not sound -/
inductive WalkFault (m : Sections) (n : String) : ParentFault → Prop where
  /-- without repeating a name, it comes to one that no section has -/
  | missing {path : List String} {parent : String} (along : m.walk n (path.length + 1) = path ++ [parent])
      (distinct : (path ++ [parent]).Nodup) (absent : m.contains parent = false) : WalkFault m n (.missing parent)
  /-- it comes back to a name: the names up to the first that is repeated -/
  | circular {path : List String} {again : String} (along : m.walk n (path.length + 1) = path ++ [again])
      (distinct : path.Nodup) (repeated : again ∈ path) : WalkFault m n (.circular (path ++ [again]))

/-- every declared parent is there and stands before its child -/
def TopDown (m : Sections) : Prop :=
  ∀ child parent, m.parentOf? child = some parent → m.keys.idxOf parent < m.keys.idxOf child

/-- every declared parent is there -/
def Closed (m : Sections) : Prop := ∀ child parent, m.parentOf? child = some parent → m.contains parent = true

theorem contains_of_parentOf? (hp : m.parentOf? n = some parent) : m.contains n = true := by
  unfold parentOf? at hp
  obtain ⟨properties, hg, -⟩ := Option.bind_eq_some_iff.1 hp
  simp [OrderedMap.contains, hg]

theorem TopDown.closed (ht : m.TopDown) : m.Closed := by
  intro child parent hp
  have hc := List.idxOf_lt_length_of_mem ((m.mem_keys_iff child).2 (contains_of_parentOf? hp))
  exact (m.mem_keys_iff parent).1 (List.idxOf_lt_length_iff.1 ((ht child parent hp).trans hc))

theorem parentOf?_of_get? {p : Properties} (hg : m.get? n = some p) : m.parentOf? n = p.declaredParent? := by
  rw [parentOf?, hg]
  rfl

theorem parentOf?_congr {m' : Sections} (hg : m'.get? n = m.get? n) : m'.parentOf? n = m.parentOf? n := by
  rw [parentOf?, parentOf?, hg]

theorem walk_of_root (hp : m.parentOf? n = none) (k : Nat) : m.walk n (k + 1) = [n] := by
  simp [walk, hp]

theorem walk_of_link (hp : m.parentOf? n = some parent) (k : Nat) : m.walk n (k + 1) = n :: m.walk parent k := by
  simp [walk, hp]

/-- a list that begins with a name and goes on from child to parent is the beginning of the name's walk -/
theorem walk_of_chain {path : List String} (hh : path.head? = some n)
    (hc : path.IsChain fun child parent => m.parentOf? child = some parent) : m.walk n path.length = path := by
  induction path generalizing n with
  | nil => simp at hh
  | cons a rest ih =>
    obtain rfl : a = n := by simpa using hh
    cases rest with
    | nil => simp only [List.length_cons, List.length_nil]; unfold walk; split <;> rfl
    | cons b rest =>
      obtain ⟨hab, hrest⟩ := List.isChain_cons_cons.1 hc
      rw [List.length_cons, walk_of_link hab, ih rfl hrest]

theorem walk_prefix (m : Sections) (n : String) {j k : Nat} (hjk : j ≤ k) : m.walk n j <+: m.walk n k := by
  induction j generalizing n k with
  | zero => exact List.nil_prefix
  | succ j ih =>
    obtain ⟨k, rfl⟩ : ∃ k', k = k' + 1 := ⟨k - 1, by omega⟩
    cases hp : m.parentOf? n with
    | none => rw [walk_of_root hp, walk_of_root hp]
    | some parent =>
      rw [walk_of_link hp, walk_of_link hp]
      exact List.cons_prefix_cons.2 ⟨rfl, ih parent (by omega)⟩

/-- every name of a walk but the last declares a parent -/
theorem contains_of_mem_walk {path : List String} {last : String} {k : Nat} (hw : m.walk n k = path ++ [last])
    (ha : a ∈ path) : m.contains a = true := by
  induction k generalizing n path with
  | zero => simp [walk] at hw
  | succ k ih =>
    cases hp : m.parentOf? n with
    | none =>
      rw [walk_of_root hp] at hw
      cases path with
      | nil => simp at ha
      | cons b path => simp at hw
    | some parent =>
      rw [walk_of_link hp] at hw
      cases path with
      | nil => simp at ha
      | cons b path =>
        obtain ⟨rfl, hrest⟩ := List.cons.inj hw
        rcases List.mem_cons.1 ha with rfl | ha
        · exact contains_of_parentOf? hp
        · exact ih hrest ha

/-! ## Sound names by induction -/

/-- so many links lead from a name to a section that declares no parent -/
inductive Rooted (m : Sections) : String → Nat → Prop where
  | root {n : String} (here : m.contains n = true) (top : m.parentOf? n = none) : Rooted m n 0
  | link {n parent : String} {h : Nat} (up : m.parentOf? n = some parent) (rest : Rooted m parent h) : Rooted m n (h + 1)

theorem Rooted.contains (hr : m.Rooted n h) : m.contains n = true := by
  cases hr with
  | root here _ => exact here
  | link up _ => exact contains_of_parentOf? up

theorem Rooted.height_unique {h' : Nat} (hr : m.Rooted n h) (hr' : m.Rooted n h') : h = h' := by
  induction hr generalizing h' with
  | root _ top =>
    cases hr' with
    | root _ _ => rfl
    | link up _ => rw [top] at up; cases up
  | link up _ ih =>
    cases hr' with
    | root _ top => rw [top] at up; cases up
    | link up' rest' => rw [up] at up'; cases up'; rw [ih rest']

/-- the names of a rooted walk are rooted, none higher than the first -/
theorem Rooted.of_mem_walk (hr : m.Rooted n h) {k : Nat} (ha : a ∈ m.walk n k) : ∃ j ≤ h, m.Rooted a j := by
  induction hr generalizing k with
  | root here top =>
    cases k with
    | zero => simp [walk] at ha
    | succ k =>
      rw [walk_of_root top, List.mem_singleton] at ha
      exact ⟨0, Nat.le_refl 0, ha ▸ .root here top⟩
  | link up rest ih =>
    cases k with
    | zero => simp [walk] at ha
    | succ k =>
      rw [walk_of_link up] at ha
      rcases List.mem_cons.1 ha with rfl | ha
      · exact ⟨_, Nat.le_refl _, .link up rest⟩
      · obtain ⟨j, hj, hra⟩ := ih ha
        exact ⟨j, by omega, hra⟩

theorem Rooted.walk_nodup (hr : m.Rooted n h) (k : Nat) : (m.walk n k).Nodup := by
  induction hr generalizing k with
  | root here top =>
    cases k with
    | zero => simp [walk]
    | succ k => simp [walk_of_root top]
  | @link n parent h up rest ih =>
    cases k with
    | zero => simp [walk]
    | succ k =>
      rw [walk_of_link up]
      refine List.nodup_cons.2 ⟨fun hn => ?_, ih k⟩
      -- the name would be rooted at two heights
      obtain ⟨j, hj, hrn⟩ := rest.of_mem_walk hn
      have := hrn.height_unique (.link up rest)
      omega

theorem Rooted.length_walk (hr : m.Rooted n h) : (m.walk n (h + 1)).length = h + 1 := by
  induction hr with
  | root _ top => simp [walk_of_root top]
  | link up _ ih => simp [walk_of_link up, ih]

/-- the walk has come to its end after as many names as there are links, and one -/
theorem Rooted.walk_of_lt (hr : m.Rooted n h) {k : Nat} (hk : h < k) : m.walk n k = m.walk n (h + 1) := by
  induction hr generalizing k with
  | root _ top =>
    obtain ⟨k, rfl⟩ : ∃ k', k = k' + 1 := ⟨k - 1, by omega⟩
    rw [walk_of_root top, walk_of_root top]
  | link up _ ih =>
    obtain ⟨k, rfl⟩ : ∃ k', k = k' + 1 := ⟨k - 1, by omega⟩
    rw [walk_of_link up, walk_of_link up, ih (by omega)]

theorem Rooted.walk_ends (hr : m.Rooted n h) :
    ∃ root, (m.walk n (h + 1)).getLast? = some root ∧ m.parentOf? root = none := by
  induction hr with
  | @root n _ top => exact ⟨n, by simp [walk_of_root top], top⟩
  | @link n parent h up rest ih =>
    obtain ⟨root, hl, ht⟩ := ih
    refine ⟨root, ?_, ht⟩
    rw [walk_of_link up, List.getLast?_cons, hl]
    rfl

theorem Rooted.sound (hr : m.Rooted n h) : m.Sound n where
  within k a ha := by
    obtain ⟨j, -, hra⟩ := hr.of_mem_walk ha
    exact hra.contains
  distinct := hr.walk_nodup
  ends := ⟨h + 1, hr.walk_ends⟩

/-- a walk that ends among the sections leads to a root -/
theorem exists_rooted {k : Nat} {root : String} (hl : (m.walk n k).getLast? = some root)
    (hw : ∀ a ∈ m.walk n k, m.contains a = true) (ht : m.parentOf? root = none) : ∃ h, m.Rooted n h := by
  induction k generalizing n with
  | zero => simp [walk] at hl
  | succ k ih =>
    cases hp : m.parentOf? n with
    | none => exact ⟨0, .root (hw n (by simp [walk_of_root hp])) hp⟩
    | some parent =>
      rw [walk_of_link hp] at hl hw
      cases hq : (m.walk parent k).getLast? with
      | none =>
        rw [List.getLast?_cons, hq] at hl
        obtain rfl : n = root := by simpa using hl
        rw [hp] at ht
        cases ht
      | some last =>
        rw [List.getLast?_cons, hq] at hl
        obtain rfl : last = root := by simpa using hl
        obtain ⟨h, hr⟩ := ih hq fun a ha => hw a (List.mem_cons_of_mem n ha)
        exact ⟨h + 1, .link hp hr⟩

/-- **Soundness is a finite climb.** The links to a root are an induction over the walk of a sound name. -/
theorem sound_iff_rooted : m.Sound n ↔ ∃ h, m.Rooted n h := by
  constructor
  · intro hs
    obtain ⟨k, root, hl, ht⟩ := hs.ends
    exact exists_rooted hl (hs.within k) ht
  · rintro ⟨h, hr⟩
    exact hr.sound

/-- a section is sound when it declares no parent, or a sound one -/
theorem sound_of_parent (hn : m.contains n = true) (hp : ∀ parent, m.parentOf? n = some parent → m.Sound parent) :
    m.Sound n := by
  cases hq : m.parentOf? n with
  | none => exact (Rooted.root hn hq).sound
  | some parent =>
    obtain ⟨h, hr⟩ := sound_iff_rooted.1 (hp parent hq)
    exact (Rooted.link hq hr).sound

theorem Sound.of_link (hs : m.Sound n) (hp : m.parentOf? n = some parent) : m.Sound parent := by
  obtain ⟨h, hr⟩ := sound_iff_rooted.1 hs
  cases hr with
  | root _ top => rw [top] at hp; cases hp
  | link up rest => rw [up] at hp; cases hp; exact rest.sound

/-! ## Whole walks -/

/-- there are no more distinct names of sections than sections -/
theorem length_le_size {l : List String} (hd : l.Nodup) (hw : ∀ a ∈ l, m.contains a = true) : l.length ≤ m.size := by
  have hle := (hd.subperm fun a ha => (m.mem_keys_iff a).2 (hw a ha)).length_le
  simpa [OrderedMap.keys, OrderedMap.size] using hle

theorem Rooted.height_lt_size (hr : m.Rooted n h) : h < m.size := by
  have hle := length_le_size (hr.walk_nodup (h + 1)) (hr.sound.within (h + 1))
  rw [hr.length_walk] at hle
  exact hle

theorem Rooted.ancestry_eq (hr : m.Rooted n h) : m.ancestry n = m.walk n (h + 1) := hr.walk_of_lt hr.height_lt_size

theorem Sound.ancestry_of_root (hs : m.Sound n) (hp : m.parentOf? n = none) : m.ancestry n = [n] := by
  obtain ⟨h, hr⟩ := sound_iff_rooted.1 hs
  rw [hr.ancestry_eq, walk_of_root hp]

/-- the walk of a child goes on with the walk of its parent -/
theorem Sound.ancestry_of_link (hs : m.Sound n) (hp : m.parentOf? n = some parent) :
    m.ancestry n = n :: m.ancestry parent := by
  obtain ⟨h, hr⟩ := sound_iff_rooted.1 (hs.of_link hp)
  rw [(Rooted.link hp hr).ancestry_eq, hr.ancestry_eq, walk_of_link hp]

theorem Sound.ancestry_ends (hs : m.Sound n) :
    ∃ root, (m.ancestry n).getLast? = some root ∧ m.parentOf? root = none := by
  obtain ⟨h, hr⟩ := sound_iff_rooted.1 hs
  rw [hr.ancestry_eq]
  exact hr.walk_ends

/-- a walk of fewer names than were asked for has ended -/
theorem walk_ends_of_length_lt {k : Nat} (hk : (m.walk n k).length < k) :
    ∃ root, (m.walk n k).getLast? = some root ∧ m.parentOf? root = none := by
  induction k generalizing n with
  | zero => omega
  | succ k ih =>
    cases hp : m.parentOf? n with
    | none => exact ⟨n, by simp [walk_of_root hp], hp⟩
    | some parent =>
      rw [walk_of_link hp, List.length_cons] at hk
      obtain ⟨root, hl, ht⟩ := ih (n := parent) (by omega)
      refine ⟨root, ?_, ht⟩
      rw [walk_of_link hp, List.getLast?_cons, hl]
      rfl

/-- one name more than there are sections is enough to tell whether a name is sound -/
theorem sound_iff_walk :
    m.Sound n ↔ (m.walk n (m.size + 1)).Nodup ∧ ∀ a ∈ m.walk n (m.size + 1), m.contains a = true := by
  constructor
  · intro hs
    exact ⟨hs.distinct _, hs.within _⟩
  · rintro ⟨hd, hw⟩
    obtain ⟨root, hl, ht⟩ := walk_ends_of_length_lt (Nat.lt_succ_of_le (length_le_size hd hw))
    exact sound_iff_rooted.2 (exists_rooted hl hw ht)

instance (m : Sections) (n : String) : Decidable (m.Sound n) := decidable_of_iff' _ sound_iff_walk

/-! ## Faults -/

theorem WalkFault.not_sound {f : ParentFault} (hf : m.WalkFault n f) : ¬ m.Sound n := by
  intro hs
  cases hf with
  | @missing path parent along _ absent =>
    have := hs.within (path.length + 1) parent (by simp [along])
    simp [absent] at this
  | @circular path again along _ repeated =>
    have := hs.distinct (path.length + 1)
    rw [along] at this
    exact (List.nodup_append.1 this).2.2 again repeated again (by simp) rfl

/-- where a fault is met: the names before it are distinct, and the name met is one of them or no section's -/
theorem WalkFault.stops {f : ParentFault} (hf : m.WalkFault n f) :
    ∃ path last, m.walk n (path.length + 1) = path ++ [last] ∧ path.Nodup ∧
      (last ∈ path ∧ f = .circular (path ++ [last]) ∨
        m.contains last = false ∧ last ∉ path ∧ f = .missing last) := by
  cases hf with
  | @missing path parent along distinct absent =>
    have hd := List.nodup_append.1 distinct
    exact ⟨path, parent, along, hd.1, .inr ⟨absent, fun hp => hd.2.2 parent hp parent (by simp) rfl, rfl⟩⟩
  | @circular path again along distinct repeated => exact ⟨path, again, along, distinct, .inl ⟨repeated, rfl⟩⟩

/-- a walk does not go past the first name that is repeated or that no section has -/
theorem walk_stops {path path' : List String} {last last' : String} (hw : m.walk n (path.length + 1) = path ++ [last])
    (hl : last ∈ path ∨ m.contains last = false) (hw' : m.walk n (path'.length + 1) = path' ++ [last'])
    (hd' : path'.Nodup) : path'.length ≤ path.length := by
  by_contra hlt
  -- the longer path would begin with the whole shorter one, the name it stops at included
  have hpre : path ++ [last] <+: path' := by
    have h1 := walk_prefix m n (show path.length + 1 ≤ path'.length + 1 by omega)
    rw [hw, hw'] at h1
    exact List.prefix_of_prefix_length_le h1 (List.prefix_append path' [last']) (by simp; omega)
  rcases hl with hl | hl
  · exact (List.nodup_append.1 (hpre.sublist.nodup hd')).2.2 last hl last (by simp) rfl
  · have := contains_of_mem_walk hw' (hpre.subset (show last ∈ path ++ [last] by simp))
    simp [hl] at this

/-- **One fault.** A walk meets at most one fault. -/
theorem WalkFault.unique {f f' : ParentFault} (hf : m.WalkFault n f) (hf' : m.WalkFault n f') : f = f' := by
  obtain ⟨path, last, hw, hd, hl⟩ := hf.stops
  obtain ⟨path', last', hw', hd', hl'⟩ := hf'.stops
  have hle := walk_stops hw (hl.imp And.left And.left) hw' hd'
  have hge := walk_stops hw' (hl'.imp And.left And.left) hw hd
  have hlen : path.length = path'.length := by omega
  obtain ⟨rfl, hlast⟩ := List.append_inj (hw.symm.trans (hlen ▸ hw')) hlen
  obtain rfl : last = last' := by simpa using hlast
  rcases hl with ⟨hl, rfl⟩ | ⟨-, hl, rfl⟩ <;> rcases hl' with ⟨hl', rfl⟩ | ⟨-, hl', rfl⟩
  · rfl
  · exact absurd hl hl'
  · exact absurd hl' hl
  · rfl

end Sections

end LayeredProfiles
