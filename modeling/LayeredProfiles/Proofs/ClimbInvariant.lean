/-
What holds at every point while sections are put in an order with parents first.

`Move` lists the six things that a step can do, and `Reachable` the states that a run comes to. The invariant has three parts:
the `Ledger` (each section is either pending or placed, with its own properties, and what is placed stands parents first), the
`Ascent` (the names of a climb are a stretch of the walk of the first pending name, distinct but for the last, and none is
placed), and the order of the placed names: the walks of some first names of the input, each from its root down (`rootFirst`).

Results:
- `reachable_inv`: every reachable state has the invariant.
- `run_ends`: a run ends in a reachable state that has no next one.
- `finished`, `fault_spec`: what the end of a run says about the sections.
-/
import LayeredProfiles.Proofs.KeyArrangement
import LayeredProfiles.Proofs.ParentWalk

namespace LayeredProfiles

namespace Sections

variable {m : Sections}

/-- the walks of some names, each from its root down, one after the other, without the names that occurred before -/
def rootFirst (m : Sections) (names : List String) : List String :=
  (names.flatMap fun n => (m.ancestry n).reverse).eraseDups

theorem mem_rootFirst {names : List String} {a : String} : a ∈ m.rootFirst names ↔ ∃ n ∈ names, a ∈ m.ancestry n := by
  simp [rootFirst, List.mem_eraseDups]

/-- names whose walks have occurred add nothing -/
theorem rootFirst_append_of_subset {xs ys : List String}
    (h : ∀ n ∈ ys, ∀ a ∈ m.ancestry n, a ∈ m.rootFirst xs) : m.rootFirst (xs ++ ys) = m.rootFirst xs := by
  have hr : (ys.flatMap fun n => (m.ancestry n).reverse).removeAll (xs.flatMap fun n => (m.ancestry n).reverse) = [] := by
    refine List.filter_eq_nil_iff.2 fun a ha => ?_
    obtain ⟨n, hn, han⟩ := List.mem_flatMap.1 ha
    have := mem_rootFirst.1 (h n hn a (List.mem_reverse.1 han))
    simpa using this
  rw [rootFirst, List.flatMap_append, List.eraseDups_append, hr]
  simp [rootFirst]

/-- a name adds the part of its walk that has not occurred, from the top down -/
theorem rootFirst_append_singleton {xs path tail : List String} {n : String} (hn : m.ancestry n = path ++ tail)
    (hp : path.Nodup) (hnew : ∀ a ∈ path, a ∉ m.rootFirst xs) (hold : ∀ a ∈ tail, a ∈ m.rootFirst xs) :
    m.rootFirst (xs ++ [n]) = m.rootFirst xs ++ path.reverse := by
  have hr : (m.ancestry n).reverse.removeAll (xs.flatMap fun n => (m.ancestry n).reverse) = path.reverse := by
    rw [hn, List.reverse_append, List.removeAll, List.filter_append]
    have ht : tail.reverse.filter (fun a => !(xs.flatMap fun n => (m.ancestry n).reverse).elem a) = [] := by
      refine List.filter_eq_nil_iff.2 fun a ha => ?_
      have := mem_rootFirst.1 (hold a (List.mem_reverse.1 ha))
      simpa using this
    have hq : path.reverse.filter (fun a => !(xs.flatMap fun n => (m.ancestry n).reverse).elem a) = path.reverse := by
      refine List.filter_eq_self.2 fun a ha => ?_
      have := fun h => hnew a (List.mem_reverse.1 ha) (mem_rootFirst.2 h)
      simpa using this
    rw [ht, hq, List.nil_append]
  have hd : path.reverse.eraseDups = path.reverse := eraseDups_of_nodup (List.nodup_reverse.2 hp)
  rw [rootFirst, List.flatMap_append, List.eraseDups_append, List.flatMap_singleton, hr, hd]
  rfl

/-- a name from which links lead to a sound one is sound, and its walk goes on with the walk of that one -/
theorem sound_of_chain {path : List String} {n last : String} (hh : (path ++ [last]).head? = some n)
    (hc : (path ++ [last]).IsChain fun child parent => m.parentOf? child = some parent) (hl : m.Sound last) :
    m.Sound n ∧ m.ancestry n = path ++ m.ancestry last := by
  induction path generalizing n with
  | nil =>
    obtain rfl : last = n := by simpa using hh
    exact ⟨hl, rfl⟩
  | cons a path ih =>
    obtain rfl : a = n := by simpa using hh
    obtain ⟨b, hb⟩ : ∃ b, (path ++ [last]).head? = some b := by cases path <;> simp
    obtain ⟨hlink, hrest⟩ := List.isChain_cons.1 hc
    have hab := hlink b hb
    obtain ⟨hs, ha⟩ := ih hb hrest
    have hsa : m.Sound a := sound_of_parent (contains_of_parentOf? hab) fun parent hp => by
      rw [hab] at hp
      cases hp
      exact hs
    exact ⟨hsa, by rw [hsa.ancestry_of_link hab, ha, List.cons_append]⟩

end Sections

namespace Climb

variable {m : Sections} {s t : State}

/-! ## Steps -/

/-- what one step can come to -/
inductive Move (s : State) : Outcome → Prop where
  /-- nothing is left to place -/
  | finish (idle : s.climb = none) (all : s.pending.keys = []) : Move s (.done s.sorted)
  /-- a climb begins at the first name that is left -/
  | begin {name : String} {rest : List String} (idle : s.climb = none) (first : s.pending.keys = name :: rest) :
      Move s (.next { s with climb := some ([], name) })
  /-- the climb comes back to a name -/
  | repeated {chain : List Link} {current : String} (climbing : s.climb = some (chain, current))
      (passed : current ∈ namesPassed chain) : Move s (.fault (.circular (namesPassed chain ++ [current])))
  /-- the climb comes to a name that is not there -/
  | absent {chain : List Link} {current : String} (climbing : s.climb = some (chain, current))
      (new : current ∉ namesPassed chain) (gone : s.pending.get? current = none) : Move s (.fault (.missing current))
  /-- the climb goes on to a parent that is not placed -/
  | up {chain : List Link} {current parent : String} {properties : Properties}
      (climbing : s.climb = some (chain, current)) (new : current ∉ namesPassed chain)
      (here : s.pending.get? current = some properties) (declared : properties.declaredParent? = some parent)
      (unplaced : s.sorted.contains parent = false) :
      Move s (.next { s with climb := some (⟨current, properties⟩ :: chain, parent) })
  /-- at a section without parent, or with a placed one, all that was passed is placed -/
  | settle {chain : List Link} {current : String} {properties : Properties}
      (climbing : s.climb = some (chain, current)) (new : current ∉ namesPassed chain)
      (here : s.pending.get? current = some properties)
      (placed : ∀ parent, properties.declaredParent? = some parent → s.sorted.contains parent = true) :
      Move s (.next { placeAll s (⟨current, properties⟩ :: chain) with climb := none })

theorem move_step (s : State) : Move s (step s) := by
  unfold step
  split
  · rename_i idle
    split
    · rename_i all
      exact .finish idle all
    · rename_i name rest first
      exact .begin idle first
  · rename_i chain current climbing
    split
    · rename_i passed
      exact .repeated climbing passed
    · rename_i new
      split
      · rename_i gone
        exact .absent climbing new gone
      · rename_i properties here
        split
        · rename_i hp
          refine .settle climbing new here fun parent declared => ?_
          simpa [declared] using hp
        · rename_i parent hp
          obtain ⟨declared, unplaced⟩ := Option.filter_eq_some_iff.1 hp
          exact .up climbing new here declared (by simpa using unplaced)

/-- the states that a run comes to -/
inductive Reachable (m : Sections) : State → Prop where
  | start : Reachable m (start m)
  | step {s t : State} (before : Reachable m s) (next : step s = .next t) : Reachable m t

/-- a run ends in a reachable state without a next one, and gives what that state comes to -/
theorem run_ends (hs : Reachable m s) :
    ∃ t, Reachable m t ∧
      ((∃ sorted, step t = .done sorted ∧ run s = .ok sorted) ∨ ∃ f, step t = .fault f ∧ run s = .error f) := by
  induction s using run.induct with
  | case1 s t next ih =>
    rw [run, next]
    exact ih (.step hs next)
  | case2 s sorted done =>
    refine ⟨s, hs, .inl ⟨sorted, done, ?_⟩⟩
    rw [run, done]
  | case3 s f fault =>
    refine ⟨s, hs, .inr ⟨f, fault, ?_⟩⟩
    rw [run, fault]

/-! ## The invariant -/

/-- what is pending and what is placed: together the sections, apart from each other, the placed ones with parents first -/
structure Ledger (m : Sections) (s : State) : Prop where
  pending_get : ∀ n, s.pending.get? n = if s.sorted.contains n then none else m.get? n
  sorted_get : ∀ n, s.sorted.contains n = true → s.sorted.get? n = m.get? n
  pending_keys : s.pending.keys = m.keys.filter fun n => !s.sorted.contains n
  topDown : s.sorted.TopDown

/-- the names of a climb: each declares the next, they begin with the first pending name, and none is placed -/
structure Ascent (m : Sections) (s : State) (chain : List Link) (current : String) : Prop where
  first : (namesPassed chain ++ [current]).head? = s.pending.keys.head?
  links : (namesPassed chain ++ [current]).IsChain fun child parent => m.parentOf? child = some parent
  distinct : (namesPassed chain).Nodup
  unplaced : ∀ n ∈ namesPassed chain ++ [current], s.sorted.contains n = false
  own : ∀ l ∈ chain, m.get? l.name = some l.properties

structure Inv (m : Sections) (s : State) : Prop extends Ledger m s where
  ascent : ∀ chain current, s.climb = some (chain, current) → Ascent m s chain current
  order : ∃ before after, m.keys = before ++ after ∧ (∀ n ∈ before, s.sorted.contains n = true) ∧
    s.sorted.keys = m.rootFirst before

namespace Ledger

theorem parentOf?_sorted (hl : Ledger m s) {n : String} (hn : s.sorted.contains n = true) :
    s.sorted.parentOf? n = m.parentOf? n :=
  Sections.parentOf?_congr (hl.sorted_get n hn)

theorem contains_of_pending (hl : Ledger m s) {n : String} {p : Properties} (h : s.pending.get? n = some p) :
    s.sorted.contains n = false ∧ m.get? n = some p := by
  rw [hl.pending_get] at h
  split at h
  · cases h
  · rename_i hn
    exact ⟨by simpa using hn, h⟩

/-- what is placed is closed under parents -/
theorem parent_placed (hl : Ledger m s) {n parent : String} (hn : s.sorted.contains n = true)
    (hp : m.parentOf? n = some parent) : s.sorted.contains parent = true :=
  hl.topDown.closed n parent ((hl.parentOf?_sorted hn).trans hp)

theorem sound (hl : Ledger m s) {n : String} (hn : s.sorted.contains n = true) : m.Sound n := by
  -- by the position among the placed names, since a parent stands before its child
  induction hk : s.sorted.keys.idxOf n using Nat.strong_induction_on generalizing n with
  | _ k ih =>
    obtain ⟨p, hg⟩ := (s.sorted.contains_iff n).1 hn
    have hm : m.contains n = true := (m.contains_iff n).2 ⟨p, hl.sorted_get n hn ▸ hg⟩
    refine Sections.sound_of_parent hm fun parent hp => ?_
    have hlt := hl.topDown n parent (by rw [hl.parentOf?_sorted hn, hp])
    exact ih _ (hk ▸ hlt) (hl.parent_placed hn hp) rfl

theorem ancestry_placed (hl : Ledger m s) {n : String} (hn : s.sorted.contains n = true) :
    ∀ a ∈ m.ancestry n, s.sorted.contains a = true := by
  obtain ⟨h, hr⟩ := Sections.sound_iff_rooted.1 (hl.sound hn)
  induction hr with
  | root here top =>
    intro a ha
    rw [(hl.sound hn).ancestry_of_root top, List.mem_singleton] at ha
    exact ha ▸ hn
  | link up rest ih =>
    intro a ha
    rw [(hl.sound hn).ancestry_of_link up] at ha
    rcases List.mem_cons.1 ha with rfl | ha
    · exact hn
    · exact ih (hl.parent_placed hn up) a ha

/-! ### Placing -/

/-- placing a section whose parent is placed -/
theorem place (hl : Ledger m s) {l : Link} (own : m.get? l.name = some l.properties)
    (new : s.sorted.contains l.name = false)
    (above : ∀ parent, m.parentOf? l.name = some parent → s.sorted.contains parent = true) :
    Ledger m (Climb.place s l) where
  pending_get n := by
    simp only [Climb.place, OrderedMap.get?_erase, OrderedMap.contains_insert, hl.pending_get]
    by_cases hn : n = l.name <;> simp [hn]
  sorted_get n hn := by
    simp only [Climb.place, OrderedMap.contains_insert] at hn ⊢
    rw [OrderedMap.get?_insert]
    by_cases hnl : n = l.name
    · simp [hnl, own]
    · simpa [hnl] using hl.sorted_get n (by simpa [hnl] using hn)
  pending_keys := by
    simp only [Climb.place]
    rw [OrderedMap.keys_erase, hl.pending_keys, List.filter_filter]
    refine List.filter_congr fun n _ => ?_
    by_cases hn : n = l.name <;> simp [OrderedMap.contains_insert, hn]
  topDown := by
    intro child parent hp
    simp only [Climb.place] at hp ⊢
    rw [OrderedMap.keys_insert_of_new _ _ new]
    have hnew : l.name ∉ s.sorted.keys := fun h => by simp [(s.sorted.mem_keys_iff _).1 h] at new
    rw [Sections.parentOf?, OrderedMap.get?_insert] at hp
    split at hp
    · rename_i hc
      have hq : m.parentOf? l.name = some parent := (Sections.parentOf?_of_get? own).trans hp
      have hmem := (s.sorted.mem_keys_iff _).2 (above parent hq)
      rw [hc, List.idxOf_append_of_mem hmem, List.idxOf_append_of_notMem hnew]
      have := List.idxOf_lt_length_of_mem hmem
      omega
    · have hlt := hl.topDown child parent hp
      have hmem := (s.sorted.mem_keys_iff _).2 (Sections.contains_of_parentOf? hp)
      have hmem' := List.idxOf_lt_length_iff.1 (hlt.trans (List.idxOf_lt_length_of_mem hmem))
      rwa [List.idxOf_append_of_mem hmem, List.idxOf_append_of_mem hmem']

/-- placing links in order, when each declares the one before it -/
theorem placeAll {links : List Link} (hl : Ledger m s) (own : ∀ l ∈ links, m.get? l.name = some l.properties)
    (distinct : (links.map Link.name).Nodup) (new : ∀ n ∈ links.map Link.name, s.sorted.contains n = false)
    (down : (links.map Link.name).IsChain fun parent child => m.parentOf? child = some parent)
    (top : ∀ n ∈ (links.map Link.name).head?, ∀ parent, m.parentOf? n = some parent → s.sorted.contains parent = true) :
    Ledger m (Climb.placeAll s links) ∧
      (Climb.placeAll s links).sorted.keys = s.sorted.keys ++ links.map Link.name := by
  induction links generalizing s with
  | nil => exact ⟨hl, by simp [Climb.placeAll]⟩
  | cons l links ih =>
    have hnew : s.sorted.contains l.name = false := new l.name (by simp)
    obtain ⟨hfresh, hdistinct⟩ := List.nodup_cons.1 distinct
    obtain ⟨hhead, hdown⟩ := List.isChain_cons.1 down
    have hplaced : ∀ n, (Climb.place s l).sorted.contains n = (decide (n = l.name) || s.sorted.contains n) :=
      s.sorted.contains_insert l.name l.properties
    obtain ⟨hledger, hkeys⟩ := ih (hl.place (own l (by simp)) hnew (top l.name (by simp)))
      (fun k hk => own k (List.mem_cons_of_mem l hk)) hdistinct
      (fun n hn => by
        have hne : n ≠ l.name := fun h => hfresh (h ▸ hn)
        simpa [hplaced, hne] using new n (List.mem_cons_of_mem _ hn))
      hdown
      (fun n hn parent hp => by
        have hq := hhead n hn
        rw [hq] at hp
        cases hp
        simp [hplaced])
    refine ⟨hledger, hkeys.trans ?_⟩
    simp [Climb.place, OrderedMap.keys_insert_of_new _ _ hnew]

end Ledger

/-! ## Preservation -/

theorem inv_start (m : Sections) : Inv m (start m) where
  pending_get n := by simp [start]
  sorted_get n hn := by simp [start] at hn
  pending_keys := by simp [start]
  topDown child parent hp := by simp [start, Sections.parentOf?] at hp
  ascent chain current hc := by simp [start] at hc
  order := ⟨[], m.keys, rfl, by simp, by simp [start, Sections.rootFirst]⟩

/-- the first pending name comes after placed ones only -/
theorem Ledger.split_at_pending (hl : Ledger m s) {n : String} (hn : s.pending.keys.head? = some n) :
    ∃ front back, m.keys = front ++ n :: back ∧ ∀ a ∈ front, s.sorted.contains a = true := by
  obtain ⟨rest, hr⟩ : ∃ rest, s.pending.keys = n :: rest := List.head?_eq_some_iff.1 hn
  rw [hl.pending_keys, List.filter_eq_cons_iff] at hr
  obtain ⟨front, back, hk, hf, -, -⟩ := hr
  exact ⟨front, back, hk, fun a ha => by simpa using hf a ha⟩

/-- names that are placed already add nothing to the order -/
theorem Inv.order_extends (hi : Inv m s) {n : String} {front back : List String} (hk : m.keys = front ++ n :: back)
    (hf : ∀ a ∈ front, s.sorted.contains a = true) (hn : s.sorted.contains n = false) :
    s.sorted.keys = m.rootFirst front := by
  obtain ⟨before, after, hk', hb, ho⟩ := hi.order
  -- the name is not placed, so it comes after all names whose walks were counted
  have hpre : before <+: front := by
    rcases List.append_eq_append_iff.1 (hk'.symm.trans hk) with ⟨c, hc, -⟩ | ⟨c, hc, hd⟩
    · exact ⟨c, hc.symm⟩
    · cases c with
      | nil => exact ⟨[], by simpa using hc⟩
      | cons d c =>
        obtain ⟨rfl, -⟩ := List.cons.inj hd
        have := hb n (by simp [hc])
        simp [hn] at this
  obtain ⟨skipped, rfl⟩ := hpre
  rw [ho, Sections.rootFirst_append_of_subset]
  intro a ha b hb'
  rw [← ho]
  exact (s.sorted.mem_keys_iff b).2 (hi.ancestry_placed (hf a (List.mem_append_right before ha)) b hb')

theorem inv_begin (hi : Inv m s) {name : String} {rest : List String} (first : s.pending.keys = name :: rest) :
    Inv m { s with climb := some ([], name) } := by
  have hmem : name ∈ s.pending.keys := by simp [first]
  rw [hi.pending_keys] at hmem
  have hnew : s.sorted.contains name = false := by simpa using (List.mem_filter.1 hmem).2
  refine { hi with ascent := ?_ }
  intro chain current hc
  obtain ⟨rfl, rfl⟩ : [] = chain ∧ name = current := by simpa using hc
  exact { first := by simp [namesPassed, first]
          links := by simp [namesPassed]
          distinct := by simp [namesPassed]
          unplaced := by simpa [namesPassed] using hnew
          own := by simp }

section Climbing

variable {chain : List Link} {current : String} {properties : Properties}

theorem namesPassed_cons (l : Link) (chain : List Link) : namesPassed (l :: chain) = namesPassed chain ++ [l.name] := by
  simp [namesPassed]

/-- the names of a climb that has come to a new name -/
theorem Ascent.nodup (ha : Ascent m s chain current) (new : current ∉ namesPassed chain) :
    (namesPassed chain ++ [current]).Nodup := by
  refine List.nodup_append.2 ⟨ha.distinct, List.nodup_singleton current, fun a hm b hb hab => ?_⟩
  rw [List.mem_singleton] at hb
  subst hb hab
  exact new hm

theorem exists_head?_concat (l : List String) (a : String) : ∃ b, (l ++ [a]).head? = some b := by
  cases l <;> simp

/-- a climb begins at a name of the sections that comes after placed ones only -/
theorem Inv.climb_begins (hi : Inv m s) (ha : Ascent m s chain current) :
    ∃ front n back, m.keys = front ++ n :: back ∧ (∀ a ∈ front, s.sorted.contains a = true) ∧
      (namesPassed chain ++ [current]).head? = some n := by
  obtain ⟨n, hn⟩ := exists_head?_concat (namesPassed chain) current
  obtain ⟨front, back, hk, hf⟩ := hi.split_at_pending (ha.first ▸ hn)
  exact ⟨front, n, back, hk, hf, hn⟩

theorem inv_up (hi : Inv m s) {parent : String} (climbing : s.climb = some (chain, current))
    (new : current ∉ namesPassed chain) (here : s.pending.get? current = some properties)
    (declared : properties.declaredParent? = some parent) (unplaced : s.sorted.contains parent = false) :
    Inv m { s with climb := some (⟨current, properties⟩ :: chain, parent) } := by
  have ha := hi.ascent chain current climbing
  have hown := (hi.contains_of_pending here).2
  have hlink : m.parentOf? current = some parent := (Sections.parentOf?_of_get? hown).trans declared
  refine { hi with ascent := ?_ }
  intro chain' current' hc
  obtain ⟨rfl, rfl⟩ : ⟨current, properties⟩ :: chain = chain' ∧ parent = current' := by simpa using hc
  refine { first := ?_, links := ?_, distinct := ?_, unplaced := ?_, own := ?_ }
  · obtain ⟨n, hn⟩ := exists_head?_concat (namesPassed chain) current
    rw [namesPassed_cons, List.head?_append, hn, ← ha.first, hn]
    rfl
  · rw [namesPassed_cons]
    refine List.isChain_append.2 ⟨ha.links, List.isChain_singleton parent, fun x hx y hy => ?_⟩
    obtain rfl : current = x := by simpa using hx
    obtain rfl : parent = y := by simpa using hy
    exact hlink
  · rw [namesPassed_cons]
    exact ha.nodup new
  · intro n hn
    rw [namesPassed_cons] at hn
    rcases List.mem_append.1 hn with hn | hn
    · exact ha.unplaced n hn
    · rw [List.mem_singleton.1 hn]
      exact unplaced
  · intro l hl
    rcases List.mem_cons.1 hl with rfl | hl
    · exact hown
    · exact ha.own l hl

theorem Inv.ledger_settle (hi : Inv m s) (ha : Ascent m s chain current) (new : current ∉ namesPassed chain)
    (here : s.pending.get? current = some properties)
    (placed : ∀ parent, m.parentOf? current = some parent → s.sorted.contains parent = true) :
    Ledger m (placeAll s (⟨current, properties⟩ :: chain)) ∧
      (placeAll s (⟨current, properties⟩ :: chain)).sorted.keys =
        s.sorted.keys ++ (namesPassed chain ++ [current]).reverse := by
  have hnames : (Link.mk current properties :: chain).map Link.name = (namesPassed chain ++ [current]).reverse := by
    simp [namesPassed]
  rw [← hnames]
  apply hi.toLedger.placeAll
  · intro l hl
    rcases List.mem_cons.1 hl with rfl | hl
    · exact (hi.contains_of_pending here).2
    · exact ha.own l hl
  · rw [hnames]
    exact List.nodup_reverse.2 (ha.nodup new)
  · rw [hnames]
    exact fun n hn => ha.unplaced n (List.mem_reverse.1 hn)
  · rw [hnames]
    exact List.isChain_reverse.2 ha.links
  · intro n hn
    obtain rfl : current = n := by simpa using hn
    exact placed

/-- the walk of the name where a climb began is the climb, and then a walk that is placed -/
theorem Inv.order_settle (hi : Inv m s) (ha : Ascent m s chain current) (new : current ∉ namesPassed chain)
    (here : m.contains current = true)
    (placed : ∀ parent, m.parentOf? current = some parent → s.sorted.contains parent = true) :
    ∃ front n back, m.keys = front ++ n :: back ∧ (∀ a ∈ front, s.sorted.contains a = true) ∧
      n ∈ namesPassed chain ++ [current] ∧
      m.rootFirst (front ++ [n]) = s.sorted.keys ++ (namesPassed chain ++ [current]).reverse := by
  obtain ⟨front, n, back, hk, hf, hn⟩ := hi.climb_begins ha
  have hmem := List.mem_of_mem_head? hn
  have horder := hi.order_extends hk hf (ha.unplaced n hmem)
  have hplaced : ∀ a, a ∈ m.rootFirst front ↔ s.sorted.contains a = true := fun a => by
    rw [← horder, s.sorted.mem_keys_iff]
  have hcur : m.Sound current := Sections.sound_of_parent here fun parent hp => hi.sound (placed parent hp)
  obtain ⟨tail, htail, hold⟩ : ∃ tail, m.ancestry current = current :: tail ∧ ∀ a ∈ tail, a ∈ m.rootFirst front := by
    cases hp : m.parentOf? current with
    | none => exact ⟨[], hcur.ancestry_of_root hp, by simp⟩
    | some parent =>
      refine ⟨m.ancestry parent, hcur.ancestry_of_link hp, fun a h => (hplaced a).2 ?_⟩
      exact hi.ancestry_placed (placed parent hp) a h
  have hanc : m.ancestry n = (namesPassed chain ++ [current]) ++ tail := by
    rw [(Sections.sound_of_chain hn ha.links hcur).2, htail]
    simp
  refine ⟨front, n, back, hk, hf, hmem, ?_⟩
  rw [horder]
  refine Sections.rootFirst_append_singleton hanc (ha.nodup new) (fun a h hr => ?_) hold
  have := ha.unplaced a h
  simp [(hplaced a).1 hr] at this

theorem inv_settle (hi : Inv m s) (climbing : s.climb = some (chain, current)) (new : current ∉ namesPassed chain)
    (here : s.pending.get? current = some properties)
    (placed : ∀ parent, properties.declaredParent? = some parent → s.sorted.contains parent = true) :
    Inv m { placeAll s (⟨current, properties⟩ :: chain) with climb := none } := by
  have ha := hi.ascent chain current climbing
  have hown := (hi.contains_of_pending here).2
  rw [← Sections.parentOf?_of_get? hown] at placed
  obtain ⟨hl, hkeys⟩ := hi.ledger_settle ha new here placed
  obtain ⟨front, n, back, hk, hf, hn, ho⟩ :=
    hi.order_settle ha new ((m.contains_iff current).2 ⟨properties, hown⟩) placed
  have hgrow : ∀ a, a ∈ s.sorted.keys ++ (namesPassed chain ++ [current]).reverse →
      (placeAll s (⟨current, properties⟩ :: chain)).sorted.contains a = true := fun a h =>
    (OrderedMap.mem_keys_iff _ a).1 (hkeys ▸ h)
  -- no climb is left, and the counted names now go up to the one where this climb began
  refine { hl with ascent := fun _ _ hc => by simp at hc, order := ⟨front ++ [n], back, by simp [hk], ?_, ?_⟩ }
  · intro a h
    rcases List.mem_append.1 h with h | h
    · exact hgrow a (List.mem_append_left _ ((s.sorted.mem_keys_iff a).2 (hf a h)))
    · rw [List.mem_singleton.1 h]
      exact hgrow n (List.mem_append_right _ (List.mem_reverse.2 hn))
  · rw [ho]
    exact hkeys

end Climbing

theorem step_inv (hi : Inv m s) (hs : step s = .next t) : Inv m t := by
  have hm := move_step s
  rw [hs] at hm
  cases hm with
  | begin _ first => exact inv_begin hi first
  | up climbing new here declared unplaced => exact inv_up hi climbing new here declared unplaced
  | settle climbing new here placed => exact inv_settle hi climbing new here placed

/-- **The invariant holds throughout.** -/
theorem reachable_inv (h : Reachable m s) : Inv m s := by
  induction h with
  | start => exact inv_start m
  | step _ next ih => exact step_inv ih next

/-! ## The end of a run -/

/-- what holds when all sections are placed -/
structure Finished (m sorted : Sections) : Prop where
  sound : ∀ n ∈ m.keys, m.Sound n
  get : ∀ n, sorted.get? n = m.get? n
  topDown : sorted.TopDown
  order : sorted.keys = m.rootFirst m.keys

theorem finished (hi : Inv m s) {sorted : Sections} (hd : step s = .done sorted) : Finished m sorted := by
  have hm := move_step s
  rw [hd] at hm
  cases hm with
  | finish _ all =>
    have hplaced : ∀ n ∈ m.keys, s.sorted.contains n = true := by
      rw [hi.pending_keys] at all
      simpa using List.filter_eq_nil_iff.1 all
    refine { sound := fun n hn => hi.sound (hplaced n hn), get := fun n => ?_, topDown := hi.topDown, order := ?_ }
    · have hp := hi.pending_get n
      cases hc : s.sorted.contains n with
      | true => exact hi.sorted_get n hc
      | false =>
        have hn : m.contains n = false := by
          by_contra hn
          simp [hplaced n ((m.mem_keys_iff n).2 (by simpa using hn))] at hc
        rw [(s.sorted.contains_eq_false_iff n).1 hc, (m.contains_eq_false_iff n).1 hn]
    · obtain ⟨before, after, hk, -, ho⟩ := hi.order
      rw [ho, hk, Sections.rootFirst_append_of_subset]
      intro n hn a ha
      rw [← ho, s.sorted.mem_keys_iff]
      exact hi.ancestry_placed (hplaced n (by simp [hk, hn])) a ha

/-- a climb is the beginning of the walk of a name that comes after sound ones only -/
theorem Inv.climb_walk (hi : Inv m s) {chain : List Link} {current : String} (ha : Ascent m s chain current) :
    ∃ front n back, m.keys = front ++ n :: back ∧ (∀ a ∈ front, m.Sound a) ∧
      m.walk n ((namesPassed chain).length + 1) = namesPassed chain ++ [current] := by
  obtain ⟨front, n, back, hk, hplaced, hn⟩ := hi.climb_begins ha
  have hw := Sections.walk_of_chain hn ha.links
  rw [List.length_append] at hw
  exact ⟨front, n, back, hk, fun a h => hi.sound (hplaced a h), hw⟩

theorem fault_spec (hi : Inv m s) {f : ParentFault} (hf : step s = .fault f) :
    ∃ front n back, m.keys = front ++ n :: back ∧ (∀ a ∈ front, m.Sound a) ∧ m.WalkFault n f := by
  have hm := move_step s
  rw [hf] at hm
  cases hm with
  | @repeated chain current climbing passed =>
    have ha := hi.ascent chain current climbing
    obtain ⟨front, n, back, hk, hsound, hw⟩ := hi.climb_walk ha
    exact ⟨front, n, back, hk, hsound, .circular hw ha.distinct passed⟩
  | @absent chain current climbing new gone =>
    have ha := hi.ascent chain current climbing
    obtain ⟨front, n, back, hk, hsound, hw⟩ := hi.climb_walk ha
    have hnot : m.contains current = false := by
      rw [hi.pending_get, ha.unplaced current (by simp)] at gone
      exact (m.contains_eq_false_iff current).2 (by simpa using gone)
    exact ⟨front, n, back, hk, hsound, .missing hw (ha.nodup new) hnot⟩

end Climb

end LayeredProfiles
