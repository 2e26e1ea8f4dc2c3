/-
The two loops of putting sections in order, counted: rounds, each of which places what one climb has passed, and the steps up
within a climb.

A run can be looked at between two steps, and also while a climb is being placed, when some of its sections are placed and the
rest still wait (`Point`). The books are the same at all these points (`Books`): the sections are split between the pending and the
placed ones, a placed section has its parent placed, and each of the waiting names declares the next one. Waiting names are distinct
and pending, so a climb rises no more often than there are pending names. A round places at least the name that it began with, so
there are no more rounds than sections.

Results:
- `Point.books`: the books are right at every point.
- `Rises.le_size`, `exists_end_of_climb`: a climb comes to its end within so many steps as there are pending names.
- `Round.removes`, `Rounds.add_size_le`, `exists_end_of_rounds`: every round takes its first name away, and the rounds end.

Main statement: `loops_end_with_books_kept`.
-/
import LayeredProfiles.Proofs.ClimbInvariant

namespace LayeredProfiles

namespace Climb

variable {m : Sections} {s t u : State} {chain links left front : List Link} {l : Link} {current name : String} {k : Nat}

/-! ## Points of a run -/

/-- a climb has come to a section without parent or with a placed one; its links are placed next, in this order -/
inductive Settles (s : State) : List Link → Prop where
  | intro {chain : List Link} {current : String} {properties : Properties} (climbing : s.climb = some (chain, current))
      (new : current ∉ namesPassed chain) (here : s.pending.get? current = some properties)
      (placed : ∀ parent, properties.declaredParent? = some parent → s.sorted.contains parent = true) :
      Settles s (⟨current, properties⟩ :: chain)

/-- the points of a run, with the names that are passed and wait to be placed, and the name that the last of them waits for -/
inductive Point (m : Sections) : State → List String → Option String → Prop where
  /-- between two climbs -/
  | idle {s : State} (reached : Reachable m s) (down : s.climb = .none) : Point m s [] .none
  /-- on the way up -/
  | climbing {s : State} {chain : List Link} {current : String} (reached : Reachable m s)
      (up : s.climb = some (chain, current)) : Point m s (namesPassed chain) (some current)
  /-- on the way down: some links are placed, one is at hand, placed or not, and the rest wait -/
  | placing {s : State} {front left handled : List Link} {l : Link} (reached : Reachable m s)
      (settles : Settles s (front ++ l :: left)) (done : handled = front ∨ handled = front ++ [l]) :
      Point m (placeAll s handled) (namesPassed left) (some l.name)

/-- what the books say at a point of a run -/
structure Books (m : Sections) (s : State) (waiting : List String) (awaited? : Option String) : Prop where
  apart : ∀ n, ¬ (s.pending.contains n = true ∧ s.sorted.contains n = true)
  together : ∀ n, m.get? n = (s.pending.get? n).or (s.sorted.get? n)
  closed : s.sorted.Closed
  distinct : waiting.Nodup
  pending : ∀ n ∈ waiting, s.pending.contains n = true
  declares : (waiting ++ awaited?.toList).IsChain fun child parent => m.parentOf? child = some parent

theorem namesPassed_append (links links' : List Link) :
    namesPassed (links ++ links') = namesPassed links' ++ namesPassed links := by
  simp [namesPassed]

theorem Ledger.apart (hl : Ledger m s) (n : String) : ¬ (s.pending.contains n = true ∧ s.sorted.contains n = true) := by
  rintro ⟨hp, hs⟩
  obtain ⟨p, hg⟩ := (s.pending.contains_iff n).1 hp
  rw [(hl.contains_of_pending hg).1] at hs
  cases hs

theorem Ledger.together (hl : Ledger m s) (n : String) : m.get? n = (s.pending.get? n).or (s.sorted.get? n) := by
  rw [hl.pending_get]
  cases hs : s.sorted.contains n with
  | true => simp [hl.sorted_get n hs]
  | false => simp [(s.sorted.contains_eq_false_iff n).1 hs]

/-- a section that is not placed is pending -/
theorem Ledger.pending_of_unplaced (hl : Ledger m s) {n : String} (hm : m.contains n = true)
    (hn : s.sorted.contains n = false) : s.pending.contains n = true := by
  rw [OrderedMap.contains, hl.pending_get, hn, if_neg Bool.false_ne_true]
  exact hm

/-- the names that a climb has passed are pending -/
theorem Inv.passed_pending (hi : Inv m s) (ha : Ascent m s chain current) :
    ∀ n ∈ namesPassed chain, s.pending.contains n = true := by
  intro n hn
  obtain ⟨l, hl, rfl⟩ : ∃ l ∈ chain, l.name = n := by simpa [namesPassed] using hn
  refine hi.pending_of_unplaced ?_ (ha.unplaced l.name (List.mem_append_left _ hn))
  exact (m.contains_iff l.name).2 ⟨l.properties, ha.own l hl⟩

/-- what is known of the links of a climb that settles -/
structure Waiting (m : Sections) (s : State) (links : List Link) : Prop where
  own : ∀ l ∈ links, m.get? l.name = some l.properties
  distinct : (namesPassed links).Nodup
  unplaced : ∀ n ∈ namesPassed links, s.sorted.contains n = false
  declares : (namesPassed links).IsChain fun child parent => m.parentOf? child = some parent
  top : ∀ l ∈ links.head?, ∀ parent, m.parentOf? l.name = some parent → s.sorted.contains parent = true

theorem Inv.waiting (hi : Inv m s) (h : Settles s links) : Waiting m s links := by
  obtain ⟨climbing, new, here, placed⟩ := h
  rename_i chain current properties
  have ha := hi.ascent chain current climbing
  have hown := (hi.contains_of_pending here).2
  rw [← Sections.parentOf?_of_get? hown] at placed
  have hnames : namesPassed (⟨current, properties⟩ :: chain) = namesPassed chain ++ [current] := namesPassed_cons _ chain
  refine { own := ?_, distinct := hnames ▸ ha.nodup new, unplaced := hnames ▸ ha.unplaced,
           declares := hnames ▸ ha.links, top := ?_ }
  · intro l hl
    rcases List.mem_cons.1 hl with rfl | hl
    · exact hown
    · exact ha.own l hl
  · intro l hl
    obtain rfl : ⟨current, properties⟩ = l := by simpa using hl
    exact placed

/-- the first links of a climb that settles can be placed without the others -/
theorem Waiting.ledger_front (hw : Waiting m s (front ++ left)) (hl : Ledger m s) :
    Ledger m (placeAll s front) ∧ (placeAll s front).sorted.keys = s.sorted.keys ++ front.map Link.name := by
  have hnames : namesPassed (front ++ left) = namesPassed left ++ (front.map Link.name).reverse := namesPassed_append front left
  have hd := hnames ▸ hw.distinct
  have hc := hnames ▸ hw.declares
  apply hl.placeAll
  · exact fun l h => hw.own l (List.mem_append_left left h)
  · exact List.nodup_reverse.1 (List.nodup_append.1 hd).2.1
  · intro n hn
    refine hw.unplaced n ?_
    rw [hnames]
    exact List.mem_append_right _ (List.mem_reverse.2 hn)
  · simpa using List.isChain_reverse.2 (List.isChain_append.1 hc).2.1
  · intro n hn
    obtain ⟨l, hl, rfl⟩ : ∃ l, front.head? = some l ∧ l.name = n := by simpa [List.head?_map] using hn
    exact hw.top l (by rw [List.head?_append, hl]; rfl)

/-- placing some first links leaves the books right for those that wait -/
theorem Waiting.books_front (hw : Waiting m s (front ++ left)) (hl : Ledger m s) :
    Ledger m (placeAll s front) ∧ ∀ n ∈ namesPassed left, (placeAll s front).pending.contains n = true := by
  obtain ⟨hledger, hkeys⟩ := hw.ledger_front hl
  refine ⟨hledger, fun n hn => ?_⟩
  have hmem : n ∈ namesPassed (front ++ left) := by
    rw [namesPassed_append]
    exact List.mem_append_left _ hn
  obtain ⟨l, hlink, rfl⟩ : ∃ l ∈ front ++ left, l.name = n := by
    rw [namesPassed, List.mem_reverse] at hmem
    exact List.mem_map.1 hmem
  refine hledger.pending_of_unplaced ((m.contains_iff l.name).2 ⟨l.properties, hw.own l hlink⟩) ?_
  rw [Bool.eq_false_iff, Ne, ← OrderedMap.mem_keys_iff, hkeys, List.mem_append, not_or]
  constructor
  · rw [OrderedMap.mem_keys_iff, hw.unplaced l.name hmem]
    exact Bool.false_ne_true
  · -- a name that waits is not among those that were placed before it
    intro hfront
    have hd := hw.distinct
    rw [namesPassed_append] at hd
    exact (List.nodup_append.1 hd).2.2 l.name hn l.name (List.mem_reverse.2 hfront) rfl

/-- **The books are right at every point.** -/
theorem Point.books {waiting : List String} {awaited? : Option String} (h : Point m s waiting awaited?) :
    Books m s waiting awaited? := by
  cases h with
  | idle reached _ =>
    have hi := reachable_inv reached
    exact ⟨hi.apart, hi.together, hi.topDown.closed, List.nodup_nil, by simp, List.isChain_nil⟩
  | climbing reached hclimb =>
    have hi := reachable_inv reached
    have ha := hi.ascent _ _ hclimb
    exact ⟨hi.apart, hi.together, hi.topDown.closed, ha.distinct, hi.passed_pending ha, ha.links⟩
  | @placing s front left handled l reached settles done =>
    have hi := reachable_inv reached
    have hw := hi.waiting settles
    have hnames : namesPassed (front ++ l :: left) = namesPassed left ++ l.name :: namesPassed front := by
      simp [namesPassed]
    have hd := hnames ▸ hw.distinct
    have hdeclares : (namesPassed left ++ [l.name]).IsChain fun child parent => m.parentOf? child = some parent := by
      have hc := hnames ▸ hw.declares
      rw [← List.singleton_append, ← List.append_assoc] at hc
      exact (List.isChain_append.1 hc).1
    obtain ⟨hledger, hpending⟩ : Ledger m (placeAll s handled) ∧
        ∀ n ∈ namesPassed left, (placeAll s handled).pending.contains n = true := by
      rcases done with rfl | rfl
      · obtain ⟨hledger, hpending⟩ := hw.books_front hi.toLedger
        refine ⟨hledger, fun n hn => hpending n ?_⟩
        rw [namesPassed_cons]
        exact List.mem_append_left _ hn
      · exact Waiting.books_front (by simpa using hw) hi.toLedger
    exact ⟨hledger.apart, hledger.together, hledger.topDown.closed, (List.nodup_append.1 hd).1, hpending, hdeclares⟩

/-! ## Steps up -/

/-- so many steps up lead from one state to another -/
inductive Rises (s : State) : Nat → State → Prop where
  | here : Rises s 0 s
  | up {k : Nat} {t u : State} (before : Rises s k t) (next : step t = .next u) (climbing : u.climb.isSome = true) :
      Rises s (k + 1) u

theorem Rises.reachable (hr : Reachable m s) (h : Rises s k t) : Reachable m t := by
  induction h with
  | here => exact hr
  | up _ next _ ih => exact .step ih next

/-- a climb moves no section, and every step up passes one name more -/
theorem Rises.passed (hs : s.climb = some ([], name)) (h : Rises s k t) :
    t.pending = s.pending ∧ t.sorted = s.sorted ∧
      ∃ chain current, t.climb = some (chain, current) ∧ chain.length = k ∧
        (namesPassed chain ++ [current]).head? = some name := by
  induction h with
  | here => exact ⟨rfl, rfl, [], name, hs, rfl, rfl⟩
  | @up k t u _ next climbing ih =>
    obtain ⟨hpending, hsorted, chain, current, hclimb, hlength, hfirst⟩ := ih
    have hm := move_step t
    rw [next] at hm
    cases hm with
    | begin idle _ =>
      rw [idle] at hclimb
      cases hclimb
    | settle => cases climbing
    | @up chain' current' parent properties climbing' new here declared unplaced =>
      rw [climbing'] at hclimb
      cases hclimb
      refine ⟨hpending, hsorted, _, parent, rfl, by rw [List.length_cons, hlength], ?_⟩
      obtain ⟨b, hb⟩ := exists_head?_concat (namesPassed chain) current
      rw [namesPassed_cons, List.head?_append, hb, ← hfirst, hb]
      rfl

/-- the names that a climb has passed are distinct and pending, so they are no more than the pending names -/
theorem Rises.le_size (hr : Reachable m s) (hs : s.climb = some ([], name)) (h : Rises s k t) : k ≤ s.pending.size := by
  obtain ⟨hpending, -, chain, current, hclimb, rfl, -⟩ := h.passed hs
  have hi := reachable_inv (h.reachable hr)
  have ha := hi.ascent chain current hclimb
  have hle := Sections.length_le_size ha.distinct (hi.passed_pending ha)
  rwa [namesPassed, List.length_reverse, List.length_map, hpending] at hle

theorem step_of_settles (h : Settles s links) : step s = .next { placeAll s links with climb := none } := by
  obtain ⟨climbing, new, here, placed⟩ := h
  rename_i chain current properties
  have hfilter : (properties.declaredParent?.filter fun parent => !s.sorted.contains parent) = none := by
    refine Option.filter_eq_none_iff.2 fun parent declared => ?_
    simp [placed parent declared]
  simp only [step, climbing, if_neg new, here, hfilter]

/-- a climb comes to its end: with a fault, or at a place where all that was passed is placed -/
theorem exists_end_of_climb (hs : s.climb = some ([], name)) :
    ∃ k t, Rises s k t ∧ ((∃ f, step t = .fault f) ∨ ∃ links, Settles t links) := by
  suffices h : ∀ t k, Rises s k t →
      ∃ k t, Rises s k t ∧ ((∃ f, step t = .fault f) ∨ ∃ links, Settles t links) from h s 0 .here
  intro t
  induction t using run.induct with
  | case1 t u next ih =>
    intro k hrise
    obtain ⟨-, -, chain, current, hclimb, -, -⟩ := hrise.passed hs
    have hm := move_step t
    rw [next] at hm
    cases hm with
    | begin idle _ =>
      rw [idle] at hclimb
      cases hclimb
    | settle climbing new here placed => exact ⟨k, t, hrise, .inr ⟨_, .intro climbing new here placed⟩⟩
    | up => exact ih (k + 1) (.up hrise next rfl)
  | case2 t sorted done =>
    intro k hrise
    obtain ⟨-, -, chain, current, hclimb, -, -⟩ := hrise.passed hs
    have hm := move_step t
    rw [done] at hm
    cases hm with
    | finish idle _ =>
      rw [idle] at hclimb
      cases hclimb
  | case3 t f fault =>
    intro k hrise
    exact ⟨k, t, hrise, .inl ⟨f, fault⟩⟩

/-! ## Rounds -/

/-- the state in which a climb from a name begins -/
def beginAt (s : State) (name : String) : State := { s with climb := some ([], name) }

/-- one round: the climb that begins at the first pending name comes to its end, and all that it has passed is placed -/
inductive Round (s : State) (name : String) : State → Prop where
  | placed {k : Nat} {t : State} {links : List Link} {rest : List String} (idle : s.climb = none)
      (first : s.pending.keys = name :: rest) (rises : Rises (beginAt s name) k t) (settles : Settles t links) :
      Round s name { placeAll t links with climb := none }

/-- so many rounds lead from the beginning to a state -/
inductive Rounds (m : Sections) : Nat → State → Prop where
  | start : Rounds m 0 (start m)
  | round {k : Nat} {s t : State} {name : String} (before : Rounds m k s) (next : Round s name t) : Rounds m (k + 1) t

theorem step_of_idle {rest : List String} (idle : s.climb = none) (first : s.pending.keys = name :: rest) :
    step s = .next (beginAt s name) := by
  simp only [step, idle, first, beginAt]

theorem Rounds.idle (h : Rounds m k s) : s.climb = none := by
  cases h with
  | start => rfl
  | round _ next =>
    cases next with
    | placed => rfl

/-- placing takes away the names that are placed, and no others -/
theorem pending_keys_placeAll (s : State) (links : List Link) :
    (placeAll s links).pending.keys = s.pending.keys.filter (· ∉ links.map Link.name) := by
  induction links generalizing s with
  | nil =>
    refine (List.filter_eq_self.2 fun n _ => ?_).symm
    simp
  | cons l links ih =>
    have hstep : (place s l).pending.keys = s.pending.keys.filter (· ≠ l.name) := s.pending.keys_erase l.name
    have hall : (placeAll s (l :: links)).pending.keys = (placeAll (place s l) links).pending.keys := rfl
    rw [hall, ih, hstep, List.filter_filter]
    refine List.filter_congr fun n _ => ?_
    by_cases hn : n = l.name <;> simp [hn]

/-- a round takes its first name away, and adds none -/
theorem Round.removes (h : Round s name t) :
    s.pending.contains name = true ∧ t.pending.contains name = false ∧ t.pending.keys.Sublist s.pending.keys := by
  cases h with
  | @placed k u links rest idle first rises settles =>
    obtain ⟨hpending, -, chain, current, hclimb, -, hfirst⟩ := rises.passed rfl
    have hkeys : (placeAll u links).pending.keys = s.pending.keys.filter (· ∉ links.map Link.name) := by
      rw [pending_keys_placeAll, hpending]
      rfl
    have hname : name ∈ links.map Link.name := by
      cases settles with
      | intro climbing new here placed =>
        rw [climbing] at hclimb
        cases hclimb
        have hmem := List.mem_of_mem_head? (Option.mem_def.2 hfirst)
        simpa [namesPassed, or_comm] using hmem
    refine ⟨(s.pending.mem_keys_iff name).1 (first ▸ List.mem_cons_self), ?_, hkeys ▸ List.filter_sublist⟩
    rw [Bool.eq_false_iff, Ne, ← OrderedMap.mem_keys_iff]
    show name ∉ (placeAll u links).pending.keys
    rw [hkeys, List.mem_filter]
    simp [hname]

theorem Round.size_lt (h : Round s name t) : t.pending.size < s.pending.size := by
  obtain ⟨hname, hgone, hsub⟩ := h.removes
  have hle : t.pending.size ≤ s.pending.size := by simpa [OrderedMap.keys, OrderedMap.size] using hsub.length_le
  refine Nat.lt_of_le_of_ne hle fun heq => ?_
  have hkeys : t.pending.keys = s.pending.keys := hsub.eq_of_length (by simpa [OrderedMap.keys, OrderedMap.size] using heq)
  rw [Bool.eq_false_iff, Ne, ← OrderedMap.mem_keys_iff, hkeys, OrderedMap.mem_keys_iff] at hgone
  exact hgone hname

/-- every round leaves fewer pending names -/
theorem Rounds.add_size_le (h : Rounds m k s) : k + s.pending.size ≤ m.size := by
  induction h with
  | start => exact (Nat.zero_add _).le
  | round _ next ih =>
    have := next.size_lt
    omega

/-! ## The end of the rounds -/

theorem run_of_next (h : step s = .next t) : run s = run t := by
  rw [run, h]

theorem Rises.run_eq (h : Rises s k t) : run s = run t := by
  induction h with
  | here => rfl
  | up _ next _ ih => rw [ih, run_of_next next]

theorem Round.run_eq (h : Round s name t) : run s = run t := by
  obtain ⟨idle, first, rises, settles⟩ := h
  rw [run_of_next (step_of_idle idle first), rises.run_eq, run_of_next (step_of_settles settles)]

theorem Rounds.run_eq (h : Rounds m k s) : m.parentsFirst = run s := by
  induction h with
  | start => rfl
  | round _ next ih => rw [ih, next.run_eq]

/-- how the rounds end: nothing is pending, or the climb of one more round meets a fault -/
inductive LastRound (m : Sections) (s : State) : Prop where
  | done (all : s.pending.keys = []) (result : m.parentsFirst = .ok s.sorted)
  | fault {name : String} {rest : List String} {k : Nat} {t : State} {f : ParentFault}
      (first : s.pending.keys = name :: rest) (rises : Rises (beginAt s name) k t) (meets : step t = .fault f)
      (result : m.parentsFirst = .error f)

theorem exists_end_of_rounds (h : Rounds m k s) : ∃ k t, Rounds m k t ∧ LastRound m t := by
  induction hn : s.pending.size using Nat.strong_induction_on generalizing s k with
  | _ n ih =>
    cases first : s.pending.keys with
    | nil =>
      have hdone : step s = .done s.sorted := by simp only [step, h.idle, first]
      exact ⟨k, s, h, .done first (by rw [h.run_eq, run, hdone])⟩
    | cons name rest =>
      obtain ⟨j, t, rises, ⟨f, meets⟩ | ⟨links, settles⟩⟩ := exists_end_of_climb (s := beginAt s name) rfl
      · refine ⟨k, s, h, .fault first rises meets ?_⟩
        rw [h.run_eq, run_of_next (step_of_idle h.idle first), rises.run_eq, run, meets]
      · have hround : Round s name { placeAll t links with climb := none } := .placed h.idle first rises settles
        exact ih _ (hn ▸ hround.size_lt) (.round h hround) rfl

/-! ## Main result -/

/-- **The loops end, and the books are kept.** At every point of a run, whatever the sections are, the pending and the placed ones are
apart and together are the sections, what is placed is closed under declared parents, and the names on the way are distinct and
pending, each declaring the next. A climb takes no more steps up than there are pending names before it meets a fault or its links are
placed. A round that is completed takes away the name that it began with and no name comes back; so there are no more rounds than
sections, the last of them perhaps cut short by a fault. -/
theorem loops_end_with_books_kept (m : Sections) :
    (∀ s waiting awaited?, Point m s waiting awaited? → Books m s waiting awaited?) ∧
    (∀ s name, Reachable m s → s.climb = some ([], name) →
      (∀ k t, Rises s k t → k ≤ s.pending.size) ∧
        ∃ k t, Rises s k t ∧ ((∃ f, step t = .fault f) ∨
          ∃ links, Settles t links ∧ step t = .next { placeAll t links with climb := none })) ∧
    (∀ s name t, Round s name t →
      s.pending.contains name = true ∧ t.pending.contains name = false ∧ t.pending.keys.Sublist s.pending.keys) ∧
    (∀ k s, Rounds m k s → k + s.pending.size ≤ m.size) ∧
    ∃ k s, Rounds m k s ∧ LastRound m s := by
  refine ⟨fun s waiting awaited? h => h.books, fun s name hr hs => ⟨fun k t h => h.le_size hr hs, ?_⟩,
    fun s name t h => h.removes, fun k s h => h.add_size_le, exists_end_of_rounds .start⟩
  obtain ⟨k, t, rises, hfault | ⟨links, settles⟩⟩ := exists_end_of_climb hs
  · exact ⟨k, t, rises, .inl hfault⟩
  · exact ⟨k, t, rises, .inr ⟨links, settles, step_of_settles settles⟩⟩

end Climb

end LayeredProfiles
