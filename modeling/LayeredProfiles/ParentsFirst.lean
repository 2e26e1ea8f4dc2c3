/-
Sections in an order in which every parent stands before its children.

`Sections.parentsFirst` takes the first section that is not placed yet and climbs from it, parent by parent, up to a section
without a parent or with a placed one; then it places what it passed on the way, topmost first. A climb fails with the
first fault that it meets: a name that it has already passed (`circular`, with the names of the climb) or a name that no
section has (`missing`).

The climb is a machine of small steps (`Climb.State`, `Climb.step`), so that what holds at every point can be stated, and
`Climb.run` ends because each step places sections, or passes one that was not passed before, or begins a climb.
-/
import LayeredProfiles.Sections

namespace LayeredProfiles

/-- what can be wrong with the parents that sections declare -/
inductive ParentFault where
  /-- a climb comes back to a name: the names passed, ending with the repeated one -/
  | circular (chain : List String)
  /-- a declared parent that no section has -/
  | missing (parent : String)
  deriving DecidableEq, Repr

namespace Climb

/-- one section passed on the way up -/
structure Link where
  name : String
  properties : Properties

/-- the sections not placed yet and those placed; during a climb, also the sections passed (latest first) and the name
reached -/
structure State where
  pending : Sections
  sorted : Sections
  climb : Option (List Link × String)

/-- what one step comes to -/
inductive Outcome where
  | next (s : State)
  | done (sorted : Sections)
  | fault (f : ParentFault)

/-- before anything is placed -/
def start (sections : Sections) : State := ⟨sections, .empty, none⟩

def namesPassed (chain : List Link) : List String := (chain.map Link.name).reverse

/-- move one section from the pending to the placed ones -/
def place (s : State) (l : Link) : State :=
  { s with pending := s.pending.erase l.name, sorted := s.sorted.insert l.name l.properties }

def placeAll (s : State) (links : List Link) : State := links.foldl place s

/-- one step: begin a climb, go up to the parent, or place all that was passed -/
def step (s : State) : Outcome :=
  match s.climb with
  | none =>
    match s.pending.keys with
    | [] => .done s.sorted
    | name :: _ => .next { s with climb := some ([], name) }
  | some (chain, current) =>
    if current ∈ namesPassed chain then .fault (.circular (namesPassed chain ++ [current]))
    else
      match s.pending.get? current with
      | none => .fault (.missing current)
      | some properties =>
        match properties.declaredParent?.filter fun parent => !s.sorted.contains parent with
        | none => .next { placeAll s (⟨current, properties⟩ :: chain) with climb := none }
        | some parent => .next { s with climb := some (⟨current, properties⟩ :: chain, parent) }

/-! ## The machine ends -/

/-- the pending names that the climb has not passed -/
def State.ahead (s : State) : List String :=
  match s.climb with
  | none => s.pending.keys
  | some (chain, _) => s.pending.keys.filter (· ∉ namesPassed chain)

/-- what gets smaller: the sections to place; then the names to pass; then whether a climb is still to begin -/
def State.size (s : State) : Nat × Nat × Nat :=
  (s.pending.size, s.ahead.length, if s.climb.isNone then 1 else 0)

theorem pending_size_place_le (s : State) (l : Link) : (place s l).pending.size ≤ s.pending.size :=
  List.length_filter_le _ _

theorem pending_size_placeAll_le (chain : List Link) (s : State) :
    (placeAll s chain).pending.size ≤ s.pending.size := by
  induction chain generalizing s with
  | nil => exact Nat.le_refl _
  | cons l chain ih => exact Nat.le_trans (ih _) (pending_size_place_le s l)

/-- placing a pending section and the rest of the climb leaves less to place -/
theorem pending_size_placeAll_lt (l : Link) (chain : List Link) (s : State) (h : s.pending.contains l.name = true) :
    (placeAll s (l :: chain)).pending.size < s.pending.size :=
  Nat.lt_of_le_of_lt (pending_size_placeAll_le chain _) (s.pending.size_erase_lt h)

/-- passing a name that is pending and was not passed leaves fewer names to pass -/
theorem length_filter_passed_lt (names passed : List String) (current : String) (hc : current ∈ names)
    (hn : current ∉ passed) :
    (names.filter (· ∉ passed ++ [current])).length < (names.filter (· ∉ passed)).length := by
  have hs : names.filter (· ∉ passed ++ [current]) = (names.filter (· ∉ passed)).filter (· ≠ current) := by
    rw [List.filter_filter]
    exact List.filter_congr fun n _ => by by_cases h : n = current <;> simp [h]
  rw [hs]
  refine Nat.lt_of_le_of_ne (List.length_filter_le _ _) fun heq => ?_
  have := List.length_filter_eq_length_iff.1 heq current (List.mem_filter.2 ⟨hc, by simpa using hn⟩)
  simp at this

/-- every step to a next state makes the state smaller -/
theorem size_step_lt {s t : State} (h : step s = .next t) :
    Prod.Lex (· < ·) (Prod.Lex (· < ·) (· < ·)) t.size s.size := by
  unfold step at h
  split at h
  · rename_i hc
    split at h
    · cases h
    · cases h
      simp only [State.size, State.ahead, hc]
      refine .right _ ?_
      have hf : s.pending.keys.filter (· ∉ namesPassed []) = s.pending.keys :=
        List.filter_eq_self.2 fun n _ => by simp [namesPassed]
      rw [hf]
      exact .right _ (by simp)
  · rename_i chain current hc
    split at h
    · cases h
    · rename_i hn
      split at h
      · cases h
      · rename_i properties hp
        have hmem : s.pending.contains current = true := by simp [OrderedMap.contains, hp]
        have hlt := pending_size_placeAll_lt ⟨current, properties⟩ chain s hmem
        split at h
        · cases h; exact .left _ _ hlt
        · cases h
          simp only [State.size, State.ahead, hc]
          refine .right _ (.left _ _ ?_)
          have := length_filter_passed_lt s.pending.keys (namesPassed chain) current
            ((s.pending.mem_keys_iff _).2 hmem) hn
          simpa [namesPassed] using this

def run (s : State) : Except ParentFault Sections :=
  match _h : step s with
  | .next t => run t
  | .done sorted => .ok sorted
  | .fault f => .error f
termination_by s.size
decreasing_by exact size_step_lt _h

end Climb

/-- the sections with every parent before its children, or the first fault met -/
def Sections.parentsFirst (sections : Sections) : Except ParentFault Sections :=
  Climb.run (Climb.start sections)

end LayeredProfiles
