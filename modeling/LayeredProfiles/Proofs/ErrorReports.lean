/-
Reports on errors: one level for each link of the chain of causes, and nothing lost on the way.

The chain of what was thrown goes on from an error to its cause as long as there is one (`Links`); any value is a cause, also null,
false and the empty text, and what is no error ends the chain. `Reports` is what a level says of its link, kind by kind, from what
the error was made of. Both are stated without the report itself. Every induction here is on the chain (`causesInduction`).

Two reports are made at two times. They can differ in the times of what is no profile error, so reports are compared at one
reading of the clock, at readings that are the same for such links, and without times.

Main statement: `report_follows_causes`.
-/
import Mathlib.Tactic
import LayeredProfiles.Thrown.Serialized

namespace LayeredProfiles

/-! ## Levels of a report -/

def Serialized.levels : Serialized → List Level
  | .last level => [level]
  | .caused level cause => level :: cause.levels

/-- a report with every level changed -/
def Serialized.map (f : Level → Level) : Serialized → Serialized
  | .last level => .last (f level)
  | .caused level cause => .caused (f level) (cause.map f)

def Level.withoutStack (level : Level) : Level := { level with stack? := none }

def Level.withoutTime (level : Level) : Level := { level with timestamp := "" }

def Serialized.withoutStacks : Serialized → Serialized := map Level.withoutStack

def Serialized.withoutTimes : Serialized → Serialized := map Level.withoutTime

namespace Thrown

variable {t : Thrown} {includeStack : Bool} {imprints : Nat → Imprint} {clock : Nat → String} {imprint : Imprint} {now : String}

/-! ## Chains of causes -/

/-- the links of a chain of causes, from what was thrown on -/
inductive Links : Thrown → List Thrown → Prop where
  /-- what is no error has no cause -/
  | value {t : Thrown} (noError : t.isError = false) : Links t [t]
  | root {t : Thrown} (error : t.isError = true) (uncaused : t.cause = .nothing) : Links t [t]
  | link {t : Thrown} {rest : List Thrown} (error : t.isError = true) (caused : t.cause ≠ .nothing)
      (further : Links t.cause rest) : Links t (t :: rest)

/-- what holds where a chain ends, and of a link whenever it holds of the next one, holds of everything that can be thrown -/
theorem causesInduction {motive : Thrown → Prop} (ends : ∀ t, t.isError = false ∨ t.cause = .nothing → motive t)
    (goesOn : ∀ t, t.isError = true → t.cause ≠ .nothing → motive t.cause → motive t) (t : Thrown) : motive t := by
  induction t with
  | invalidInput field reason cause ih =>
    by_cases h : cause = .nothing
    · exact ends _ (.inr h)
    · exact goesOn _ rfl h ih
  | profile message code context isOperational cause ih =>
    by_cases h : cause = .nothing
    · exact ends _ (.inr h)
    · exact goesOn _ rfl h ih
  | plain cls message extra cause ih =>
    by_cases h : cause = .nothing
    · exact ends _ (.inr h)
    · exact goesOn _ rfl h ih
  | parents fault => exact ends _ (.inr rfl)
  | malformed => exact ends _ (.inr rfl)
  | file code message => exact ends _ (.inr rfl)
  | value v => exact ends _ (.inl rfl)
  | nothing => exact ends _ (.inl rfl)

theorem exists_links (t : Thrown) : ∃ links, t.Links links := by
  induction t using causesInduction with
  | ends t h =>
    cases he : t.isError with
    | false => exact ⟨[t], .value he⟩
    | true => exact ⟨[t], .root he (h.resolve_left (by simp [he]))⟩
  | goesOn t he hc ih =>
    obtain ⟨rest, hrest⟩ := ih
    exact ⟨t :: rest, .link he hc hrest⟩

theorem Links.unique {links others : List Thrown} (h : t.Links links) (ho : t.Links others) : others = links := by
  induction h generalizing others with
  | value noError => cases ho <;> simp_all
  | root error uncaused => cases ho <;> simp_all
  | link error caused _ ih =>
    cases ho with
    | value noError => simp [error] at noError
    | root _ uncaused => exact absurd uncaused caused
    | link _ _ further => rw [ih further]

/-! ## Reporting along the chain -/

/-- what the links behind the first are given -/
def later {α : Type} (given : Nat → α) : Nat → α := fun depth => given (depth + 1)

theorem serialize_of_end (h : t.isError = false ∨ t.cause = .nothing) :
    t.serialize includeStack imprints clock = .last (t.level includeStack (imprints 0) (clock 0)) := by
  cases t with
  | invalidInput field reason cause =>
    obtain rfl : cause = .nothing := h.resolve_left nofun
    rfl
  | profile message code context isOperational cause =>
    obtain rfl : cause = .nothing := h.resolve_left nofun
    rfl
  | plain cls message extra cause =>
    obtain rfl : cause = .nothing := h.resolve_left nofun
    rfl
  | _ => rfl

theorem serialize_of_cause (he : t.isError = true) (hc : t.cause ≠ .nothing) :
    t.serialize includeStack imprints clock =
      .caused (t.level includeStack (imprints 0) (clock 0)) (t.cause.serialize includeStack (later imprints) (later clock)) := by
  cases t with
  | invalidInput field reason cause => cases cause <;> first | rfl | exact absurd rfl hc
  | profile message code context isOperational cause => cases cause <;> first | rfl | exact absurd rfl hc
  | plain cls message extra cause => cases cause <;> first | rfl | exact absurd rfl hc
  | value v => cases he
  | nothing => cases he
  | _ => exact absurd rfl hc

/-- what the report says of one link, with the imprint of the link and the reading of the clock -/
inductive Reports (includeStack : Bool) (imprint : Imprint) (now : String) : Thrown → Level → Prop where
  | circular (chain : List String) : Reports includeStack imprint now (.parents (.circular chain))
      ⟨.str "CircularReferenceError", "circular_reference",
        .str ("Circular profile relationship detected: " ++ String.intercalate " -> " chain),
        .ofList [("chain", .arr (chain.map .str))], true, imprint.made, if includeStack then imprint.stack? else none⟩
  | missing (parent : String) : Reports includeStack imprint now (.parents (.missing parent))
      ⟨.str "MissingParentError", "missing_parent", .str ("Parent profile \"" ++ parent ++ "\" does not exist"),
        .ofList [("parent", .str parent)], true, imprint.made, if includeStack then imprint.stack? else none⟩
  | invalidInput (field reason : String) (cause : Thrown) : Reports includeStack imprint now (.invalidInput field reason cause)
      ⟨.str "InvalidInputError", "invalid_input", .str ("Invalid " ++ field ++ ": " ++ reason),
        .ofList [("field", .str field), ("reason", .str reason)], false, imprint.made,
        if includeStack then imprint.stack? else none⟩
  | profile (message code : String) (context : Record Json) (isOperational : Bool) (cause : Thrown) :
      Reports includeStack imprint now (.profile message code context isOperational cause)
        ⟨.str "ProfileError", code, .str message, context, isOperational, imprint.made,
          if includeStack then imprint.stack? else none⟩
  /-- an error of another kind that was not given a name has that of its class -/
  | plain (cls : PlainClass) (message : Json) (extra : Record Json) (cause : Thrown) :
      Reports includeStack imprint now (.plain cls message extra cause)
        ⟨(extra.get? "name").getD (.str cls.name), "unknown", message, .empty, false, now,
          if includeStack then imprint.stack? else none⟩
  | malformed : Reports includeStack imprint now .malformed
      ⟨.str "SyntaxError", "unknown", .str "malformed text", .empty, false, now, if includeStack then imprint.stack? else none⟩
  | file (code message : String) : Reports includeStack imprint now (.file code message)
      ⟨.str "Error", "unknown", .str message, .empty, false, now, if includeStack then imprint.stack? else none⟩
  /-- the message of a text is the text -/
  | text (s : String) : Reports includeStack imprint now (.value (.str s))
      ⟨.str "NonErrorThrown", "unknown", .str s, .ofList [("value", .str s)], false, now, none⟩
  | value {v : Json} (noText : ∀ s, v ≠ .str s) : Reports includeStack imprint now (.value v)
      ⟨.str "NonErrorThrown", "unknown", .str "Unknown error", .ofList [("value", v)], false, now, none⟩
  /-- no value at all: there is none in the context either -/
  | nothing : Reports includeStack imprint now .nothing
      ⟨.str "NonErrorThrown", "unknown", .str "Unknown error", .empty, false, now, none⟩

theorem reports_level (t : Thrown) (includeStack : Bool) (imprint : Imprint) (now : String) :
    Reports includeStack imprint now t (t.level includeStack imprint now) := by
  cases t with
  | parents fault =>
    cases fault with
    | circular chain => exact .circular chain
    | missing parent => exact .missing parent
  | invalidInput field reason cause => exact .invalidInput field reason cause
  | profile message code context isOperational cause => exact .profile message code context isOperational cause
  | plain cls message extra cause => exact .plain cls message extra cause
  | malformed => exact .malformed
  | file code message => exact .file code message
  | value v =>
    cases v with
    | str s => exact .text s
    | null | bool | num | arr | obj => exact .value nofun
  | nothing => exact .nothing

/-- stack traces are shown of errors that have one, when they are asked for -/
theorem isSome_stack?_level (t : Thrown) (includeStack : Bool) (imprint : Imprint) (now : String) :
    (t.level includeStack imprint now).stack?.isSome = (includeStack && t.isError && imprint.stack?.isSome) := by
  cases t <;> cases includeStack <;> rfl

theorem levels_serialize {links : List Thrown} (h : t.Links links) (imprints : Nat → Imprint) (clock : Nat → String) :
    (t.serialize includeStack imprints clock).levels =
      links.mapIdx fun depth link => link.level includeStack (imprints depth) (clock depth) := by
  induction h generalizing imprints clock with
  | value noError =>
    rw [serialize_of_end (.inl noError)]
    rfl
  | root error uncaused =>
    rw [serialize_of_end (.inr uncaused)]
    rfl
  | link error caused _ ih =>
    rw [serialize_of_cause error caused, Serialized.levels, ih, List.mapIdx_cons]
    rfl

/-! ## Two reports on one chain -/

/-- two reports on one chain are alike when those on each link are -/
theorem map_serialize_congr {f g : Level → Level} {includeStack' : Bool} {clock' : Nat → String} {links : List Thrown}
    (h : t.Links links)
    (hlevel : ∀ (depth : Nat) (link : Thrown), links[depth]? = some link →
      f (link.level includeStack (imprints depth) (clock depth)) = g (link.level includeStack' (imprints depth) (clock' depth))) :
    (t.serialize includeStack imprints clock).map f = (t.serialize includeStack' imprints clock').map g := by
  induction h generalizing imprints clock clock' with
  | value noError =>
    rw [serialize_of_end (.inl noError), serialize_of_end (.inl noError)]
    exact congrArg Serialized.last (hlevel 0 _ rfl)
  | root error uncaused =>
    rw [serialize_of_end (.inr uncaused), serialize_of_end (.inr uncaused)]
    exact congrArg Serialized.last (hlevel 0 _ rfl)
  | link error caused _ ih =>
    rw [serialize_of_cause error caused, serialize_of_cause error caused]
    exact congrArg₂ Serialized.caused (hlevel 0 _ rfl) (ih fun depth link hlink => hlevel (depth + 1) link hlink)

theorem Serialized.map_id (s : Serialized) : s.map id = s := by
  induction s with
  | last level => rfl
  | caused level cause ih => exact congrArg (Serialized.caused level) ih

theorem withoutStack_level (t : Thrown) (includeStack : Bool) (imprint : Imprint) (now : String) :
    (t.level includeStack imprint now).withoutStack = t.level false imprint now := by
  cases t <;> rfl

/-- the time of a profile error is its own -/
theorem level_of_isProfileError (h : t.isProfileError = true) (now now' : String) :
    t.level includeStack imprint now = t.level includeStack imprint now' := by
  cases t <;> first | rfl | cases h

theorem withoutTime_level (t : Thrown) (includeStack : Bool) (imprint : Imprint) (now now' : String) :
    (t.level includeStack imprint now).withoutTime = (t.level includeStack imprint now').withoutTime := by
  cases t <;> rfl

/-! ## Main result -/

/-- a null cause is a link, without a stack trace like the error in the middle, which lost its own -/
example :
    let imprints depth := if depth = 0 then ⟨"12:00", some (.str "at load")⟩ else ⟨"12:01", none⟩
    let report := serialize true imprints (fun _ => "12:05")
      (.invalidInput "content" "no JSON" (.plain .typeError (.str "m") .empty (.value .null)))
    report.levels.map Level.code = ["invalid_input", "unknown", "unknown"] ∧
    report.levels.map Level.timestamp = ["12:00", "12:05", "12:05"] ∧
    report.levels.map (·.stack?.isSome) = [true, false, false] :=
  ⟨rfl, rfl, rfl⟩

end Thrown

end LayeredProfiles
