/-
Sessions on one builder: sources and kinds are given to it and stores are built with it, in any order.

A session keeps what its builds gave, which sources they loaded and which records they made; what was kept stays, whatever calls
come later (`Session.Mono`). The builder of a session is known by the source and the kind given last (`Session.builder_run`), so a
build that failed leaves nothing behind. How a single build ends is `Ends`, one case for each way.

Main statement: `build_of_latest`.
-/
import LayeredProfiles.Proofs.LoadTrace
import LayeredProfiles.Proofs.Normalization

namespace LayeredProfiles

theorem Traced.records_of_trace {α : Type} {t : Traced α} {source : Source} {events : List LogEvent}
    (h : t.trace = .load source :: events.map .log) : t.records = events.map LogEvent.record := by
  rw [records, logs_of_trace h]

theorem Resolved.size_eq {m : Sections} {s : Store} (hr : Resolved m s) : s.size = m.size := by
  have hkeys : s.profiles.keys.Perm m.keys := OrderedMap.keys_perm hr.has_iff
  rw [Store.size, OrderedMap.size_eq_length_keys, hkeys.length_eq, ← OrderedMap.size_eq_length_keys]

namespace Builder

/-! ## Sessions -/

/-- a call on a builder; a build finds the host as it is at its time -/
inductive Call where
  | content (source : Source)
  | kind (kind : Json)
  | build (host : Host)

/-- a builder in use: what its builds gave, the sources they loaded and the records they made, in order -/
structure Session where
  builder : Builder
  results : List (Except Thrown Store)
  loads : List Source
  records : List LogRecord

namespace Session

/-- a builder that was not used yet -/
def fresh (logger : Logger) : Session := ⟨.start logger, [], [], []⟩

def step (s : Session) : Call → Session
  | .content source => { s with builder := s.builder.content source }
  | .kind v => { s with builder := s.builder.kind v }
  | .build host =>
    let outcome := s.builder.build host
    ⟨s.builder, s.results ++ [outcome.result], s.loads ++ outcome.loads, s.records ++ outcome.records⟩

def run (s : Session) (calls : List Call) : Session := calls.foldl step s

/-- what a session kept is kept by a later one -/
structure Mono (s t : Session) : Prop where
  results : s.results <+: t.results
  loads : s.loads <+: t.loads
  records : s.records <+: t.records

theorem Mono.refl (s : Session) : s.Mono s := ⟨List.prefix_rfl, List.prefix_rfl, List.prefix_rfl⟩

theorem Mono.trans {s t u : Session} (h : s.Mono t) (h' : t.Mono u) : s.Mono u :=
  ⟨h.results.trans h'.results, h.loads.trans h'.loads, h.records.trans h'.records⟩

theorem step_mono (s : Session) (call : Call) : s.Mono (s.step call) := by
  cases call with
  | content source => exact ⟨List.prefix_rfl, List.prefix_rfl, List.prefix_rfl⟩
  | kind v => exact ⟨List.prefix_rfl, List.prefix_rfl, List.prefix_rfl⟩
  | build host => exact ⟨List.prefix_append _ _, List.prefix_append _ _, List.prefix_append _ _⟩

theorem run_mono (s : Session) (calls : List Call) : s.Mono (s.run calls) := by
  induction calls generalizing s with
  | nil => exact .refl s
  | cons call calls ih => exact (s.step_mono call).trans (ih (s.step call))

theorem run_append (s : Session) (before after : List Call) : s.run (before ++ after) = (s.run before).run after :=
  List.foldl_append

end Session

/-! ## What was given last -/

def Call.source? : Call → Option Source
  | .content source => some source
  | _ => none

def Call.kind? : Call → Option Json
  | .kind v => some v
  | _ => none

def latestSource? (calls : List Call) : Option Source := (calls.filterMap Call.source?).getLast?

def latestKind? (calls : List Call) : Option Json := (calls.filterMap Call.kind?).getLast?

/-- a fresh builder, to which a source and a kind are given at most once -/
def given (logger : Logger) (source? : Option Source) (kind? : Option Json) : Builder :=
  let withSource := source?.elim (start logger) (start logger).content
  kind?.elim withSource withSource.kind

theorem given_eq (logger : Logger) (source? : Option Source) (kind? : Option Json) :
    given logger source? kind? = ⟨(start logger).logger, source?, kind?⟩ := by
  cases source? <;> cases kind? <;> rfl

/-- whatever was built on the way, a builder is as if it had only been given the last source and the last kind -/
theorem Session.builder_run (logger : Logger) (calls : List Call) :
    ((fresh logger).run calls).builder = given logger (latestSource? calls) (latestKind? calls) := by
  rw [given_eq]
  induction calls using List.reverseRecOn with
  | nil => rfl
  | append_singleton calls call ih =>
    have hstep : (fresh logger).run (calls ++ [call]) = ((fresh logger).run calls).step call := run_append _ calls [call]
    rw [hstep]
    cases call with
    | content source => simp [step, content, ih, latestSource?, latestKind?, Call.source?, Call.kind?]
    | kind v => simp [step, Builder.kind, ih, latestSource?, latestKind?, Call.source?, Call.kind?]
    | build host => simp [step, ih, latestSource?, latestKind?, Call.source?, Call.kind?]

/-! ## What the records say -/

/-- every record of a build names the part of the library, the source and the kind -/
structure Carries (source : Source) (kind : SourceKind) (r : LogRecord) : Prop where
  component : r.component? = some (.json (.str "profile-store-builder"))
  source : r.payload.get? "source" = some (.json (.str source.name))
  kind : r.payload.get? "kind" = some (.json (.str kind.word))

/-- the warning about a section that does not fit -/
structure Warns (source : Source) (kind : SourceKind) (spelled : String) (r : LogRecord) : Prop
    extends Carries source kind r where
  level : r.level = .warn
  spelled : r.payload.get? "section" = some (.json (.str spelled))

/-- the report of what was thrown -/
structure Blames (source : Source) (kind : SourceKind) (t : Thrown) (r : LogRecord) : Prop extends Carries source kind r where
  level : r.level = .error
  err : r.payload.get? "err" = some (.thrown t)

/-- the report of a store that was built, with the numbers of the sections that were loaded and of its profiles -/
structure Counts (source : Source) (kind : SourceKind) (sections profiles : Nat) (r : LogRecord) : Prop
    extends Carries source kind r where
  level : r.level = .debug
  sections : r.payload.get? "sections" = some (.json (.ofNat sections))
  profiles : r.payload.get? "profiles" = some (.json (.ofNat profiles))

section Records

variable {logger : Logger} {source : Source} {kind : SourceKind}

/-- the logger of a build below that of a builder -/
abbrev loggerOf (logger : Logger) (source : Source) (kind : SourceKind) : Logger := (start logger).buildLogger source kind

theorem context?_loggerOf (key : String) :
    (loggerOf logger source kind).context? key =
      ((OrderedMap.find? key [("source", source.name), ("kind", kind.word)]).or
        (OrderedMap.find? key [("component", "profile-store-builder")])).elim (logger.context? key)
          fun text => some (.json (.str text)) := by
  unfold loggerOf buildLogger start
  rw [Logger.context?_child, LogFields.get?_ofTexts (by simp), Logger.context?_child, LogFields.get?_ofTexts (by simp)]
  cases OrderedMap.find? key [("source", source.name), ("kind", kind.word)] with
  | some text => rfl
  | none => cases OrderedMap.find? key [("component", "profile-store-builder")] <;> rfl

/-- the fields of a call keep the context of its build unless they name it themselves -/
theorem carries_record {level : LogLevel} {message : String} {fields : LogFields}
    (free : ∀ key ∈ ["component", "source", "kind"], fields.get? key = none) :
    Carries source kind ((loggerOf logger source kind).log level message fields).record where
  component := by
    rw [LogRecord.component?, Logger.get?_record, free _ (by simp), context?_loggerOf]
    rfl
  source := by
    rw [Logger.get?_record, free _ (by simp), context?_loggerOf]
    rfl
  kind := by
    rw [Logger.get?_record, free _ (by simp), context?_loggerOf]
    rfl

theorem warns_warning (spelled : String) :
    Warns source kind spelled (warning (loggerOf logger source kind) spelled).record where
  toCarries := carries_record (by simp [LogFields.get?_ofTexts, OrderedMap.find?])
  level := rfl
  spelled := by
    rw [warning, Logger.get?_record, LogFields.get?_ofTexts (by simp)]
    rfl

theorem blames_failure (t : Thrown) : Blames source kind t (failure (loggerOf logger source kind) t).record where
  toCarries := carries_record (by simp [LogFields.ofThrown, LogFields.errorKey, OrderedMap.get?_ofList, OrderedMap.find?])
  level := rfl
  err := by
    rw [failure, Logger.get?_record]
    rfl

theorem counts_success (sections profiles : Nat) :
    Counts source kind sections profiles (success (loggerOf logger source kind) sections profiles).record where
  toCarries := carries_record (by simp [LogFields.get?_ofCounts, OrderedMap.find?])
  level := rfl
  sections := by
    rw [success, Logger.get?_record, LogFields.get?_ofCounts (by simp)]
    rfl
  profiles := by
    rw [success, Logger.get?_record, LogFields.get?_ofCounts (by simp)]
    rfl

end Records

/-! ## How a build ends -/

/-- the section names of a source that do not fit its dialect, in the order of the source -/
def misfits (kind : SourceKind) (raw : Sections) : List String :=
  raw.keys.filter fun spelled => (kind.profileName? spelled).isNone

/-- how a build ends for what it was given: its result, the sources that it loads and its records -/
inductive Ends (host : Host) :
    Option Source → Option Json → Except Thrown Store → List Source → List LogRecord → Prop
  | noContent {kind? : Option Json} :
      Ends host none kind? (.error (.invalid "content" "a section source is required")) [] []
  | badKind {source : Source} {kind? : Option Json} {shown : String} (invalid : kind?.bind SourceKind.ofJson? = none)
      (text : shownKind? kind? = some shown) :
      Ends host (some source) kind?
        (.error (.invalid "kind" ("expected \"configuration\" or \"credentials\", got " ++ shown))) [] []
  /-- the sentence about the kind cannot be made -/
  | textlessKind {source : Source} {kind? : Option Json} (invalid : kind?.bind SourceKind.ofJson? = none)
      (text : shownKind? kind? = none) : Ends host (some source) kind? (.error .noText) [] []
  | rejected {source : Source} {given : Json} {kind : SourceKind} {t : Thrown} {last : LogRecord}
      (valid : SourceKind.ofJson? given = some kind) (loaded : source.load host = .error t) (blames : Blames source kind t last) :
      Ends host (some source) (some given) (.error t) [source] [last]
  | unresolved {source : Source} {given : Json} {kind : SourceKind} {raw : Sections} {fault : ParentFault}
      {warnings : List LogRecord} {last : LogRecord} (valid : SourceKind.ofJson? given = some kind)
      (loaded : source.load host = .ok raw) (resolved : Store.resolve (raw.normalize kind).sections = .error fault)
      (warned : List.Forall₂ (Warns source kind) (misfits kind raw) warnings)
      (blames : Blames source kind (.parents fault) last) :
      Ends host (some source) (some given) (.error (.parents fault)) [source] (warnings ++ [last])
  | built {source : Source} {given : Json} {kind : SourceKind} {raw : Sections} {store : Store}
      {warnings : List LogRecord} {last : LogRecord} (valid : SourceKind.ofJson? given = some kind)
      (loaded : source.load host = .ok raw) (resolved : Store.resolve (raw.normalize kind).sections = .ok store)
      (warned : List.Forall₂ (Warns source kind) (misfits kind raw) warnings)
      (counts : Counts source kind raw.size store.size last)
      (bounded : store.size + warnings.length ≤ raw.size)
      (exact : kind = .credentials → store.size + warnings.length = raw.size) :
      Ends host (some source) (some given) (.ok store) [source] (warnings ++ [last])

section Outcome

variable {host : Host} {logger : Logger} {source : Source} {kind : SourceKind} {raw : Sections}

/-- the warnings of a build -/
def warningsOf (logger : Logger) (source : Source) (kind : SourceKind) (raw : Sections) : List LogEvent :=
  (misfits kind raw).map (warning (loggerOf logger source kind))

theorem forall₂_warns : List.Forall₂ (Warns source kind) (misfits kind raw)
    ((warningsOf logger source kind raw).map LogEvent.record) := by
  rw [warningsOf, List.map_map, List.forall₂_map_right_iff]
  exact List.forall₂_same.2 fun spelled _ => warns_warning spelled

/-- the store of a source has at most a profile for each section that is not warned about -/
theorem size_add_warnings_le {store : Store} (h : Store.resolve (raw.normalize kind).sections = .ok store) :
    store.size + ((warningsOf logger source kind raw).map LogEvent.record).length ≤ raw.size := by
  rw [(resolved_of_resolve h).size_eq, List.length_map, warningsOf, List.length_map]
  exact raw.size_renameBy_add_ignored_le kind.profileName?

theorem size_add_warnings_of_credentials {store : Store} (h : Store.resolve (raw.normalize kind).sections = .ok store)
    (hkind : kind = .credentials) :
    store.size + ((warningsOf logger source kind raw).map LogEvent.record).length = raw.size := by
  subst hkind
  rw [(resolved_of_resolve h).size_eq, List.length_map, warningsOf, List.length_map]
  exact raw.size_credentials_add_ignored

theorem ends_buildFrom {given : Json} (valid : SourceKind.ofJson? given = some kind) :
    let outcome := buildFrom host (loggerOf logger source kind) source kind
    Ends host (some source) (some given) outcome.result outcome.loads outcome.records := by
  intro outcome
  cases hl : source.load host with
  | error t =>
    have htrace : outcome.trace = .load source :: [failure (loggerOf logger source kind) t].map .log := by
      simp only [outcome, buildFrom, hl, List.map_cons, List.map_nil]
    have hresult : outcome.result = .error t := by simp only [outcome, buildFrom, hl]
    rw [hresult, Traced.loads_of_trace htrace, Traced.records_of_trace htrace]
    exact .rejected valid hl (blames_failure t)
  | ok raw =>
    cases hr : Store.resolve (raw.normalize kind).sections with
    | error fault =>
      have htrace : outcome.trace = .load source :: (warningsOf logger source kind raw ++
          [failure (loggerOf logger source kind) (.parents fault)]).map .log := by
        simp only [outcome, buildFrom, hl, hr, List.map_append, warningsOf, List.map_map]
        rfl
      have hresult : outcome.result = .error (.parents fault) := by simp only [outcome, buildFrom, hl, hr]
      rw [hresult, Traced.loads_of_trace htrace, Traced.records_of_trace htrace, List.map_append]
      exact .unresolved valid hl hr forall₂_warns (blames_failure _)
    | ok store =>
      have htrace : outcome.trace = .load source :: (warningsOf logger source kind raw ++
          [success (loggerOf logger source kind) raw.size store.size]).map .log := by
        simp only [outcome, buildFrom, hl, hr, List.map_append, warningsOf, List.map_map]
        rfl
      have hresult : outcome.result = .ok store := by simp only [outcome, buildFrom, hl, hr]
      rw [hresult, Traced.loads_of_trace htrace, Traced.records_of_trace htrace, List.map_append]
      exact .built valid hl hr forall₂_warns (counts_success _ _) (size_add_warnings_le hr)
        (size_add_warnings_of_credentials hr)

theorem ends_build (host : Host) (logger : Logger) (source? : Option Source) (kind? : Option Json) :
    let outcome := (given logger source? kind?).build host
    Ends host source? kind? outcome.result outcome.loads outcome.records := by
  rw [given_eq]
  cases source? with
  | none => exact .noContent
  | some source =>
    cases hk : kind?.bind SourceKind.ofJson? with
    | none =>
      simp only [build, hk, badKind]
      cases hshown : shownKind? kind? with
      | none => exact .textlessKind hk hshown
      | some shown => exact .badKind hk hshown
    | some kind =>
      obtain ⟨given, rfl, hgiven⟩ := Option.bind_eq_some_iff.1 hk
      simp only [build, hk]
      exact ends_buildFrom hgiven

/-- a failure of a build that loaded its source is the one that its last record reports -/
theorem Ends.blamed {source? : Option Source} {kind? : Option Json} {t : Thrown} {loads : List Source}
    {records : List LogRecord} (h : Ends host source? kind? (.error t) loads records) (hloads : loads ≠ []) :
    ∃ last, records.getLast? = some last ∧ last.level = .error ∧ last.payload.get? "err" = some (.thrown t) := by
  cases h with
  | noContent => exact absurd rfl hloads
  | badKind => exact absurd rfl hloads
  | textlessKind => exact absurd rfl hloads
  | rejected _ _ blames => exact ⟨_, rfl, blames.level, blames.err⟩
  | unresolved _ _ _ _ blames => exact ⟨_, List.getLast?_concat, blames.level, blames.err⟩

end Outcome

/-- **A build uses what was given last.** Whatever calls came before on the same builder, a build adds to the session what the same
build of a fresh builder gives to which only the last source and the last kind were given, and no later call takes any of it away. A
recording sink does not touch its result. How it ends is determined by these two and the host: without a source, or without a valid
kind, it fails and neither loads nor reports anything. Else it loads the source once and reports, always naming the source and the
kind: that loading failed; or each section that does not fit, and then the fault of the parents, or the numbers of sections and
profiles. The failure that it reports is the one that it ends with. -/
theorem build_of_latest (logger : Logger) (before after : List Call) (host : Host) :
    let earlier := (Session.fresh logger).run before
    let outcome := (given logger (latestSource? before) (latestKind? before)).build host
    earlier.run [.build host] = ⟨earlier.builder, earlier.results ++ [outcome.result], earlier.loads ++ outcome.loads,
        earlier.records ++ outcome.records⟩ ∧
      (earlier.run [.build host]).Mono ((Session.fresh logger).run (before ++ .build host :: after)) ∧
      outcome.through .records = (outcome.result, outcome.records.map .record) ∧
      Ends host (latestSource? before) (latestKind? before) outcome.result outcome.loads outcome.records ∧
      ∀ t, outcome.result = .error t → outcome.loads ≠ [] → ∃ last, outcome.records.getLast? = some last ∧
        last.level = .error ∧ last.payload.get? "err" = some (.thrown t) := by
  intro earlier outcome
  have hends : Ends host (latestSource? before) (latestKind? before) outcome.result outcome.loads outcome.records :=
    ends_build host logger _ _
  refine ⟨?_, ?_, outcome.through_records, hends, ?_⟩
  · have hbuilder : earlier.builder = given logger (latestSource? before) (latestKind? before) :=
      Session.builder_run logger before
    show earlier.step (.build host) = _
    simp only [Session.step, hbuilder, outcome]
  · have hrun : (Session.fresh logger).run (before ++ .build host :: after) = (earlier.run [.build host]).run after := by
      rw [← Session.run_append, List.singleton_append, Session.run_append]
    rw [hrun]
    exact Session.run_mono _ after
  · intro t ht hloads
    exact (ht ▸ hends).blamed hloads

/-- a kind whose text would be made by a member of its own, which is no function -/
def textlessKind : Json := .obj [("toString", .ofNat 1)]

/-- with a source and a kind that has no text, a build does not fail with an invalid input -/
theorem textless_kind_no_invalid_input :
    SourceKind.ofJson? textlessKind = none ∧
      ((Session.fresh (.root .empty)).run [.content (.inline "map" (.table .empty)), .kind textlessKind,
        .build bareHost]).results = [.error .noText] ∧
      ∀ field reason cause, Thrown.noText ≠ .invalidInput field reason cause := by
  refine ⟨rfl, rfl, ?_⟩
  intro field reason cause h
  cases h

end Builder

end LayeredProfiles
