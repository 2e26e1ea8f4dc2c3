/-
What happens while a store is loaded from several sources.

The trace of an operation lists the sources that it loads and its log calls. A recording sink keeps every call, so the trace decides
which records there are, whatever logger is given. Entries are built in order up to the first that fails; the aggregation comes
behind all of them, or not at all.

Results:
- `SourceEntry.build_error_iff`: the three ways in which the build of an entry fails, with the error of each.
- `loadStore_of_fails`, `loadStore_of_builds`: the result and the trace of loading.

Main statement: `load_fails_fast`.
-/
import LayeredProfiles.Proofs.AggregationFaults
import LayeredProfiles.Proofs.LoadPrecedence

namespace LayeredProfiles

/-! ## What a trace shows -/

/-- a recording sink keeps every call -/
theorem Sink.emitAll_records (events : List LogEvent) :
    emitAll .records events = (events.map fun e => .record e.record, none) := by
  induction events with
  | nil => rfl
  | cons e events ih => simp [emitAll, emit, ih]

namespace Traced

variable {α : Type}

/-- the sources that an operation loads, in order -/
def loads (t : Traced α) : List Source :=
  t.trace.filterMap fun
    | .load source => some source
    | .log _ => none

def records (t : Traced α) : List LogRecord := t.logs.map LogEvent.record

theorem loads_of_trace {t : Traced α} {source : Source} {events : List LogEvent}
    (h : t.trace = .load source :: events.map .log) : t.loads = [source] := by
  simp [loads, h, List.filterMap_map]

theorem logs_of_trace {t : Traced α} {source : Source} {events : List LogEvent}
    (h : t.trace = .load source :: events.map .log) : t.logs = events := by
  simp [logs, h, List.filterMap_map]

theorem through_records (t : Traced α) : t.through .records = (t.result, t.records.map .record) := by
  simp [through, Sink.emitAll_records, records]

end Traced

/-! ## Contexts and records -/

namespace LogFields

variable {α : Type} {l : List (String × α)}

theorem get?_ofList_map (f : α → LogValue) (h : l.Pairwise fun a b => a.1 ≠ b.1) (key : String) :
    (OrderedMap.ofList (l.map fun e => (e.1, f e.2)) : LogFields).get? key = (OrderedMap.find? key l).map f := by
  have hl : (l.map fun e => (e.1, f e.2)).Pairwise fun a b => a.1 ≠ b.1 := List.pairwise_map.2 h
  rw [OrderedMap.get?_ofList _ hl, OrderedMap.find?_map fun _ => f]

theorem get?_ofTexts {l : List (String × String)} (h : l.Pairwise fun a b => a.1 ≠ b.1) (key : String) :
    (ofTexts l).get? key = (OrderedMap.find? key l).map fun s => .json (.str s) :=
  get?_ofList_map (fun s => .json (.str s)) h key

theorem get?_ofCounts {l : List (String × Nat)} (h : l.Pairwise fun a b => a.1 ≠ b.1) (key : String) :
    (ofCounts l).get? key = (OrderedMap.find? key l).map fun n => .json (.ofNat n) :=
  get?_ofList_map (fun n => .json (.ofNat n)) h key

end LogFields

namespace Logger

variable {l : Logger} {key : String}

/-- the value of a field in the contexts of a logger, the nearest first -/
def context? (l : Logger) (key : String) : Option LogValue := (l.contexts.foldl .overlay .empty : LogFields).get? key

theorem context?_child (context : LogFields) : (l.child context).context? key = (context.get? key).or (l.context? key) := by
  simp [context?, child, List.foldl_append, OrderedMap.get?_overlay]

theorem get?_record (level : LogLevel) (message : String) (fields : LogFields) :
    (l.log level message fields).record.payload.get? key = (fields.get? key).or (l.context? key) :=
  OrderedMap.get?_overlay _ _ key

end Logger

/-- the field that says which part of the library a record is of -/
def LogRecord.component? (r : LogRecord) : Option LogValue := r.payload.get? "component"

/-! ## The build of one entry -/

/-- how the build of an entry fails: its kind is none, its source cannot be loaded, or its sections do not resolve -/
inductive SourceEntry.Fails (host : Host) (entry : SourceEntry) : Thrown → Prop
  | kind (invalid : SourceKind.ofJson? entry.kind = none) : Fails host entry (Builder.badKind (some entry.kind))
  | load {kind : SourceKind} {t : Thrown} (valid : SourceKind.ofJson? entry.kind = some kind)
      (rejected : entry.source.load host = .error t) : Fails host entry t
  | sections {kind : SourceKind} {raw : Sections} {fault : ParentFault} (valid : SourceKind.ofJson? entry.kind = some kind)
      (loaded : entry.source.load host = .ok raw) (unresolved : Store.resolve (raw.normalize kind).sections = .error fault) :
      Fails host entry (.parents fault)

namespace SourceEntry

variable {host : Host} {logger : Logger} {entry : SourceEntry} {t : Thrown}

/-- the logger of the build of an entry -/
def buildLogger (logger : Logger) (entry : SourceEntry) (kind : SourceKind) : Logger :=
  (Builder.start logger).buildLogger entry.source kind

theorem build_of_invalid (h : SourceKind.ofJson? entry.kind = none) :
    entry.build host logger = ⟨.error (Builder.badKind (some entry.kind)), []⟩ := by
  simp [build, Builder.build, Builder.kind, Builder.content, h]

theorem build_of_valid {kind : SourceKind} (h : SourceKind.ofJson? entry.kind = some kind) :
    entry.build host logger = Builder.buildFrom host (buildLogger logger entry kind) entry.source kind := by
  simp [build, Builder.build, Builder.kind, Builder.content, h]
  rfl

theorem build_error_iff : (entry.build host logger).result = .error t ↔ entry.Fails host t := by
  constructor
  · intro h
    cases hk : SourceKind.ofJson? entry.kind with
    | none =>
      rw [build_of_invalid hk] at h
      cases h
      exact .kind hk
    | some kind =>
      rw [build_of_valid hk, Builder.buildFrom] at h
      cases hl : entry.source.load host with
      | error u =>
        simp only [hl, Except.error.injEq] at h
        exact .load hk (h ▸ hl)
      | ok raw =>
        cases hr : Store.resolve (raw.normalize kind).sections with
        | error fault =>
          simp only [hl, hr, Except.error.injEq] at h
          exact h ▸ .sections hk hl hr
        | ok store =>
          simp only [hl, hr] at h
          cases h
  · intro h
    cases h with
    | kind invalid => rw [build_of_invalid invalid]
    | load valid rejected => rw [build_of_valid valid, Builder.buildFrom, rejected]
    | sections valid loaded unresolved => simp only [build_of_valid valid, Builder.buildFrom, loaded, unresolved]

/-- an entry that does not fail builds -/
theorem exists_build_iff : (∃ s, (entry.build host logger).result = .ok s) ↔ ∀ t, ¬ entry.Fails host t := by
  constructor
  · intro h t hfails
    obtain ⟨s, hs⟩ := h
    rw [build_error_iff.2 hfails] at hs
    cases hs
  · intro h
    cases hb : (entry.build host logger).result with
    | error t => exact absurd (build_error_iff.1 hb) (h t)
    | ok s => exact ⟨s, rfl⟩

theorem not_fails_of_resolve {kind : SourceKind} {raw : Sections} (h : entry.loaded? host = some (kind, raw))
    (hr : ∃ s, Store.resolve (raw.normalize kind).sections = .ok s) : ∀ t, ¬ entry.Fails host t := by
  obtain ⟨s, hs⟩ := hr
  have hb : (entry.build host (.root .empty)).result = .ok s := build_ok_iff.2 ⟨kind, raw, h, hs⟩
  exact exists_build_iff.1 ⟨s, hb⟩

end SourceEntry

/-! ## What a build does -/

namespace Builder

variable {host : Host} {logger : Logger} {source : Source} {kind : SourceKind}

/-- a call on the logger of a build that does not name a part of the library itself -/
def Plain (logger : Logger) (e : LogEvent) : Prop :=
  ∃ level message fields, e = logger.log level message fields ∧ fields.get? "component" = none

theorem plain_warning (logger : Logger) (spelled : String) : Plain logger (warning logger spelled) := ⟨_, _, _, rfl, rfl⟩

theorem plain_failure (logger : Logger) (t : Thrown) : Plain logger (failure logger t) := ⟨_, _, _, rfl, rfl⟩

theorem plain_success (logger : Logger) (sections profiles : Nat) : Plain logger (success logger sections profiles) :=
  ⟨_, _, _, rfl, LogFields.get?_ofCounts (by simp) "component"⟩

/-- a build loads its source once, and then only makes calls on its logger -/
theorem exists_trace_eq (host : Host) (logger : Logger) (source : Source) (kind : SourceKind) :
    ∃ events : List LogEvent, (buildFrom host logger source kind).trace = .load source :: events.map .log ∧
      ∀ e ∈ events, Plain logger e := by
  unfold buildFrom
  cases source.load host with
  | error t => exact ⟨[failure logger t], rfl, by simp [plain_failure]⟩
  | ok raw =>
    let warnings := (raw.normalize kind).ignored.map (warning logger)
    have hwarnings : ∀ e ∈ warnings, Plain logger e := by
      intro e he
      obtain ⟨spelled, -, rfl⟩ := List.mem_map.1 he
      exact plain_warning logger spelled
    cases hr : Store.resolve (raw.normalize kind).sections with
    | error fault =>
      refine ⟨warnings ++ [failure logger (.parents fault)], by simp [warnings, hr, Function.comp_def], ?_⟩
      exact List.forall_mem_append.2 ⟨hwarnings, by simp [plain_failure]⟩
    | ok store =>
      refine ⟨warnings ++ [success logger raw.size store.size], by simp [warnings, hr, Function.comp_def], ?_⟩
      exact List.forall_mem_append.2 ⟨hwarnings, by simp [plain_success]⟩

end Builder

namespace SourceEntry

variable {host : Host} {logger : Logger} {entry : SourceEntry}

/-- the build of an entry loads its source, unless the kind is none -/
theorem loads_build :
    (entry.build host logger).loads = if (SourceKind.ofJson? entry.kind).isSome then [entry.source] else [] := by
  cases hk : SourceKind.ofJson? entry.kind with
  | none =>
    rw [build_of_invalid hk]
    rfl
  | some kind =>
    obtain ⟨events, htrace, -⟩ := Builder.exists_trace_eq host (buildLogger logger entry kind) entry.source kind
    rw [build_of_valid hk, Traced.loads_of_trace htrace]
    rfl

theorem context?_buildLogger (kind : SourceKind) :
    (buildLogger logger entry kind).context? "component" = some (.json (.str "profile-store-builder")) := by
  unfold buildLogger Builder.buildLogger Builder.start
  rw [Logger.context?_child, LogFields.get?_ofTexts (by simp), Logger.context?_child, LogFields.get?_ofTexts (by simp)]
  rfl

theorem component_of_mem_build {r : LogRecord} (h : r ∈ (entry.build host logger).records) :
    r.component? = some (.json (.str "profile-store-builder")) := by
  cases hk : SourceKind.ofJson? entry.kind with
  | none =>
    rw [build_of_invalid hk] at h
    cases h
  | some kind =>
    obtain ⟨events, htrace, hplain⟩ := Builder.exists_trace_eq host (buildLogger logger entry kind) entry.source kind
    rw [build_of_valid hk, Traced.records, Traced.logs_of_trace htrace] at h
    obtain ⟨e, he, rfl⟩ := List.mem_map.1 h
    obtain ⟨level, message, fields, rfl, hfields⟩ := hplain e he
    rw [LogRecord.component?, Logger.get?_record, hfields, context?_buildLogger]
    rfl

end SourceEntry

/-! ## Loading -/

section Loading

variable {host : Host} {logger : Logger} {entries before after : List SourceEntry} {entry : SourceEntry} {t : Thrown}
  {stores : List Store}

theorem buildEntries_of_fails (hbefore : ∀ e ∈ before, ∃ s, (e.build host logger).result = .ok s)
    (hentry : (entry.build host logger).result = .error t) :
    buildEntries host logger (before ++ entry :: after) =
      ⟨.error t, (before ++ [entry]).flatMap fun e => (e.build host logger).trace⟩ := by
  induction before with
  | nil => simp [buildEntries, hentry]
  | cons e before ih =>
    obtain ⟨⟨s, hs⟩, hbefore⟩ := List.forall_mem_cons.1 hbefore
    rw [List.cons_append, buildEntries]
    simp [hs, ih hbefore, Except.map]

theorem buildEntries_of_builds
    (h : List.Forall₂ (fun entry store => (SourceEntry.build entry host logger).result = .ok store) entries stores) :
    buildEntries host logger entries = ⟨.ok stores, entries.flatMap fun e => (e.build host logger).trace⟩ := by
  induction h with
  | nil => rfl
  | cons hfirst _ ih => simp [buildEntries, hfirst, ih, Except.map]

/-- loading ends with the first entry that fails -/
theorem loadStore_of_fails (hbefore : ∀ e ∈ before, ∃ s, (e.build host logger).result = .ok s)
    (hentry : (entry.build host logger).result = .error t) :
    loadStore host logger (before ++ entry :: after) =
      ⟨.error t, (before ++ [entry]).flatMap fun e => (e.build host logger).trace⟩ := by
  simp only [loadStore, buildEntries_of_fails hbefore hentry]

/-- the aggregator that is given the stores -/
def aggregatorOf (logger : Logger) (stores : List Store) : Aggregator := ⟨(Aggregator.start logger).logger, stores⟩

/-- when every entry builds, the aggregation comes last -/
theorem loadStore_of_builds
    (h : List.Forall₂ (fun entry store => (SourceEntry.build entry host logger).result = .ok store) entries stores) :
    loadStore host logger entries =
      ⟨(aggregatorOf logger stores).build.result,
        (entries.flatMap fun e => (e.build host logger).trace) ++ (aggregatorOf logger stores).build.trace⟩ := by
  have ha : stores.foldl Aggregator.add (Aggregator.start logger) = aggregatorOf logger stores := Aggregator.foldl_add _ _
  simp only [loadStore, buildEntries_of_builds h, ha]

theorem exists_stores (h : ∀ e ∈ entries, ∃ s, (e.build host logger).result = .ok s) :
    ∃ stores, List.Forall₂ (fun entry store => (SourceEntry.build entry host logger).result = .ok store) entries stores := by
  induction entries with
  | nil => exact ⟨[], .nil⟩
  | cons e entries ih =>
    obtain ⟨⟨s, hs⟩, h⟩ := List.forall_mem_cons.1 h
    obtain ⟨stores, hstores⟩ := ih h
    exact ⟨s :: stores, .cons hs hstores⟩

theorem made_of_builds
    (h : List.Forall₂ (fun entry store => (SourceEntry.build entry host logger).result = .ok store) entries stores) :
    ∀ s ∈ stores, s.Made := by
  induction h with
  | nil => exact fun s hs => nomatch hs
  | cons hfirst _ ih => exact List.forall_mem_cons.2 ⟨.builder hfirst, ih⟩

end Loading

/-! ## Traces of several builds -/

section Traces

variable {host : Host} {logger : Logger} {entries : List SourceEntry} {result : Except Thrown Store} {last : List TraceStep}

theorem records_of_builds :
    (⟨result, (entries.flatMap fun e => (e.build host logger).trace) ++ last⟩ : Traced Store).records =
      (entries.flatMap fun e => (e.build host logger).records) ++ (⟨result, last⟩ : Traced Store).records := by
  simp [Traced.records, Traced.logs, List.filterMap_append, List.filterMap_flatMap, List.map_flatMap]

theorem loads_of_builds :
    (⟨result, (entries.flatMap fun e => (e.build host logger).trace) ++ last⟩ : Traced Store).loads =
      (entries.flatMap fun e => (e.build host logger).loads) ++ (⟨result, last⟩ : Traced Store).loads := by
  simp [Traced.loads, List.filterMap_append, List.filterMap_flatMap]

/-- entries that build have a valid kind, and load their sources -/
theorem loads_of_not_fails (h : ∀ e ∈ entries, ∀ t, ¬ e.Fails host t) :
    (entries.flatMap fun e => (e.build host logger).loads) = entries.map (·.source) := by
  induction entries with
  | nil => rfl
  | cons e entries ih =>
    obtain ⟨he, h⟩ := List.forall_mem_cons.1 h
    have hkind : (SourceKind.ofJson? e.kind).isSome = true := by
      cases hk : SourceKind.ofJson? e.kind with
      | none => exact absurd (.kind hk) (he _)
      | some kind => rfl
    rw [List.flatMap_cons, SourceEntry.loads_build, if_pos hkind, ih h]
    rfl

end Traces

/-! ## The aggregation -/

namespace Aggregator

variable {logger : Logger} {stores : List Store}

theorem result_build (a : Aggregator) : a.build.result = (Store.aggregate a.stores).mapError .parents := by
  unfold build
  cases Store.aggregate a.stores <;> rfl

/-- stores that were made are aggregated unless their parents have a cycle -/
theorem circular_of_build {a : Aggregator} (made : ∀ s ∈ a.stores, s.Made) {t : Thrown} (h : a.build.result = .error t) :
    ∃ chain, t = .parents (.circular chain) := by
  rw [result_build] at h
  cases hf : Store.aggregate a.stores with
  | ok s =>
    rw [hf] at h
    cases h
  | error fault =>
    rw [hf] at h
    obtain ⟨chain, rfl⟩ := Store.circular_of_aggregate made hf
    exact ⟨chain, (Except.error.inj h).symm⟩

theorem context?_logger :
    (aggregatorOf logger stores).logger.context? "component" = some (.json (.str "profile-store-aggregator")) := by
  unfold aggregatorOf start
  rw [Logger.context?_child, LogFields.get?_ofTexts (by simp)]
  rfl

/-- what the record of an aggregation says: of a success the numbers of stores and profiles, of a failure the fault -/
structure Reports (count : Nat) (result : Except Thrown Store) (r : LogRecord) : Prop where
  component : r.component? = some (.json (.str "profile-store-aggregator"))
  success : ∀ s, result = .ok s → r.level = .debug ∧ r.payload.get? "stores" = some (.json (.ofNat count)) ∧
    r.payload.get? "profiles" = some (.json (.ofNat s.size))
  failure : ∀ t, result = .error t → r.level = .error ∧ r.payload.get? "err" = some (.thrown t)

theorem reports_success (s : Store) : Reports stores.length (.ok s) ((aggregatorOf logger stores).success s).record where
  component := by
    rw [Aggregator.success, LogRecord.component?, Logger.get?_record, context?_logger, LogFields.get?_ofCounts (by simp)]
    rfl
  success u hu := by
    cases hu
    rw [Aggregator.success, Logger.get?_record, Logger.get?_record, LogFields.get?_ofCounts (by simp),
      LogFields.get?_ofCounts (by simp)]
    exact ⟨rfl, rfl, rfl⟩
  failure t ht := nomatch ht

theorem reports_failure (t : Thrown) : Reports stores.length (.error t) ((aggregatorOf logger stores).failure t).record where
  component := by
    rw [Aggregator.failure, LogRecord.component?, Logger.get?_record, context?_logger]
    rfl
  success s hs := nomatch hs
  failure u hu := by
    cases hu
    rw [Aggregator.failure, Logger.get?_record]
    exact ⟨rfl, rfl⟩

/-- an aggregation makes one call, and reports its outcome -/
theorem exists_report (logger : Logger) (stores : List Store) :
    ∃ call, (aggregatorOf logger stores).build.trace = [.log call] ∧
      Reports stores.length (aggregatorOf logger stores).build.result call.record := by
  unfold build
  cases Store.aggregate (aggregatorOf logger stores).stores with
  | error fault => exact ⟨_, rfl, reports_failure (.parents fault)⟩
  | ok store => exact ⟨_, rfl, reports_success store⟩

end Aggregator

/-- **Loading fails fast.** A recording sink keeps every call and does not touch the result. At the first entry that fails, loading
ends with the error of that entry, whatever the entries behind it hold: none of these is loaded, and the records are those of the
builds so far, none of them from the aggregation. When no entry fails, all sources are loaded, and behind the records of the
builds stands one of the aggregation. It counts the entries and the profiles of the store, or it reports the fault, which is always
a cycle. -/
theorem load_fails_fast (host : Host) (logger : Logger) (entries : List SourceEntry) {run : Traced Store}
    (hrun : loadStore host logger entries = run) :
    run.through .records = (run.result, run.records.map .record) ∧
    (∀ before entry after t, entries = before ++ entry :: after → (∀ e ∈ before, ∀ u, ¬ e.Fails host u) →
      entry.Fails host t →
      run.result = .error t ∧
      run.loads = before.map (·.source) ++ (if (SourceKind.ofJson? entry.kind).isSome then [entry.source] else []) ∧
      run.records = (before ++ [entry]).flatMap (fun e => (e.build host logger).records) ∧
      ∀ r ∈ run.records, r.component? = some (.json (.str "profile-store-builder"))) ∧
    ((∀ e ∈ entries, ∀ t, ¬ e.Fails host t) →
      run.loads = entries.map (·.source) ∧
      ∃ stores last,
        List.Forall₂ (fun entry store => (SourceEntry.build entry host logger).result = .ok store) entries stores ∧
        run.result = (Store.aggregate stores).mapError .parents ∧
        run.records = (entries.flatMap fun e => (e.build host logger).records) ++ [last] ∧
        (∀ e ∈ entries, ∀ r ∈ (e.build host logger).records,
          r.component? = some (.json (.str "profile-store-builder"))) ∧
        Aggregator.Reports entries.length run.result last ∧
        ∀ t, run.result = .error t → ∃ chain, t = .parents (.circular chain)) := by
  have hcomponent : ∀ l : List SourceEntry, ∀ r ∈ l.flatMap fun e => (e.build host logger).records,
      r.component? = some (.json (.str "profile-store-builder")) := by
    intro l r hr
    obtain ⟨e, -, hr⟩ := List.mem_flatMap.1 hr
    exact SourceEntry.component_of_mem_build hr
  refine ⟨run.through_records, ?_, ?_⟩
  · rintro before entry after t rfl hbefore hentry
    have hbuilds : ∀ e ∈ before, ∃ s, (e.build host logger).result = .ok s :=
      fun e he => SourceEntry.exists_build_iff.2 (hbefore e he)
    rw [loadStore_of_fails hbuilds (SourceEntry.build_error_iff.2 hentry), ← List.append_nil (List.flatMap _ _)] at hrun
    have hrecords : run.records = (before ++ [entry]).flatMap fun e => (e.build host logger).records := by
      rw [← hrun, records_of_builds]
      exact List.append_nil _
    have hloads : run.loads = (before ++ [entry]).flatMap fun e => (e.build host logger).loads := by
      rw [← hrun, loads_of_builds]
      exact List.append_nil _
    refine ⟨by rw [← hrun], ?_, hrecords, ?_⟩
    · rw [hloads, List.flatMap_append, loads_of_not_fails hbefore, List.flatMap_singleton, SourceEntry.loads_build]
    · rw [hrecords]
      exact hcomponent (before ++ [entry])
  · intro hentries
    have hbuilds : ∀ e ∈ entries, ∃ s, (e.build host logger).result = .ok s :=
      fun e he => SourceEntry.exists_build_iff.2 (hentries e he)
    obtain ⟨stores, hstores⟩ := exists_stores hbuilds
    obtain ⟨call, htrace, hreports⟩ := Aggregator.exists_report logger stores
    rw [loadStore_of_builds hstores, htrace] at hrun
    have hresult : run.result = (aggregatorOf logger stores).build.result := by rw [← hrun]
    refine ⟨?_, stores, call.record, hstores, ?_, ?_, fun e _ r hr => SourceEntry.component_of_mem_build hr, ?_, ?_⟩
    · rw [← hrun, loads_of_builds, loads_of_not_fails hentries]
      exact List.append_nil _
    · rw [hresult, Aggregator.result_build]
      rfl
    · rw [← hrun, records_of_builds]
      rfl
    · rw [hstores.length_eq, hresult]
      exact hreports
    · intro t ht
      exact Aggregator.circular_of_build (made_of_builds hstores) (hresult ▸ ht)

/-- a profile whose parent is elsewhere -/
def stray : Sections := .ofList [("dev", .ofList [(parentProperty, "site")])]

def homesite : Sections := .ofList [("site", .ofList [("region", "eu-west-1")])]

/-- a section that fits the dialect of a configuration, and one that is ignored -/
def teamwide : Sections := .ofList [("profile ops", .empty), ("ops", .empty)]

def strayEntry : SourceEntry := ⟨.inline "stray" (.table stray), .str "credentials"⟩

def siteEntry : SourceEntry := ⟨.inline "site" (.table homesite), .str "credentials"⟩

def teamwideEntry : SourceEntry := ⟨.inline "teamwide" (.table teamwide), .str "configuration"⟩

theorem strayEntry_fails : strayEntry.Fails bareHost (.parents (.missing "site")) := by
  have hwalk : (stray.normalize .credentials).sections.WalkFault "dev" (.missing "site") :=
    @Sections.WalkFault.missing _ _ ["dev"] "site" (by decide) (by decide) (by decide)
  have hfirst : (stray.normalize .credentials).sections.FirstUnsound "dev" := ⟨[], [], by decide, by decide, by decide⟩
  have hresolve : Store.resolve (stray.normalize .credentials).sections = .error (.missing "site") := by
    rw [Store.resolve_error_iff, Sections.parentsFirst_error_iff]
    exact ⟨"dev", hfirst, hwalk⟩
  exact .sections rfl rfl hresolve

/-- the parent that a later entry has does not help; without the stray profile both sources are loaded and aggregated -/
theorem load_of_stray_before_site :
    (loadStore bareHost (.root .empty) [teamwideEntry, strayEntry, siteEntry]).result = .error (.parents (.missing "site")) ∧
    (loadStore bareHost (.root .empty) [teamwideEntry, strayEntry, siteEntry]).loads = [teamwideEntry.source, strayEntry.source] ∧
    ∃ s last, (loadStore bareHost (.root .empty) [teamwideEntry, siteEntry]).result = .ok s ∧
      (loadStore bareHost (.root .empty) [teamwideEntry, siteEntry]).records =
        (teamwideEntry.build bareHost (.root .empty)).records ++ (siteEntry.build bareHost (.root .empty)).records ++ [last] ∧
      last.level = .debug ∧ last.payload.get? "stores" = some (.json (.ofNat 2)) ∧
      last.payload.get? "profiles" = some (.json (.ofNat s.size)) := by
  have hteamwide : ∃ s, Store.resolve (teamwide.normalize .configuration).sections = .ok s :=
    (Store.resolve_ok_iff _).2 (by decide)
  have hsite : ∃ s, Store.resolve (homesite.normalize .credentials).sections = .ok s := (Store.resolve_ok_iff _).2 (by decide)
  have hnone : ∀ e ∈ [teamwideEntry, siteEntry], ∀ t, ¬ e.Fails bareHost t := by
    intro e he
    rcases List.mem_pair.1 he with rfl | rfl
    · exact SourceEntry.not_fails_of_resolve rfl hteamwide
    · exact SourceEntry.not_fails_of_resolve rfl hsite
  obtain ⟨-, hfails, -⟩ := load_fails_fast bareHost (.root .empty) [teamwideEntry, strayEntry, siteEntry] rfl
  obtain ⟨hresult, hloads, -⟩ := hfails [teamwideEntry] strayEntry [siteEntry] _ rfl
    (fun e he => hnone e (List.mem_cons.2 (.inl (List.mem_singleton.1 he)))) strayEntry_fails
  obtain ⟨-, -, hbuilds⟩ := load_fails_fast bareHost (.root .empty) [teamwideEntry, siteEntry] rfl
  obtain ⟨-, stores, last, -, -, hrecords, -, hreports, -⟩ := hbuilds hnone
  have hloaded : [teamwideEntry, siteEntry].map (·.loaded? bareHost) =
      [(.configuration, teamwide), (.credentials, homesite)].map some := rfl
  obtain ⟨s, hs⟩ := exists_loadStore hloaded
    (fun e he => by
      rcases List.mem_pair.1 he with rfl | rfl
      · exact hteamwide
      · exact hsite)
    ((Store.resolve_ok_iff _).2 (by decide))
  refine ⟨hresult, hloads, s, last, hs, ?_, hreports.success s hs⟩
  rw [hrecords]
  simp

end LayeredProfiles
