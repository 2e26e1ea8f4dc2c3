/-
Sessions on one aggregator: stores are added to it, and built, in any order.

A session holds the stores that were there at its beginning and those that its builds gave; a call adds one of them by its place, so
what a build gave can be added again. A place that holds nothing yet cannot be added. Nothing that a session holds is ever changed
(`Session.Mono`), and the stores of its aggregator are those at the places that were added (`Session.Tally`), whatever was built in
between.

Main statement: `build_of_added`.
-/
import LayeredProfiles.Proofs.LoadTrace

namespace LayeredProfiles

/-- an aggregate has the names of all stores, each once -/
theorem Store.size_of_aggregate {stores : List Store} {s : Store} (h : aggregate stores = .ok s) :
    s.size = (stores.flatMap names).toFinset.card := by
  have hnames : s.names.toFinset = (stores.flatMap names).toFinset := by
    ext n
    rw [List.mem_toFinset, List.mem_toFinset, mem_names_iff, (resolved_of_resolve h).has_iff, Sections.contains_merge,
      List.mem_flatMap]
    simp [contains_toSections, mem_names_iff]
  rw [← hnames, names, List.toFinset_card_of_nodup s.profiles.nodup_keys, size, OrderedMap.size_eq_length_keys]

namespace Aggregator

variable {logger : Logger} {given : List Store}

/-! ## Sessions -/

/-- a call on an aggregator; a store is named by the place where the session holds it -/
inductive Call where
  | add (place : Nat)
  | build

/-- the place that a call names -/
def Call.place? : Call → Option Nat
  | .add place => some place
  | .build => none

def places (calls : List Call) : List Nat := calls.filterMap Call.place?

def buildCount (calls : List Call) : Nat := calls.countP fun call => call.place?.isNone

/-- an aggregator in use: the stores at hand, and what its builds gave and recorded, in order -/
structure Session where
  aggregator : Aggregator
  held : List Store
  results : List (Except Thrown Store)
  records : List LogRecord

namespace Session

/-- an aggregator that was not used yet, with stores to add -/
def holding (logger : Logger) (given : List Store) : Session := ⟨.start logger, given, [], []⟩

/-- one call; a store that is built is held from then on -/
def step (s : Session) : Call → Option Session
  | .add place => s.held[place]?.map fun store => { s with aggregator := s.aggregator.add store }
  | .build =>
    let outcome := s.aggregator.build
    some ⟨s.aggregator, s.held ++ outcome.result.toOption.toList, s.results ++ [outcome.result], s.records ++ outcome.records⟩

def run (s : Session) (calls : List Call) : Option Session := calls.foldlM step s

theorem run_cons (s : Session) (call : Call) (calls : List Call) :
    s.run (call :: calls) = (s.step call).bind fun t => t.run calls := List.foldlM_cons

theorem run_concat (s : Session) (calls : List Call) (call : Call) :
    s.run (calls ++ [call]) = (s.run calls).bind fun t => t.step call := by
  rw [run, List.foldlM_append]
  congr 1
  funext t
  rw [List.foldlM_cons]
  cases t.step call <;> rfl

/-- what a session holds or kept, a later one holds and keeps -/
structure Mono (s t : Session) : Prop where
  held : s.held <+: t.held
  results : s.results <+: t.results
  records : s.records <+: t.records

theorem Mono.refl (s : Session) : s.Mono s := ⟨List.prefix_rfl, List.prefix_rfl, List.prefix_rfl⟩

theorem Mono.trans {s t u : Session} (h : s.Mono t) (h' : t.Mono u) : s.Mono u :=
  ⟨h.held.trans h'.held, h.results.trans h'.results, h.records.trans h'.records⟩

theorem step_mono {s t : Session} {call : Call} (h : s.step call = some t) : s.Mono t := by
  cases call with
  | add place =>
    obtain ⟨store, -, rfl⟩ := Option.map_eq_some_iff.1 h
    exact ⟨List.prefix_rfl, List.prefix_rfl, List.prefix_rfl⟩
  | build =>
    cases h
    exact ⟨List.prefix_append _ _, List.prefix_append _ _, List.prefix_append _ _⟩

theorem run_mono {calls : List Call} {s t : Session} (h : s.run calls = some t) : s.Mono t := by
  induction calls generalizing s with
  | nil =>
    obtain rfl : s = t := Option.some.inj h
    exact .refl s
  | cons call calls ih =>
    rw [run_cons] at h
    obtain ⟨u, hstep, hrun⟩ := Option.bind_eq_some_iff.1 h
    exact (step_mono hstep).trans (ih hrun)

/-- calls can be made in a row when the places that they name were held from the start -/
theorem exists_run {calls : List Call} {s : Session} (h : ∀ place ∈ places calls, place < s.held.length) :
    ∃ t, s.run calls = some t := by
  induction calls generalizing s with
  | nil => exact ⟨s, rfl⟩
  | cons call calls ih =>
    obtain ⟨t, hstep⟩ : ∃ t, s.step call = some t := by
      cases call with
      | add place =>
        have hplace : place < s.held.length := h place List.mem_cons_self
        exact ⟨_, by rw [step, List.getElem?_eq_getElem hplace, Option.map_some]⟩
      | build => exact ⟨_, rfl⟩
    have hlater : ∀ place ∈ places calls, place < t.held.length := by
      intro place hplace
      have hmem : place ∈ places (call :: calls) := by
        rw [places, ← List.singleton_append, List.filterMap_append]
        exact List.mem_append_right _ hplace
      exact (h place hmem).trans_le (step_mono hstep).held.length_le
    obtain ⟨u, hrun⟩ := ih hlater
    exact ⟨u, by rw [run_cons, hstep, Option.bind_some, hrun]⟩

/-! ## What a session adds up to -/

def storesAt (s : Session) (places : List Nat) : List Store := places.filterMap fun place => s.held[place]?

/-- what calls add up to: the aggregator has the stores that were added, as they are held now, and every build left a result and a
record -/
structure Tally (logger : Logger) (calls : List Call) (s : Session) : Prop where
  logger : s.aggregator.logger = (start logger).logger
  stores : (places calls).map (fun place => s.held[place]?) = s.aggregator.stores.map some
  results : s.results.length = buildCount calls
  records : s.records.length = buildCount calls

theorem length_records_build (a : Aggregator) : a.build.records.length = 1 := by
  unfold build
  cases Store.aggregate a.stores <;> rfl

theorem getElem?_of_map_eq_some {held later : List Store} {places : List Nat} {stores : List Store} (hkept : held <+: later)
    (h : places.map (fun place => held[place]?) = stores.map some) :
    places.map (fun place => later[place]?) = stores.map some := by
  rw [← h]
  refine List.map_congr_left fun place hplace => ?_
  have hmem : held[place]? ∈ stores.map some := h ▸ List.mem_map_of_mem hplace
  obtain ⟨store, -, hstore⟩ := List.mem_map.1 hmem
  obtain ⟨hlt, -⟩ := List.getElem?_eq_some_iff.1 hstore.symm
  obtain ⟨rest, rfl⟩ := hkept
  exact List.getElem?_append_left hlt

theorem step_tally {calls : List Call} {s t : Session} {call : Call} (hs : s.Tally logger calls) (h : s.step call = some t) :
    t.Tally logger (calls ++ [call]) := by
  cases call with
  | add place =>
    obtain ⟨store, hstore, rfl⟩ := Option.map_eq_some_iff.1 h
    have hplaces : places (calls ++ [.add place]) = places calls ++ [place] := List.filterMap_append
    have hcount : buildCount (calls ++ [.add place]) = buildCount calls := List.countP_append
    refine ⟨hs.logger, ?_, hs.results.trans hcount.symm, hs.records.trans hcount.symm⟩
    rw [hplaces, List.map_append, hs.stores, add, List.map_append, List.map_singleton, List.map_singleton, hstore]
  | build =>
    have hplaces : places (calls ++ [.build]) = places calls := by
      rw [places, List.filterMap_append]
      exact List.append_nil _
    have hcount : buildCount (calls ++ [.build]) = buildCount calls + 1 := List.countP_append
    have hheld := (step_mono h).held
    cases h
    refine ⟨hs.logger, ?_, ?_, ?_⟩
    · rw [hplaces]
      exact getElem?_of_map_eq_some hheld hs.stores
    · rw [hcount, List.length_append, hs.results, List.length_singleton]
    · rw [hcount, List.length_append, hs.records, length_records_build]

theorem run_tally {calls : List Call} {s : Session} (h : (holding logger given).run calls = some s) : s.Tally logger calls := by
  induction calls using List.reverseRecOn generalizing s with
  | nil =>
    cases h
    exact ⟨rfl, rfl, rfl, rfl⟩
  | append_singleton calls call ih =>
    rw [run_concat] at h
    obtain ⟨t, hrun, hstep⟩ := Option.bind_eq_some_iff.1 h
    exact step_tally (ih hrun) hstep

theorem Tally.storesAt_eq {calls : List Call} {s : Session} (h : s.Tally logger calls) :
    s.storesAt (places calls) = s.aggregator.stores := by
  have hid : s.storesAt (places calls) = ((places calls).map fun place => s.held[place]?).filterMap id := by
    rw [List.filterMap_map]
    rfl
  rw [hid, h.stores, List.filterMap_map]
  exact List.filterMap_some

theorem Tally.length_storesAt {calls : List Call} {s : Session} (h : s.Tally logger calls) :
    (s.storesAt (places calls)).length = (places calls).length := by
  have hlength := congrArg List.length h.stores
  rw [List.length_map, List.length_map] at hlength
  rw [h.storesAt_eq, hlength]

/-- the aggregator of a session is a fresh one to which the stores were added -/
theorem Tally.aggregator_eq {calls : List Call} {s : Session} (h : s.Tally logger calls) :
    (s.storesAt (places calls)).foldl add (start logger) = s.aggregator := by
  rw [foldl_add, h.storesAt_eq, ← h.logger]
  rfl

end Session

/-! ## Main result -/

/-- **A build resolves what was added.** After any calls on an aggregator, builds among them that failed or gave a store, the next
build gives what aggregating the stores added so far gives, in the order in which they were added and each as often as it was added:
the same as a fresh aggregator to which just these were added. It makes one record. Of a success this counts the stores that were
added and the names among them; of a failure it holds the fault. No call changes a store that the session holds, or what earlier
builds gave and recorded. -/
theorem build_of_added {before after : List Call} {s t : Session} (hbefore : (Session.holding logger given).run before = some s)
    (hafter : s.run (.build :: after) = some t) :
    let added := s.storesAt (places before)
    let outcome := (added.foldl add (start logger)).build
    let built : Session := ⟨s.aggregator, s.held ++ outcome.result.toOption.toList, s.results ++ [outcome.result],
      s.records ++ outcome.records⟩
    s.run [.build] = some built ∧ built.Mono t ∧ (Session.holding logger given).Mono s ∧
      added.length = (places before).length ∧ s.results.length = buildCount before ∧ s.records.length = buildCount before ∧
      outcome.result = (Store.aggregate added).mapError .parents ∧
      outcome.through .records = (outcome.result, outcome.records.map .record) ∧
      (∃ record, outcome.records = [record] ∧ Reports (places before).length outcome.result record) ∧
      ∀ store, outcome.result = .ok store → store.size = (added.flatMap Store.names).toFinset.card := by
  intro added outcome built
  have htally := Session.run_tally hbefore
  have hbuilt : s.step .build = some built := by
    simp only [Session.step, built, outcome, added, htally.aggregator_eq]
  have hfresh : outcome = (aggregatorOf logger added).build := by
    simp only [outcome, foldl_add]
    rfl
  have hresult : outcome.result = (Store.aggregate added).mapError .parents := by
    rw [hfresh, result_build]
    rfl
  refine ⟨by rw [Session.run_cons, hbuilt]; rfl, ?_, Session.run_mono hbefore, htally.length_storesAt, htally.results,
    htally.records, hresult, outcome.through_records, ?_, ?_⟩
  · rw [Session.run_cons, hbuilt, Option.bind_some] at hafter
    exact Session.run_mono hafter
  · obtain ⟨call, htrace, hreports⟩ := exists_report logger added
    refine ⟨call.record, ?_, ?_⟩
    · rw [hfresh, Traced.records, Traced.logs, htrace]
      rfl
    · rw [hfresh, ← htally.length_storesAt]
      exact hreports
  · intro store hstore
    exact Store.size_of_aggregate (build_ok_iff.1 (hfresh ▸ hstore))

/-- the two stores that were given, the first of them twice, with a build before and in between -/
def alternating : List Call := [.build, .add 0, .build, .add 1, .add 0]

/-- two stores that resolve apart and not together: the third build fails, and the stores and records from before are still there -/
theorem alternating_build_fails :
    ∃ s t chain record,
      (Session.holding (.root .empty) [.ofSorted outward, .ofSorted homeward]).run alternating = some s ∧
      s.run [.build, .add 1, .build] = some t ∧ s.records.length = 2 ∧
      s.results ++ [.error (.parents (.circular chain))] <+: t.results ∧ s.records ++ [record] <+: t.records ∧
      record.level = .error ∧ record.payload.get? "err" = some (.thrown (.parents (.circular chain))) ∧
      [.ofSorted outward, .ofSorted homeward] <+: t.held := by
  have hmade : ∀ u ∈ [Store.ofSorted outward, .ofSorted homeward, .ofSorted outward], u.Made := by
    have houtward : (Store.ofSorted outward).Made := Sections.TopDown.made (by decide)
    have hhomeward : (Store.ofSorted homeward).Made := Sections.TopDown.made (by decide)
    simp [houtward, hhomeward]
  have hfault : ∃ chain, Store.aggregate [.ofSorted outward, .ofSorted homeward, .ofSorted outward] =
      .error (.circular chain) := by
    obtain ⟨fault, hf⟩ := (Store.resolve_error_iff_cyclic (Store.merge_toSections_closed hmade)).2 <| by
      rw [funext (Store.parentOf?_merge _)]
      exact ⟨"a", ["b"], by decide⟩
    obtain ⟨chain, rfl⟩ := Store.circular_of_aggregate hmade hf
    exact ⟨chain, hf⟩
  obtain ⟨chain, hchain⟩ := hfault
  obtain ⟨s, hs⟩ := @Session.exists_run alternating
    (Session.holding (.root .empty) [.ofSorted outward, .ofSorted homeward]) (by decide)
  have hgiven : [Store.ofSorted outward, .ofSorted homeward] <+: s.held := (Session.run_mono hs).held
  obtain ⟨rest, hheld⟩ := hgiven
  obtain ⟨t, ht⟩ := @Session.exists_run [.build, .add 1, .build] s (by simp [places, Call.place?, ← hheld])
  have hadded : s.storesAt (places alternating) = [.ofSorted outward, .ofSorted homeward, .ofSorted outward] := by
    have hplaces : places alternating = [0, 1, 0] := rfl
    rw [hplaces, Session.storesAt, ← hheld]
    rfl
  obtain ⟨-, hmono, -, -, -, hrecords, hresult, -, ⟨record, hrecord, hreports⟩, -⟩ := build_of_added hs ht
  have hfails := hresult.trans <| show _ = .error (.parents (.circular chain)) by
    rw [hadded, hchain]
    rfl
  obtain ⟨hlevel, herr⟩ := hreports.failure _ hfails
  refine ⟨s, t, chain, record, hs, ht, hrecords, ?_, ?_, hlevel, herr, ?_⟩
  · rw [← hfails]
    exact hmono.results
  · rw [← hrecord]
    exact hmono.records
  · rw [← hheld] at hmono
    exact (List.prefix_append _ rest).trans ((List.prefix_append _ _).trans hmono.held)

end Aggregator

end LayeredProfiles
