/-
When builders, aggregators and loading give a store, and which: the results of these operations, without their traces.

Results:
- `Builder.build_ok_iff`: a builder gives the store of the normalized sections of its source.
- `Aggregator.build_ok_iff`: an aggregator gives the aggregate of the stores that were added.
- `loadStore_ok_iff`: loading gives the aggregate of the stores of all entries, each built on its own.
-/
import Mathlib.Tactic
import LayeredProfiles.Aggregator

namespace LayeredProfiles

variable {host : Host} {logger : Logger} {s : Store}

theorem Builder.buildFrom_ok_iff {source : Source} {kind : SourceKind} :
    (buildFrom host logger source kind).result = .ok s ↔
      ∃ raw, source.load host = .ok raw ∧ Store.resolve (raw.normalize kind).sections = .ok s := by
  unfold buildFrom
  cases hl : source.load host with
  | error t => simp
  | ok raw =>
    simp only [Except.ok.injEq, exists_eq_left']
    cases hr : Store.resolve (raw.normalize kind).sections with
    | error f => simp
    | ok store => simp

theorem Builder.build_ok_iff {b : Builder} :
    (b.build host).result = .ok s ↔
      ∃ source kind raw, b.source? = some source ∧ b.kind?.bind SourceKind.ofJson? = some kind ∧
        source.load host = .ok raw ∧ Store.resolve (raw.normalize kind).sections = .ok s := by
  unfold build
  cases hs : b.source? with
  | none => simp
  | some source =>
    cases hk : b.kind?.bind SourceKind.ofJson? with
    | none => simp
    | some kind => simp [buildFrom_ok_iff]

theorem Aggregator.build_ok_iff {a : Aggregator} : a.build.result = .ok s ↔ Store.aggregate a.stores = .ok s := by
  unfold build
  cases h : Store.aggregate a.stores <;> simp

/-! ## Loading -/

/-- the dialect of an entry, and the sections that its source loads -/
def SourceEntry.loaded? (host : Host) (entry : SourceEntry) : Option (SourceKind × Sections) :=
  (SourceKind.ofJson? entry.kind).bind fun kind => (entry.source.load host).toOption.map fun raw => (kind, raw)

theorem SourceEntry.build_ok_iff {entry : SourceEntry} :
    (entry.build host logger).result = .ok s ↔
      ∃ kind raw, entry.loaded? host = some (kind, raw) ∧ Store.resolve (raw.normalize kind).sections = .ok s := by
  unfold build loaded?
  rw [Builder.build_ok_iff]
  cases hk : SourceKind.ofJson? entry.kind with
  | none => simp [Builder.kind, Builder.content, hk]
  | some kind => cases hl : entry.source.load host <;> simp [Builder.kind, Builder.content, hk, hl, Except.toOption]

theorem buildEntries_ok_iff {entries : List SourceEntry} {stores : List Store} :
    (buildEntries host logger entries).result = .ok stores ↔
      List.Forall₂ (fun entry store => (entry.build host logger).result = .ok store) entries stores := by
  induction entries generalizing stores with
  | nil => simp [buildEntries, eq_comm]
  | cons entry rest ih =>
    cases stores with
    | nil =>
      cases hb : (entry.build host logger).result <;> cases hr : (buildEntries host logger rest).result <;>
        simp [buildEntries, Except.map, hb, hr]
    | cons store stores =>
      rw [List.forall₂_cons, ← ih]
      cases hb : (entry.build host logger).result <;> cases hr : (buildEntries host logger rest).result <;>
        simp [buildEntries, Except.map, hb, hr]

theorem Aggregator.foldl_add (stores : List Store) (a : Aggregator) :
    stores.foldl add a = ⟨a.logger, a.stores ++ stores⟩ := by
  induction stores generalizing a with
  | nil => simp
  | cons store stores ih => simp [ih, add]

theorem loadStore_ok_iff {entries : List SourceEntry} :
    (loadStore host logger entries).result = .ok s ↔
      ∃ stores, List.Forall₂ (fun entry store => (entry.build host logger).result = .ok store) entries stores ∧
        Store.aggregate stores = .ok s := by
  unfold loadStore
  simp only [← buildEntries_ok_iff]
  cases hb : (buildEntries host logger entries).result with
  | error t => simp
  | ok stores =>
    have hs : (stores.foldl Aggregator.add (Aggregator.start logger)).stores = stores := by
      rw [Aggregator.foldl_add]
      rfl
    simp [Aggregator.build_ok_iff, hs]

end LayeredProfiles
