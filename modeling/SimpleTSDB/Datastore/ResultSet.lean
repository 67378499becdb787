import SimpleTSDB.Datastore.Engine
import SimpleTSDB.Datastore.Process
import SimpleTSDB.Query.Compile

/-!
# Result sets

`PrepareQuery` looks the metric of a query up in the cache and has the statement prepared on its
connection; the result set that it returns is executed for a time window. `execute_ne_nil_iff` says
when it has results.
-/

namespace SimpleTSDB.Datastore

open Sqlite

variable {F : Type*}

/-- `class ResultSet`. The statement is one of a connection. -/
structure ResultSet (F : Type*) where
  query : Option (F × Statement)
  metric : Str
  downsampler : Str

/-- `ResultSet::Execute`: the returned value, and the results with the rows behind them. The calls
of `sqlite3_step` are given by `steps`. -/
def ResultSet.execute (rs : ResultSet F)
    (steps : F × Statement → (ℕ → BitVec 64) → List StepResult) (startTime endTime : BitVec 64)
    (results : List Dps) : Bool × List Dps :=
  match rs.query with
  | none => (false, results)
  | some stmt => (true, results ++ fetch (steps stmt (bound startTime endTime)))

/-- `Datastore::PrepareQuery`. -/
def prepareQuery (e : Engine) (s : State F) (query : Query) : Option (ResultSet F) :=
  match s.store.lookup query.metric with
  | none => none    -- we don't know that metric
  | some file =>
    match e.prepare (s.disk file) (cstr query.query) with
    | none => none
    | some stmt =>
      some {
        query := stmt.map (file, ·)
        metric := query.metric
        downsampler := query.downsampler }

/-- The statement of the result set has a row for the time window: for a statement that the model
runs, a row of the table is selected up to whose timestamp no aggregate fails; for another one, the
first call of `sqlite3_step` returns a row. -/
def ResultSet.Matched (e : Engine) (disk : F → DbFile) (startTime endTime : BitVec 64)
    (rs : ResultSet F) : Prop :=
  ∃ file stmt rows, rs.query = some (file, stmt) ∧ (disk file).rows = some rows ∧
    match stmt.select with
    | some s => ∃ aggregate, e.functions s.agg = some aggregate ∧
      let selected := rows.filter fun row => s.Selects (bound startTime endTime) row
      ∃ row ∈ selected, ∀ row' ∈ selected, row'.timestamp.toInt ≤ row.timestamp.toInt →
        (aggregate ((selected.filter (·.timestamp = row'.timestamp)).map Row.value)).isSome
    | none => ∃ d rest, e.returns stmt.sql rows (bound startTime endTime) = .row d :: rest

/-- No aggregate of the result set fails for the window up to a time. -/
def ResultSet.Computes (e : Engine) (disk : F → DbFile) (startTime endTime : BitVec 64)
    (rs : ResultSet F) (time : BitVec 64) : Prop :=
  ∀ file stmt s aggregate rows, rs.query = some (file, stmt) → stmt.select = some s →
    e.functions s.agg = some aggregate → (disk file).rows = some rows →
      let selected := rows.filter fun row => s.Selects (bound startTime endTime) row
      ∀ row ∈ selected, row.timestamp.toInt ≤ time.toInt →
        (aggregate ((selected.filter (·.timestamp = row.timestamp)).map Row.value)).isSome

/-! ## Specifications -/

theorem fetch_ne_nil_iff {rs : List StepResult} :
    fetch rs ≠ [] ↔ ∃ d rest, rs = .row d :: rest := by
  constructor
  · intro h
    cases rs with
    | nil => exact absurd rfl h
    | cons r rs =>
      cases r with
      | row d => exact ⟨d, rs, rfl⟩
      | done => exact absurd rfl h
      | error => exact absurd rfl h
  · rintro ⟨d, rest, rfl⟩
    exact List.cons_ne_nil _ _

/-- **What is prepared for a query**: its metric, its downsampler, and the statement on the file of
the metric. -/
theorem prepareQuery_spec {e : Engine} {s : State F} {query : Query} {rs : ResultSet F}
    (h : prepareQuery e s query = some rs) : rs.metric = query.metric ∧
      rs.downsampler = query.downsampler ∧ ∀ file stmt, rs.query = some (file, stmt) →
        s.store.lookup query.metric = some file ∧
          e.prepare (s.disk file) (cstr query.query) = some (some stmt) := by
  rw [prepareQuery] at h
  split at h
  · cases h
  next file hfile =>
    split at h
    · cases h
    next stmt hstmt =>
      obtain rfl := Option.some.inj h
      refine ⟨rfl, rfl, fun file' stmt' hquery => ?_⟩
      obtain ⟨stmt'', rfl, heq⟩ := Option.map_eq_some_iff.mp hquery
      obtain ⟨rfl, rfl⟩ := Prod.mk.inj heq
      exact ⟨hfile, hstmt⟩

/-- A result set is one for the metric of its query. -/
theorem metric_of_prepareQuery {e : Engine} {s : State F} {query : Query} {rs : ResultSet F}
    (h : prepareQuery e s query = some rs) : rs.metric = query.metric :=
  (prepareQuery_spec h).1

theorem downsampler_of_prepareQuery {e : Engine} {s : State F} {query : Query} {rs : ResultSet F}
    (h : prepareQuery e s query = some rs) : rs.downsampler = query.downsampler :=
  (prepareQuery_spec h).2.1

/-- The statement of a result set has been prepared on the file of its metric. -/
theorem prepared_of_prepareQuery {e : Engine} {s : State F} {query : Query} {rs : ResultSet F}
    (h : prepareQuery e s query = some rs) {file : F} {stmt : Statement}
    (hquery : rs.query = some (file, stmt)) : s.store.lookup rs.metric = some file ∧
      e.prepare (s.disk file) (cstr query.query) = some (some stmt) := by
  rw [metric_of_prepareQuery h]
  exact (prepareQuery_spec h).2.2 file stmt hquery

/-- What is fetched for a statement that the model runs: the groups of the selected rows. -/
theorem isGrouped_execute {e : Engine} {disk : F → DbFile} {rs : ResultSet F} {file : F}
    {stmt : Statement} (hquery : rs.query = some (file, stmt)) {s : Select}
    (hs : stmt.select = some s) {aggregate : List Double → Option Double}
    (hagg : e.functions s.agg = some aggregate) {rows : List Row}
    (hrows : (disk file).rows = some rows) (startTime endTime : BitVec 64) :
    (rs.execute (e.stepResults disk) startTime endTime []).1 = true ∧
      IsGrouped aggregate (rows.filter fun row => s.Selects (bound startTime endTime) row)
        (rs.execute (e.stepResults disk) startTime endTime []).2 := by
  simp only [ResultSet.execute, hquery, Engine.stepResults_select hs hagg hrows, List.nil_append]
  exact ⟨trivial, isGrouped_groups s aggregate _ rows⟩

/-- **A result set has results exactly if its statement has a row.** -/
theorem execute_ne_nil_iff {e : Engine} {s : State F} {query : Query} {rs : ResultSet F}
    (h : prepareQuery e s query = some rs) (startTime endTime : BitVec 64) :
    (rs.execute (e.stepResults s.disk) startTime endTime []).2 ≠ [] ↔
      rs.Matched e s.disk startTime endTime := by
  rw [ResultSet.Matched]
  cases hquery : rs.query with
  | none => simp [ResultSet.execute, hquery]
  | some p =>
    obtain ⟨file, stmt⟩ := p
    obtain ⟨htable, hselect⟩ := Engine.prepare_spec (prepared_of_prepareQuery h hquery).2
    obtain ⟨rows, hrows⟩ := Option.isSome_iff_exists.mp htable
    simp only [Option.some.injEq, Prod.mk.injEq, ↓existsAndEq, and_true, hrows, true_and]
    cases hs : stmt.select with
    | none =>
      simp only [ResultSet.execute, hquery, Engine.stepResults, hrows, hs, List.nil_append]
      exact fetch_ne_nil_iff
    | some sel =>
      obtain ⟨aggregate, hagg⟩ := Option.isSome_iff_exists.mp (hselect sel hs).2
      have hgrouped := (isGrouped_execute hquery hs hagg hrows startTime endTime).2
      simp only [hagg, Option.some.injEq, exists_eq_left']
      exact hgrouped.ne_nil_iff

/-- **A statement of the program is prepared** on the connection of the metric, if its function is
known and it is within the limits of SQLite. -/
theorem prepareQuery_eq {e : Engine} {s : State F} {query : Query} {file : F} {stmt : Select}
    (hfile : s.store.lookup query.metric = some file) (htable : (s.disk file).rows ≠ none)
    (hnul : '\x00' ∉ query.query) (hstmt : Select.ofProgram query.query = some stmt)
    (hagg : (e.functions stmt.agg).isSome) (hfits : stmt.WithinLimits query.query) :
    prepareQuery e s query =
      some ⟨some (file, ⟨query.query, some stmt⟩), query.metric, query.downsampler⟩ := by
  simp only [prepareQuery, hfile, cstr_eq_self hnul,
    Engine.prepare_eq htable hstmt hagg hfits, Option.map_some]

end SimpleTSDB.Datastore
