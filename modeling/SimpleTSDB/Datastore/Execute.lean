import SimpleTSDB.Datastore.ResultSet

/-!
# Result sets that are cut off

The calls of `sqlite3_step` return some rows and then something else. `Execute` returns the rows,
and it returns true whatever comes behind them (`execute_eq`): an error is reported like the end of
the data. `complete_iff` says for which sequences of results this is what it should return.
-/

namespace SimpleTSDB.Datastore

open Sqlite

variable {F : Type*}

/-- The rows in front of a call that does not return one are fetched. -/
theorem fetch_append {last : StepResult} (hlast : ∀ d, last ≠ .row d) (rows : List Dps) :
    fetch (rows.map .row ++ [last]) = rows := by
  induction rows with
  | nil =>
    cases last with
    | row d => exact absurd rfl (hlast d)
    | done => rfl
    | error => rfl
  | cons d rows ih => exact congrArg (d :: ·) ih

/-- `Execute` returns true exactly if the calls, which return `rows` and then `last`, end with
`SQLITE_DONE`, and then the rows stand behind the results. -/
def ReportsEnd (returned : Bool × List Dps) (results rows : List Dps) (last : StepResult) : Prop :=
  (returned.1 = true ↔ last = .done) ∧ (returned.1 = true → returned.2 = results ++ rows)

/-- **The rows are returned**, and nothing says what stopped them. -/
theorem execute_eq {rs : ResultSet F} {stmt : F × Statement} (hquery : rs.query = some stmt)
    {steps : F × Statement → (ℕ → BitVec 64) → List StepResult} {startTime endTime : BitVec 64}
    {rows : List Dps} {last : StepResult} (hlast : ∀ d, last ≠ .row d)
    (hsteps : steps stmt (bound startTime endTime) = rows.map .row ++ [last])
    (results : List Dps) :
    rs.execute steps startTime endTime results = (true, results ++ rows) := by
  simp only [ResultSet.execute, hquery, hsteps, fetch_append hlast]

/-- **A result set is reported right if and only if** its calls of `sqlite3_step` end with
`SQLITE_DONE`. -/
theorem complete_iff (rs : ResultSet F) (stmt : F × Statement) (hquery : rs.query = some stmt)
    (steps : F × Statement → (ℕ → BitVec 64) → List StepResult) (startTime endTime : BitVec 64)
    (rows : List Dps) (last : StepResult) (hlast : ∀ d, last ≠ .row d)
    (hsteps : steps stmt (bound startTime endTime) = rows.map .row ++ [last])
    (results : List Dps) :
    ReportsEnd (rs.execute steps startTime endTime results) results rows last ↔ last = .done := by
  rw [execute_eq hquery hlast hsteps]
  constructor
  · exact fun h => h.1.mp rfl
  · exact fun h => ⟨iff_of_true rfl h, fun _ => rfl⟩

/-- A result set for a statement without a condition on the tags; its text is not read. -/
def plainResultSet : ResultSet Unit where
  query := some ((), ⟨[], some ⟨"avg".toList, .atom (.atLeast 1)⟩⟩)
  metric := "cpu".toList
  downsampler := []

/-- Two rows and the end. -/
theorem complete_example : ReportsEnd
    (plainResultSet.execute (fun _ _ => [.row ⟨1, .nan⟩, .row ⟨2, .nan⟩, .done]) 0 10 [])
    [] [⟨1, .nan⟩, ⟨2, .nan⟩] .done :=
  (complete_iff plainResultSet _ rfl (fun _ _ => [.row ⟨1, .nan⟩, .row ⟨2, .nan⟩, .done]) 0 10
    [⟨1, .nan⟩, ⟨2, .nan⟩] .done nofun rfl []).mpr rfl

/-- An error behind the first row is reported as the end of the data. -/
theorem not_complete : ¬ ∀ (steps : Unit × Statement → (ℕ → BitVec 64) → List StepResult)
    (startTime endTime : BitVec 64) (rows : List Dps) (last : StepResult),
    (∀ d, last ≠ .row d) → (∀ stmt params, steps stmt params = rows.map .row ++ [last]) →
    ReportsEnd (plainResultSet.execute steps startTime endTime []) [] rows last := by
  intro h
  have herror := h (fun _ _ => [.row ⟨1, .nan⟩, .error]) 0 10 [⟨1, .nan⟩] .error nofun
    fun _ _ => rfl
  exact absurd (herror.1.mp rfl) (by decide)

end SimpleTSDB.Datastore
