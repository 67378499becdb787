import SimpleTSDB.Datastore.ResultSet
import SimpleTSDB.Query.Meaning

/-!
# Reading a row back

The row of an accepted line is written into an empty table and asked for without filters. A NaN is
not stored, and a timestamp is unsigned in the program and signed in the table; `readBack_iff` says
for which rows and windows neither is noticed.
-/

namespace SimpleTSDB.Datastore

open Sqlite Query

variable {F : Type*}

/-- The statement without filters. -/
def unfiltered (agg : Aggregator) : Select := ⟨agg.text, whereExpr []⟩

/-- It selects the rows of the window. -/
theorem selects_unfiltered (agg : Aggregator) (params : ℕ → BitVec 64) (row : Row) :
    (unfiltered agg).Selects params row ↔
      (params 1).toInt ≤ row.timestamp.toInt ∧ row.timestamp.toInt ≤ (params 2).toInt :=
  (selects_whereExpr (List.forall_mem_nil _) params row).trans
    (and_iff_left (List.forall_mem_nil _))

theorem prepare_unfiltered {e : Engine} {db : DbFile} (htable : db.rows ≠ none) (agg : Aggregator)
    (hagg : (e.functions agg.text).isSome) : e.prepare db (statementText agg []) =
      some (some ⟨statementText agg [], some (unfiltered agg)⟩) := by
  have hlimits : InLimits [] := ⟨by decide, by decide, List.forall_mem_nil _⟩
  exact Engine.prepare_eq htable (ofProgram_statementText agg (List.forall_mem_nil _)) hagg
    (hlimits.withinLimits agg (List.forall_mem_nil _))

/-- A table with one row returns its timestamp exactly if the row is selected. -/
theorem exists_mem_execute_iff {e : Engine} {disk : F → DbFile} {rs : ResultSet F} {file : F}
    {stmt : Statement} (hquery : rs.query = some (file, stmt)) {s : Select}
    (hs : stmt.select = some s) {aggregate : List Double → Option Double}
    (hagg : e.functions s.agg = some aggregate) (hone : ∀ v, (aggregate [v]).isSome)
    {row : Row} (hrows : (disk file).rows = some [row]) (start stop : BitVec 64) :
    (∃ d ∈ (rs.execute (e.stepResults disk) start stop []).2, d.timestamp = row.timestamp) ↔
      s.Selects (bound start stop) row := by
  have hgrouped := (isGrouped_execute hquery hs hagg hrows start stop).2
  by_cases hsel : s.Selects (bound start stop) row
  · have hselected : [row].filter (fun row => s.Selects (bound start stop) row) = [row] := by
      simp [hsel]
    rw [hselected] at hgrouped
    refine iff_of_true (hgrouped.exists_mem List.mem_cons_self fun row' hrow' _ => ?_) hsel
    obtain rfl := List.mem_singleton.mp hrow'
    simpa using hone row'.value
  · have hselected : [row].filter (fun row => s.Selects (bound start stop) row) = [] := by
      simp [hsel]
    rw [hselected] at hgrouped
    refine iff_of_false ?_ hsel
    rintro ⟨d, hd, -⟩
    exact absurd ((hgrouped.mem_iff d).mp hd).1 List.not_mem_nil

variable [DecidableEq F]

/-- The row of the metric is written into the table, and the statement without filters is prepared
and returns its timestamp exactly if it lies between `start` and `stop`. -/
def ReadBack (e : Engine) (o : Outcome) (disk : F → DbFile) (file : F) (m : Metric)
    (start stop : BitVec 64) : Prop :=
  ∃ disk', writeMetric o disk file m = (disk', [true]) ∧
    ∀ agg : Aggregator, ∃ stmt, e.prepare (disk' file) (statementText agg []) = some (some stmt) ∧
      ∀ rs : ResultSet F, rs.query = some (file, stmt) →
        ((∃ d ∈ (rs.execute (e.stepResults disk') start stop []).2, d.timestamp = m.timestamp) ↔
          start ≤ m.timestamp ∧ m.timestamp ≤ stop)

/-- The row of a value that is not a NaN becomes the only one of an empty table. -/
theorem writeMetric_empty_iff {o : Outcome} (ho : o.inserted = true) {disk : F → DbFile} {file : F}
    (hempty : (disk file).rows = some []) (m : Metric) (disk' : F → DbFile) :
    writeMetric o disk file m = (disk', [true]) ↔ m.value ≠ .nan ∧
      disk' = Function.update disk file { disk file with rows := some [rowOf m] } := by
  rw [writeMetric, hempty]
  by_cases hnan : m.value = .nan
  · simp [hnan]
  · have hinsert : (o.inserted && m.value != .nan) = true := by simp [ho, hnan]
    simp only [hinsert, if_true, Prod.mk.injEq, and_true, ne_eq, hnan, not_false_eq_true, true_and]
    exact eq_comm

/-- Two bounds and a number are ordered as signed integers as they are as unsigned ones, exactly if
the bounds have the same sign or the number does not lie between them. -/
theorem toInt_window_iff {start stop t : BitVec 64} (hle : start ≤ stop) :
    (start.toInt ≤ t.toInt ∧ t.toInt ≤ stop.toInt ↔ start ≤ t ∧ t ≤ stop) ↔
      (start.toNat < 2 ^ 63 ↔ stop.toNat < 2 ^ 63) ∨ ¬ (start ≤ t ∧ t ≤ stop) := by
  simp only [BitVec.le_def] at hle ⊢
  simp only [BitVec.toInt_eq_toNat_cond]
  have := start.isLt
  have := stop.isLt
  have := t.isLt
  split <;> split <;> split <;> omega

/-- **A datapoint is read back if and only if** its value is not a NaN, and the bounds of the window
lie on one side of 2^63 or the timestamp is outside. The aggregates of a single value do not
fail. -/
theorem readBack_iff (e : Engine) (hfns : ∀ agg : Aggregator, ∃ aggregate,
      e.functions agg.text = some aggregate ∧ ∀ v, (aggregate [v]).isSome)
    (o : Outcome) (ho : o.inserted = true) (disk : F → DbFile) (file : F)
    (hempty : (disk file).rows = some []) (line : Str) :
    ∀ m ∈ Metric.accepted line, ∀ start stop : BitVec 64, start ≤ stop →
      (ReadBack e o disk file m start stop ↔ m.value ≠ .nan ∧
        ((start.toNat < 2 ^ 63 ↔ stop.toNat < 2 ^ 63) ∨
          ¬ (start ≤ m.timestamp ∧ m.timestamp ≤ stop))) := by
  intro m _ start stop hle
  let disk₁ : F → DbFile := Function.update disk file { disk file with rows := some [rowOf m] }
  have hrows : (disk₁ file).rows = some [rowOf m] := by
    rw [show disk₁ = Function.update disk file { disk file with rows := some [rowOf m] } from rfl,
      Function.update_self]
  have hprepare (agg : Aggregator) : e.prepare (disk₁ file) (statementText agg []) =
      some (some ⟨statementText agg [], some (unfiltered agg)⟩) := by
    obtain ⟨aggregate, hagg, -⟩ := hfns agg
    exact prepare_unfiltered (by rw [hrows]; exact Option.some_ne_none _) agg (by rw [hagg]; rfl)
  have hexecute (agg : Aggregator) {rs : ResultSet F}
      (hrs : rs.query = some (file, ⟨statementText agg [], some (unfiltered agg)⟩)) :
      (∃ d ∈ (rs.execute (e.stepResults disk₁) start stop []).2, d.timestamp = m.timestamp) ↔
        start.toInt ≤ m.timestamp.toInt ∧ m.timestamp.toInt ≤ stop.toInt := by
    obtain ⟨aggregate, hagg, hone⟩ := hfns agg
    exact (exists_mem_execute_iff hrs rfl hagg hone hrows start stop).trans
      (selects_unfiltered agg _ _)
  constructor
  · rintro ⟨disk', hwrite, hread⟩
    obtain ⟨hnan, rfl⟩ := (writeMetric_empty_iff ho hempty m disk').mp hwrite
    obtain ⟨stmt, hstmt, hrs⟩ := hread .sum
    obtain rfl := Option.some.inj (Option.some.inj ((hprepare .sum).symm.trans hstmt))
    refine ⟨hnan, (toInt_window_iff hle).mp ?_⟩
    exact (hexecute .sum rfl).symm.trans (hrs ⟨some (file, _), [], []⟩ rfl)
  · rintro ⟨hnan, hwindow⟩
    refine ⟨disk₁, (writeMetric_empty_iff ho hempty m _).mpr ⟨hnan, rfl⟩, fun agg =>
      ⟨_, hprepare agg, fun rs hrs => ?_⟩⟩
    exact (hexecute agg hrs).trans ((toInt_window_iff hle).mpr hwindow)

/-- The aggregate functions, for one value; no statement but those of the program is accepted. -/
def singleValue : Engine where
  functions name :=
    if name = "avg".toList ∨ name = "min".toList ∨ name = "max".toList ∨ name = "sum".toList then
      some List.head?
    else none
  accepts _ := false
  returns _ _ _ := [.error]
  literal_closed _ _ _ _ := rfl

/-- A file with an empty table. -/
def emptyTable : Unit → DbFile := fun _ => ⟨some [], true, true⟩

/-- SQLite does not fail. -/
def allDone : Outcome := ⟨true, true, true, true, true, true⟩

/-- A datapoint is read back. -/
theorem readBack_example : ReadBack singleValue allDone emptyTable ()
    (.ofFields "cpu".toList 5 (.fin false 0 0) "host=a".toList) 0 10 :=
  (readBack_iff singleValue (fun agg => ⟨List.head?, by cases agg <;> rfl, fun _ => rfl⟩) allDone
    rfl emptyTable () rfl "cpu 5 0 host=a".toList _ (by decide) 0 10 (by decide)).mpr
    ⟨by decide, .inl (by decide)⟩

/-- A NaN is accepted and not stored. -/
theorem not_readBack : ¬ ∀ line, ∀ m ∈ Metric.accepted line, ∀ start stop : BitVec 64,
    start ≤ stop → ReadBack singleValue allDone emptyTable () m start stop := by
  intro h
  have hnan := h "cpu 1 nan host=a".toList (.ofFields "cpu".toList 1 .nan "host=a".toList)
    (by decide) 0 0 (by decide)
  obtain ⟨disk', hwrite, -⟩ := hnan
  exact ((writeMetric_empty_iff rfl rfl _ _).mp hwrite).1 rfl

end SimpleTSDB.Datastore
