import SimpleTSDB.Datastore.Drain
import SimpleTSDB.Datastore.Retry
import SimpleTSDB.Foundations.Growth

/-!
# The write counter

`Process` counts the metrics of a batch when it has been through it, those that no row was written
for as well; the drain of `Stop` counts nothing. `run_writes` is the balance of the counter and the
rows that the files have grown by, and `writeCount_iff` says in which runs the two are the same.
-/

namespace SimpleTSDB.Datastore

open Sqlite Transducer Growth

/-- The number of rows of a file. -/
def DbFile.count (db : DbFile) : ℕ := (db.rows.getD []).length

/-- The number of rows that are inserted between two states of the files. -/
noncomputable def insertedRows {F : Type*} (before after : F → DbFile) : ℕ :=
  growth DbFile.count before after

/-- What is passed to `AddWriteCount`. -/
def addedWrites {F : Type*} (es : List (Event F)) : ℕ :=
  (es.map fun | .addWriteCount n => n | _ => 0).sum

/-- The metrics of the batch that `Process` has been through. -/
def Pc.handled : Pc → ℕ
  | .processBatch _ count i => min i count
  | _ => 0

theorem addedWrites_append {F : Type*} (es es' : List (Event F)) :
    addedWrites (es ++ es') = addedWrites es + addedWrites es' := by
  rw [addedWrites, List.map_append, List.sum_append]
  rfl

theorem addedWrites_eq_zero {F : Type*} {es : List (Event F)} (h : ∀ n, .addWriteCount n ∉ es) :
    addedWrites es = 0 := by
  rw [addedWrites, List.sum_eq_zero_iff_forall_eq_nat, List.forall_mem_map]
  intro e he
  cases e with
  | addWriteCount n => exact absurd he (h n)
  | _ => rfl

variable {F : Type*} [DecidableEq F]

/-! ## The rows of one metric -/

/-- `CreateDatabase` returns a connection: no call of SQLite fails, and the file of the name has
neither the table nor the index. -/
def Creates (cfg : Config F) (o : Outcome) (disk : F → DbFile) (name : Str) : Prop :=
  name ≠ [] ∧ o.Succeeds ∧ (disk (cfg.file name)).rows = none ∧
    (disk (cfg.file name)).index = false

/-- A row is inserted for the metric: its insertion succeeds, the value is not NULL to SQLite, and
it has a connection to a file with a table, or gets one. -/
def Inserts (cfg : Config F) (o : Outcome) (s : State F) (m : Metric) : Prop :=
  o.inserted = true ∧ m.value ≠ .nan ∧
    match s.store.lookup m.name with
    | some file => (s.disk file).rows ≠ none
    | none => Creates cfg o s.disk m.name

instance (cfg : Config F) (o : Outcome) (disk : F → DbFile) (name : Str) :
    Decidable (Creates cfg o disk name) := by
  unfold Creates Outcome.Succeeds Outcome.MakesTable
  infer_instance

instance (cfg : Config F) (o : Outcome) (s : State F) (m : Metric) :
    Decidable (Inserts cfg o s m) := by
  unfold Inserts
  cases s.store.lookup m.name <;> infer_instance

/-- `CreateDatabase` writes no row. -/
theorem createDatabase_grown (cfg : Config F) (o : Outcome) (disk : F → DbFile) (name : Str) :
    Grown DbFile.count disk (createDatabase cfg o disk name).1 0 := by
  obtain ⟨-, calls, -, heq⟩ | ⟨hcreates, db, conn, calls, hdb, -, heq⟩ :=
    createDatabase_cases cfg o disk name
  · rw [heq]
    exact .refl disk
  · rw [heq]
    refine .update ?_
    rw [DbFile.count, DbFile.count, hdb, hcreates.2.2]
    rfl

omit [DecidableEq F] in
theorem creates_iff {cfg : Config F} {o : Outcome} {disk : F → DbFile} {name : Str} :
    Creates cfg o disk name ↔ CreatesTable cfg o disk name ∧ Completes cfg o disk name := by
  constructor
  · rintro ⟨hname, ⟨htable, hlater⟩, hrows, hindex⟩
    exact ⟨⟨hname, htable, hrows⟩, hindex, hlater⟩
  · rintro ⟨⟨hname, htable, hrows⟩, hindex, hlater⟩
    exact ⟨hname, ⟨htable, hlater⟩, hrows, hindex⟩

theorem createDatabase_of_creates {cfg : Config F} {o : Outcome} {disk : F → DbFile} {name : Str}
    (h : Creates cfg o disk name) :
    (createDatabase cfg o disk name).2.1 = some (cfg.file name) ∧
      ((createDatabase cfg o disk name).1 (cfg.file name)).rows = some [] := by
  obtain ⟨htable, hcompletes⟩ := creates_iff.mp h
  obtain ⟨hnot, -⟩ | ⟨-, db, conn, calls, hdb, hconn, heq⟩ := createDatabase_cases cfg o disk name
  · exact absurd htable hnot
  obtain ⟨-, rfl, -⟩ | ⟨hnot, -⟩ := hconn
  · rw [heq]
    exact ⟨rfl, (congrArg DbFile.rows (Function.update_self ..)).trans hdb⟩
  · exact absurd hcompletes hnot

theorem createDatabase_of_not_creates {cfg : Config F} {o : Outcome} {disk : F → DbFile}
    {name : Str} (h : ¬ Creates cfg o disk name) : (createDatabase cfg o disk name).2.1 = none := by
  rw [creates_iff] at h
  obtain ⟨-, calls, -, heq⟩ | ⟨htable, db, conn, calls, -, hconn, heq⟩ :=
    createDatabase_cases cfg o disk name
  · rw [heq]
  · obtain ⟨hcompletes, -⟩ | ⟨-, rfl, -⟩ := hconn
    · exact absurd ⟨htable, hcompletes⟩ h
    · rw [heq]

/-- `WriteMetric` writes one row or none. -/
theorem writeMetric_grown (o : Outcome) (disk : F → DbFile) (file : F) (m : Metric) :
    Grown DbFile.count disk (writeMetric o disk file m).1
      (if o.inserted = true ∧ m.value ≠ .nan ∧ (disk file).rows ≠ none then 1 else 0) := by
  unfold writeMetric
  dsimp only
  cases hrows : (disk file).rows with
  | none => simpa using Grown.refl disk
  | some rows =>
    by_cases hins : o.inserted = true ∧ m.value ≠ .nan
    · rw [if_pos ⟨hins.1, hins.2, nofun⟩]
      dsimp only
      rw [if_pos (by simpa using hins)]
      refine .update ?_
      rw [DbFile.count, DbFile.count, hrows]
      simp
    · rw [if_neg fun h => hins ⟨h.1, h.2.1⟩]
      dsimp only
      rw [if_neg (by simpa using hins)]
      exact .refl disk

/-- **The body of the loops** inserts one row or none. -/
theorem storeMetric_grown (cfg : Config F) (o : Outcome) (s : State F) (m : Metric) :
    Grown DbFile.count s.disk (storeMetric cfg o s m).1.disk
      (if Inserts cfg o s m then 1 else 0) := by
  unfold storeMetric
  cases hstore : s.store.lookup m.name with
  | some file =>
    have hins : Inserts cfg o s m ↔
        o.inserted = true ∧ m.value ≠ .nan ∧ (s.disk file).rows ≠ none := by
      rw [Inserts, hstore]
    simp only [hins]
    exact writeMetric_grown o s.disk file m
  | none =>
    have hins : Inserts cfg o s m ↔
        o.inserted = true ∧ m.value ≠ .nan ∧ Creates cfg o s.disk m.name := by
      rw [Inserts, hstore]
    have hcreate := createDatabase_grown cfg o s.disk m.name
    by_cases hc : Creates cfg o s.disk m.name
    · obtain ⟨hconn, hrows⟩ := createDatabase_of_creates hc
      cases hdb : createDatabase cfg o s.disk m.name with
      | mk disk p =>
        obtain ⟨conn, calls⟩ := p
        rw [hdb] at hconn hrows hcreate
        obtain rfl : conn = some (cfg.file m.name) := hconn
        have hwrite := writeMetric_grown o disk (cfg.file m.name) m
        simp only [hins, hc, and_true]
        simp only [show (disk (cfg.file m.name)).rows = some [] from hrows, ne_eq, reduceCtorEq,
          not_false_eq_true, and_true] at hwrite
        simpa using hcreate.trans hwrite
    · have hconn := createDatabase_of_not_creates hc
      cases hdb : createDatabase cfg o s.disk m.name with
      | mk disk p =>
        obtain ⟨conn, calls⟩ := p
        rw [hdb] at hconn hcreate
        obtain rfl : conn = none := hconn
        rw [if_neg fun h => hc (hins.mp h).2.2]
        exact hcreate

/-! ## Runs -/

/-- `Process` has been through a metric that no row is inserted for. -/
def Lost (cfg : Config F) (s : State F) (a : Action) : Prop :=
  match s.pc, a with
  | .processBatch m _ i, .element o => ∃ x ∈ m[i]?, ¬ Inserts cfg o s x
  | _, _ => False

/-- The drain of `Stop` inserts a row. -/
def DrainInserts (cfg : Config F) (s : State F) (a : Action) : Prop :=
  match s.pc, a with
  | .stopBatch m _ i, .element o => ∃ x ∈ m[i]?, Inserts cfg o s x
  | _, _ => False

instance (cfg : Config F) (s : State F) (a : Action) : Decidable (Lost cfg s a) := by
  unfold Lost
  split <;> infer_instance

instance (cfg : Config F) (s : State F) (a : Action) : Decidable (DrainInserts cfg s a) := by
  unfold DrainInserts
  split <;> infer_instance

/-- The balance of some steps from `s` to `t`: the counter, and the rows that are inserted. -/
def Balance (s t : State F) (es : List (Event F)) (lost drained : ℕ) : Prop :=
  ∃ n, Grown DbFile.count s.disk t.disk n ∧
    addedWrites es + t.pc.handled + drained = s.pc.handled + n + lost

omit [DecidableEq F] in
theorem Balance.trans {s t u : State F} {es es' : List (Event F)} {l l' k k' : ℕ}
    (h : Balance s t es l k) (h' : Balance t u es' l' k') :
    Balance s u (es ++ es') (l + l') (k + k') := by
  obtain ⟨n, hn, heq⟩ := h
  obtain ⟨n', hn', heq'⟩ := h'
  refine ⟨n + n', hn.trans hn', ?_⟩
  rw [addedWrites_append]
  omega

omit [DecidableEq F] in
/-- A step that writes nothing. -/
theorem Balance.move {s t : State F} {es : List (Event F)} (hdisk : t.disk = s.disk)
    (h : addedWrites es + t.pc.handled = s.pc.handled) : Balance s t es 0 0 := by
  refine ⟨0, ?_, h⟩
  rw [hdisk]
  exact .refl s.disk

theorem addedWrites_storeMetric (cfg : Config F) (o : Outcome) (s : State F) (m : Metric) :
    addedWrites (storeMetric cfg o s m).2 = 0 := by
  refine addedWrites_eq_zero fun n => ?_
  unfold storeMetric
  split
  · simp
  · split <;> simp

/-- **The balance of a step.** -/
theorem step_writes {cfg : Config F} {s t : State F} {a : Action} {es : List (Event F)}
    (h : step cfg s a = some (t, es)) :
    Balance s t es (if Lost cfg s a then 1 else 0) (if DrainInserts cfg s a then 1 else 0) := by
  -- only the rounds of the loops over a batch insert rows
  have hquiet (ha : ∀ o, a ≠ .element o) (hb : Balance s t es 0 0) :
      Balance s t es (if Lost cfg s a then 1 else 0) (if DrainInserts cfg s a then 1 else 0) := by
    have hlost : ¬ Lost cfg s a := by
      unfold Lost
      split
      · exact absurd rfl (ha _)
      · exact id
    have hdrain : ¬ DrainInserts cfg s a := by
      unfold DrainInserts
      split
      · exact absurd rfl (ha _)
      · exact id
    rwa [if_neg hlost, if_neg hdrain]
  cases stepped_of_step h with
  | @processElement m count i o x hpc hi hx =>
    have hlost : Lost cfg s (.element o) ↔ ¬ Inserts cfg o s x := by
      simp [Lost, hpc, hx]
    have hdrain : ¬ DrainInserts cfg s (.element o) := by
      simp [DrainInserts, hpc]
    refine ⟨_, storeMetric_grown cfg o s x, ?_⟩
    rw [addedWrites_storeMetric, if_neg hdrain, hpc]
    simp only [hlost, Pc.handled]
    split <;> omega
  | @stopElement m count i o x hpc hi hx =>
    have hlost : ¬ Lost cfg s (.element o) := by
      simp [Lost, hpc]
    have hdrain : DrainInserts cfg s (.element o) ↔ Inserts cfg o s x := by
      simp [DrainInserts, hpc, hx]
    refine ⟨_, storeMetric_grown cfg o s x, ?_⟩
    rw [addedWrites_storeMetric, if_neg hlost, hpc]
    simp only [hdrain, Pc.handled]
    omega
  | @processEnd m count i hpc hi =>
    refine hquiet nofun (.move rfl ?_)
    rw [hpc]
    simp only [addedWrites, Pc.handled, List.map_singleton, List.sum_singleton]
    omega
  | enqueue m => exact hquiet nofun (.move rfl (Nat.zero_add _))
  | count hpos => exact hquiet nofun (.move rfl (Nat.zero_add _))
  | updated stats time hpc =>
    refine hquiet nofun (.move rfl ?_)
    rw [hpc]
    rfl
  | _ hpc =>
    refine hquiet nofun (.move rfl ?_)
    rw [hpc]
    simp [addedWrites, Pc.handled, Function.comp_def]

/-- **The balance of a run.** -/
theorem run_writes {cfg : Config F} {s t : State F} {as : List Action} {o : List (Event F)}
    (h : run (step cfg) s as = some (t, o)) : Balance s t o
      (countSteps (step cfg) (Lost cfg) s as) (countSteps (step cfg) (DrainInserts cfg) s as) := by
  induction as generalizing s o with
  | nil =>
    obtain ⟨rfl, rfl⟩ := Prod.mk.inj (Option.some.inj h)
    exact .move rfl (Nat.zero_add _)
  | cons a as ih =>
    obtain ⟨s', o₁, o₂, hstep, hrun, rfl⟩ := run_cons_eq_some_iff.mp h
    rw [countSteps_cons hstep, countSteps_cons hstep]
    exact (step_writes hstep).trans (ih hrun)

/-- From an idle thread to a stopped one. -/
theorem stopped_writes {cfg : Config F} {s t : State F} {as : List Action} {o : List (Event F)}
    (hidle : s.pc = .idle) (h : run (step cfg) s as = some (t, o)) (hstop : t.pc = .stopped) :
    addedWrites o + countSteps (step cfg) (DrainInserts cfg) s as =
      insertedRows s.disk t.disk + countSteps (step cfg) (Lost cfg) s as := by
  obtain ⟨n, hgrown, hbalance⟩ := run_writes h
  rw [hidle, hstop] at hbalance
  rw [insertedRows, hgrown.growth_eq]
  simpa only [Pc.handled, Nat.add_zero, Nat.zero_add] using hbalance

/-- **The write counter is the number of rows inserted if and only if** `Process` has been through
as many metrics that no row is inserted for as rows are inserted by the drain of `Stop`. -/
theorem writeCount_iff (cfg : Config F) (s t : State F) (as : List Action) (o : List (Event F))
    (hidle : s.pc = .idle) (h : run (step cfg) s as = some (t, o)) (hstop : t.pc = .stopped) :
    addedWrites o = insertedRows s.disk t.disk ↔
      countSteps (step cfg) (Lost cfg) s as = countSteps (step cfg) (DrainInserts cfg) s as := by
  have hbalance := stopped_writes hidle h hstop
  omega

/-- A metric is queued, taken off the queue by an iteration and written or not, before `Stop` is
called. -/
def oneMetricRun (inserted : Bool) : List Action :=
  [.enqueue cpuMetric, .count, .process, .dequeue [cpuMetric],
    .element ⟨true, true, true, true, true, inserted⟩, .endBatch, .dequeue [], .poll none,
    .stop, .dequeue [], .close]

theorem writeCount_example : ∃ t o,
    run (step plainConfig) (started noDatabases) (oneMetricRun true) = some (t, o) ∧
      addedWrites o = insertedRows noDatabases.disk t.disk := by
  have hrun : ∃ p ∈ run (step plainConfig) (started noDatabases) (oneMetricRun true),
      p.1.pc = .stopped := by decide +kernel
  obtain ⟨⟨t, o⟩, hrun, hpc⟩ := hrun
  refine ⟨t, o, hrun, (writeCount_iff plainConfig _ t _ o rfl hrun hpc).mpr ?_⟩
  decide +kernel

/-- An insertion fails, and is counted. -/
theorem not_writeCount : ¬ ∀ as t o, run (step plainConfig) (started noDatabases) as = some (t, o) →
    t.pc = .stopped → addedWrites o = insertedRows noDatabases.disk t.disk := by
  intro h
  have hrun : ∃ p ∈ run (step plainConfig) (started noDatabases) (oneMetricRun false),
      p.1.pc = .stopped := by decide +kernel
  obtain ⟨⟨t, o⟩, hrun, hpc⟩ := hrun
  have hcount := h _ t o hrun hpc
  have hbalance := stopped_writes rfl hrun hpc
  have hlost : countSteps (step plainConfig) (Lost plainConfig) (started noDatabases)
      (oneMetricRun false) = 1 := by decide +kernel
  have hdrain : countSteps (step plainConfig) (DrainInserts plainConfig) (started noDatabases)
      (oneMetricRun false) = 0 := by decide +kernel
  rw [hlost, hdrain] at hbalance
  have hdisk : insertedRows (started noDatabases).disk t.disk =
      insertedRows noDatabases.disk t.disk := rfl
  omega

end SimpleTSDB.Datastore
