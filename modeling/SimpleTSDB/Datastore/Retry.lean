import SimpleTSDB.Datastore.Process

/-!
# Retrying a creation

Calls of `CreateDatabase` for one name, one behind the other, with failures of SQLite at any step. A
call that fails before the table is created leaves nothing behind; once there is a table, no later
call succeeds. `retryable_iff` says after which sequences of calls a database can still be created.
-/

namespace SimpleTSDB.Datastore

/-- SQLite creates the table, unless there is one. -/
def Outcome.MakesTable (o : Outcome) : Prop := o.opened = true ∧ o.table = true

/-- SQLite does not fail. -/
def Outcome.Succeeds (o : Outcome) : Prop :=
  o.MakesTable ∧ o.index = true ∧ o.wal = true ∧ o.prepared = true

variable {F : Type*} [DecidableEq F] (cfg : Config F) (name : Str)

/-- The file of the database. -/
def Config.file : F := cfg.resolve (cfg.path name)

/-- `CreateDatabase` returns a null pointer. -/
def Fails (disk : F → DbFile) (o : Outcome) : Prop := (createDatabase cfg o disk name).2.1 = none

/-- The files after some calls. -/
def attempts (disk : F → DbFile) (os : List Outcome) : F → DbFile :=
  os.foldl (fun disk o => (createDatabase cfg o disk name).1) disk

/-- A call in which SQLite does not fail returns a connection, and rows are written on it. -/
def Creatable (disk : F → DbFile) : Prop :=
  ∀ o : Outcome, o.Succeeds → ∃ file, (createDatabase cfg o disk name).2.1 = some file ∧
    ∀ (o' : Outcome) (m : Metric), o'.inserted = true → m.value ≠ .nan →
      (writeMetric o' (createDatabase cfg o disk name).1 file m).2 = [true]

/-- After every call that fails, the database can be created. -/
def Retryable (disk : F → DbFile) (os : List Outcome) : Prop :=
  ∀ pre o post, os = pre ++ o :: post → Fails cfg name (attempts cfg name disk pre) o →
    Creatable cfg name (attempts cfg name disk (pre ++ [o]))

variable {cfg name} {disk : F → DbFile}

/-! ## One call -/

/-- A call that does not get as far as the table fails and changes nothing. -/
theorem createDatabase_of_not_createsTable {o : Outcome} (h : ¬ CreatesTable cfg o disk name) :
    (createDatabase cfg o disk name).1 = disk ∧ Fails cfg name disk o := by
  obtain ⟨-, calls, -, heq⟩ | ⟨hcreates, -⟩ := createDatabase_cases cfg o disk name
  · rw [Fails, heq]
    exact ⟨rfl, rfl⟩
  · exact absurd hcreates h

/-- With a table, every call fails and changes nothing. -/
theorem createDatabase_of_table (h : (disk (cfg.file name)).rows ≠ none) (o : Outcome) :
    (createDatabase cfg o disk name).1 = disk ∧ Fails cfg name disk o :=
  createDatabase_of_not_createsTable fun hcreates => h hcreates.2.2

/-- Without a table, a call that does not create one fails and changes nothing. -/
theorem createDatabase_of_not_makesTable {o : Outcome} (h : ¬ o.MakesTable) :
    (createDatabase cfg o disk name).1 = disk ∧ Fails cfg name disk o :=
  createDatabase_of_not_createsTable fun hcreates => h hcreates.2.1

/-- In a new file the table is created, and the call fails exactly if a later step does. -/
theorem createDatabase_of_new (hname : name ≠ []) (hfile : disk (cfg.file name) = {})
    {o : Outcome} (h : o.MakesTable) :
    ((createDatabase cfg o disk name).1 (cfg.file name)).rows = some [] ∧
      (¬ Fails cfg name disk o ↔ o.Succeeds) ∧
      ∀ file ∈ (createDatabase cfg o disk name).2.1, file = cfg.file name := by
  have hnew : disk (cfg.resolve (cfg.path name)) = {} := hfile
  obtain ⟨hnot, -⟩ | ⟨-, db, conn, calls, hdb, hconn, heq⟩ := createDatabase_cases cfg o disk name
  · exact absurd ⟨hname, h, by rw [hnew]⟩ hnot
  have hcompletes : Completes cfg o disk name ↔ o.Succeeds := by
    rw [Completes, Outcome.Succeeds, hnew]
    exact ⟨fun hc => ⟨h, hc.2⟩, fun hs => ⟨rfl, hs.2⟩⟩
  rw [Fails, heq, ← hcompletes]
  refine ⟨(congrArg DbFile.rows (Function.update_self ..)).trans hdb, ?_⟩
  obtain ⟨hc, rfl, -⟩ | ⟨hc, rfl, -⟩ := hconn
  · exact ⟨iff_of_true nofun hc, fun file hsome => (Option.some.inj hsome).symm⟩
  · exact ⟨iff_of_false (not_not_intro rfl) hc, nofun⟩

/-- **A database can be created** in a new file. -/
theorem creatable_of_new (hname : name ≠ []) (hfile : disk (cfg.file name) = {}) :
    Creatable cfg name disk := by
  intro o ho
  obtain ⟨hrows, hfails, hconn⟩ := createDatabase_of_new hname hfile ho.1
  obtain ⟨file, hsome⟩ := Option.ne_none_iff_exists'.mp (hfails.mpr ho)
  obtain rfl := hconn file hsome
  refine ⟨_, hsome, fun o' m hinserted hvalue => ?_⟩
  rw [writeMetric, hrows]
  simp [hinserted, hvalue]

/-- It cannot be created in a file with a table. -/
theorem not_creatable_of_table (h : (disk (cfg.file name)).rows ≠ none) :
    ¬ Creatable cfg name disk := by
  intro hcreate
  obtain ⟨file, hsome, -⟩ := hcreate ⟨true, true, true, true, true, true⟩
    ⟨⟨rfl, rfl⟩, rfl, rfl, rfl⟩
  rw [(createDatabase_of_table h _).2] at hsome
  cases hsome

/-! ## Sequences of calls -/

@[simp] theorem attempts_concat (os : List Outcome) (o : Outcome) :
    attempts cfg name disk (os ++ [o]) =
      (createDatabase cfg o (attempts cfg name disk os) name).1 := by
  unfold attempts
  rw [List.foldl_append]
  rfl

/-- Calls of which each changes nothing leave the files as they are. -/
theorem attempts_eq_self {os : List Outcome}
    (h : ∀ o ∈ os, (createDatabase cfg o disk name).1 = disk) :
    attempts cfg name disk os = disk := by
  induction os with
  | nil => rfl
  | cons o os ih =>
    obtain ⟨ho, hos⟩ := List.forall_mem_cons.mp h
    rw [attempts, List.foldl_cons, ho]
    exact ih hos

theorem attempts_of_not_makesTable {os : List Outcome} (h : ∀ o ∈ os, ¬ o.MakesTable) :
    attempts cfg name disk os = disk :=
  attempts_eq_self fun o ho => (createDatabase_of_not_makesTable (h o ho)).1

/-- A table that has been created stays. -/
theorem attempts_of_table (h : (disk (cfg.file name)).rows ≠ none) (os : List Outcome) :
    attempts cfg name disk os = disk :=
  attempts_eq_self fun o _ => (createDatabase_of_table h o).1

/-- A call that creates the table leaves one behind. -/
theorem table_of_makesTable (hname : name ≠ []) (hfile : disk (cfg.file name) = {})
    {os : List Outcome} (h : ∃ o ∈ os, o.MakesTable) :
    ((attempts cfg name disk os) (cfg.file name)).rows ≠ none := by
  induction os with
  | nil => exact absurd h (by simp)
  | cons o os ih =>
    by_cases ho : o.MakesTable
    · have hrows := (createDatabase_of_new hname hfile ho).1
      have htable : ((createDatabase cfg o disk name).1 (cfg.file name)).rows ≠ none := by
        rw [hrows]
        exact Option.some_ne_none _
      rw [attempts, List.foldl_cons]
      have hstay := attempts_of_table htable os
      rw [attempts] at hstay
      rw [hstay]
      exact htable
    · have hos : ∃ o ∈ os, o.MakesTable := by simpa [ho] using h
      have hcall : (createDatabase cfg o disk name).1 = disk :=
        (createDatabase_of_not_makesTable ho).1
      rw [attempts, List.foldl_cons, hcall]
      exact ih hos

/-- In a new file, a call fails exactly if one of its steps does. -/
theorem fails_iff (hname : name ≠ []) (hfile : disk (cfg.file name) = {}) (o : Outcome) :
    Fails cfg name disk o ↔ ¬ o.Succeeds := by
  by_cases ho : o.MakesTable
  · exact (not_iff_comm.mp (createDatabase_of_new hname hfile ho).2.1).symm
  · exact iff_of_true (createDatabase_of_not_makesTable ho).2 fun h => ho h.1

/-- Without a name the first call fails, and every later one. -/
theorem name_ne_of_retryable {os : List Outcome} (h : Retryable cfg name disk os) (hne : os ≠ []) :
    name ≠ [] := by
  rintro rfl
  obtain ⟨first, rest, rfl⟩ := List.exists_cons_of_ne_nil hne
  obtain ⟨file, hsome, -⟩ := h [] first rest rfl rfl ⟨true, true, true, true, true, true⟩
    ⟨⟨rfl, rfl⟩, rfl, rfl, rfl⟩
  cases hsome

/-- **Every failed creation can be retried if and only if** none of the calls but the last one
creates the table, and the last one succeeds if it does. -/
theorem retryable_iff (cfg : Config F) (name : Str) (disk : F → DbFile)
    (hfile : disk (cfg.file name) = {}) (os : List Outcome) : Retryable cfg name disk os ↔
      os = [] ∨ name ≠ [] ∧ (∀ o ∈ os.dropLast, ¬ o.MakesTable) ∧
        ∀ o ∈ os.getLast?, o.MakesTable → o.Succeeds := by
  constructor
  · intro h
    rcases List.eq_nil_or_concat' os with rfl | ⟨pre, o, rfl⟩
    · exact .inl rfl
    have hname := name_ne_of_retryable h (by simp)
    have hpre : ∀ o' ∈ pre, ¬ o'.MakesTable := by
      intro o' ho' hmakes
      have htable := table_of_makesTable hname hfile ⟨o', ho', hmakes⟩
      obtain ⟨hstay, hfails⟩ := createDatabase_of_table htable o
      have hcreate := h pre o [] rfl hfails
      rw [attempts_concat, hstay] at hcreate
      exact not_creatable_of_table htable hcreate
    refine .inr ⟨hname, by simpa using hpre, fun o' ho' hmakes => ?_⟩
    obtain rfl : o = o' := by simpa using ho'
    by_contra hsucceeds
    have hcreate := h pre o [] rfl
    rw [attempts_concat, attempts_of_not_makesTable hpre] at hcreate
    refine not_creatable_of_table ?_ (hcreate ((fails_iff hname hfile o).mpr hsucceeds))
    rw [(createDatabase_of_new hname hfile hmakes).1]
    exact Option.some_ne_none _
  · rintro h pre o post rfl hfail
    obtain hnil | ⟨hname, hinit, hlast⟩ := h
    · simp at hnil
    rw [List.dropLast_append_of_ne_nil (List.cons_ne_nil _ _)] at hinit
    have hpre : ∀ o' ∈ pre, ¬ o'.MakesTable := fun o' ho' => hinit o' (List.mem_append_left _ ho')
    rw [attempts_of_not_makesTable hpre] at hfail
    have ho : ¬ o.MakesTable := by
      intro hmakes
      rcases eq_or_ne post [] with rfl | hpost
      · exact (fails_iff hname hfile o).mp hfail (hlast o (by simp) hmakes)
      · refine hinit o (List.mem_append_right _ ?_) hmakes
        rw [List.dropLast_cons_of_ne_nil hpost]
        exact List.mem_cons_self
    rw [attempts_concat, attempts_of_not_makesTable hpre,
      (createDatabase_of_not_makesTable ho).1]
    exact creatable_of_new hname hfile

/-- A configuration in which every path leads to the same file. -/
def oneFile : Config Unit := ⟨"data".toList, "tsdb".toList, "host".toList, fun _ => ()⟩

/-- A database that could not be opened can be created. -/
theorem retryable_example :
    Retryable oneFile "cpu".toList (fun _ => {}) [⟨false, false, false, false, false, false⟩] :=
  (retryable_iff oneFile _ (fun _ => {}) rfl _).mpr
    (.inr ⟨by decide, by simp, by simp [Outcome.MakesTable]⟩)

/-- After a failure of the index the database is never created. -/
theorem not_retryable : ¬ ∀ (name : Str) (disk : Unit → DbFile) (os : List Outcome), name ≠ [] →
    disk (oneFile.file name) = {} → Retryable oneFile name disk os := by
  intro h
  have hretry := h "cpu".toList (fun _ => {}) [⟨true, true, false, false, false, false⟩]
    (by decide) rfl
  obtain ⟨file, hsome, -⟩ := hretry [] _ [] rfl rfl ⟨true, true, true, true, true, true⟩
    ⟨⟨rfl, rfl⟩, rfl, rfl, rfl⟩
  cases hsome

end SimpleTSDB.Datastore
