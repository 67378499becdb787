import Mathlib.Logic.Function.Basic
import SimpleTSDB.Metric
import SimpleTSDB.Sqlite.Select

/-!
# Databases

Every metric has a database file with one table. The result of a call of SQLite is decided by the
environment (`Outcome`), except that a table cannot be created twice and that a NaN, which SQLite
stores as NULL, is refused by the table. A connection is the file it is open on. The connections and
the files that the scan of the data directory leaves behind carry their well-formedness
(`Databases`): names and files are distinct and every connected file has its table.
-/

namespace SimpleTSDB.Datastore

open Sqlite

/-- A database file: the rows of its table, if there is one, its index and its journal mode. -/
structure DbFile where
  rows : Option (List Row) := none
  index : Bool := false
  wal : Bool := false

/-- The results of the calls of SQLite, as far as the environment decides them. -/
structure Outcome where
  opened : Bool
  table : Bool
  index : Bool
  wal : Bool
  prepared : Bool
  inserted : Bool

/-- The configuration, and the file that a path leads to. -/
structure Config (F : Type*) where
  dataDir : Str
  dbExt : Str
  hostname : Str
  resolve : Str → F

section

variable {F : Type*} [DecidableEq F]

/-- The path of the database of a metric. -/
def Config.path (cfg : Config F) (name : Str) : Str :=
  cfg.dataDir ++ "/".toList ++ name ++ ".".toList ++ cfg.dbExt

/-- `CreateDatabase`: the files, the connection (`none` for a null pointer) and the results of the
calls of SQLite. What a call has done before a later one fails stays in the file. -/
def createDatabase (cfg : Config F) (o : Outcome) (disk : F → DbFile) (name : Str) :
    (F → DbFile) × Option F × List Bool :=
  if name.length = 0 then (disk, none, [])
  else
    let file := cfg.resolve (cfg.path name)
    let db := disk file
    if !o.opened then (disk, none, [false])
    else if db.rows.isSome || !o.table then (disk, none, [true, false])
    else
      let db := { db with rows := some [] }
      if db.index || !o.index then
        (Function.update disk file db, none, [true, true, false])
      else
        let db := { db with index := true }
        if !o.wal then (Function.update disk file db, none, [true, true, true, false])
        else
          let db := { db with wal := true }
          (Function.update disk file db, if o.prepared then some file else none,
            [true, true, true, true, o.prepared])

/-- The row that `WriteMetric` binds, as it is stored: the column of the value is numeric, and a
negative zero becomes the integer 0. -/
def rowOf (m : Metric) : Row := ⟨m.timestamp, m.value.unsignZero, cstr m.tags⟩

/-- `WriteMetric`: the files and the result of the insertion. -/
def writeMetric (o : Outcome) (disk : F → DbFile) (file : F) (m : Metric) :
    (F → DbFile) × List Bool :=
  let db := disk file
  match db.rows with
  | some rows =>
    if o.inserted && m.value != .nan then
      (Function.update disk file { db with rows := some (rows ++ [rowOf m]) }, [true])
    else (disk, [false])
  | none => (disk, [false])

/-! ## Specifications -/

/-- `CreateDatabase` gets as far as the table, which the file does not have. -/
def CreatesTable (cfg : Config F) (o : Outcome) (disk : F → DbFile) (name : Str) : Prop :=
  name ≠ [] ∧ (o.opened = true ∧ o.table = true) ∧
    (disk (cfg.resolve (cfg.path name))).rows = none

/-- Nothing fails behind the table. -/
def Completes (cfg : Config F) (o : Outcome) (disk : F → DbFile) (name : Str) : Prop :=
  (disk (cfg.resolve (cfg.path name))).index = false ∧ o.index = true ∧ o.wal = true ∧
    o.prepared = true

/-- **What `CreateDatabase` can do**: it changes nothing and fails, or the table stays in the file,
and then there is a connection exactly if nothing fails behind the table. -/
theorem createDatabase_cases (cfg : Config F) (o : Outcome) (disk : F → DbFile) (name : Str) :
    (¬ CreatesTable cfg o disk name ∧ ∃ calls, (name ≠ [] → false ∈ calls) ∧
      createDatabase cfg o disk name = (disk, none, calls)) ∨
    (CreatesTable cfg o disk name ∧ ∃ db conn calls, db.rows = some [] ∧
      (Completes cfg o disk name ∧ conn = some (cfg.resolve (cfg.path name)) ∧ false ∉ calls ∨
        ¬ Completes cfg o disk name ∧ conn = none ∧ false ∈ calls) ∧
      createDatabase cfg o disk name =
        (Function.update disk (cfg.resolve (cfg.path name)) db, conn, calls)) := by
  unfold createDatabase CreatesTable Completes
  dsimp only
  split_ifs with hname hopened htable hindex hwal hprepared
  · exact .inl ⟨fun h => h.1 (List.eq_nil_of_length_eq_zero hname), _,
      fun h => absurd (List.eq_nil_of_length_eq_zero hname) h, rfl⟩
  · exact .inl ⟨fun h => by simp [h.2.1.1] at hopened, _, fun _ => by simp, rfl⟩
  · exact .inl ⟨fun h => by simp [h.2.1.2, h.2.2] at htable, _, fun _ => by simp, rfl⟩
  all_goals
    simp only [Bool.not_eq_true', Bool.not_eq_false, Bool.or_eq_true, not_or,
      Option.not_isSome_iff_eq_none] at hopened htable
    have hcreates : name ≠ [] := fun h => hname (by rw [h]; rfl)
    refine .inr ⟨⟨hcreates, ⟨hopened, htable.2⟩, htable.1⟩, _, _, _, rfl, ?_, rfl⟩
  · refine .inr ⟨fun h => ?_, rfl, by simp⟩
    simp [h.1, h.2.1] at hindex
  · refine .inr ⟨fun h => ?_, rfl, by simp⟩
    simp [h.2.2.1] at hwal
  all_goals simp only [Bool.not_eq_true', Bool.not_eq_false, Bool.or_eq_true, not_or,
    Bool.not_eq_true] at hindex hwal
  · exact .inl ⟨⟨hindex.1, hindex.2, hwal, hprepared⟩, rfl, by simp [hprepared]⟩
  · exact .inr ⟨fun h => hprepared h.2.2.2, rfl, by simp [hprepared]⟩

/-- What a database is created for: all calls succeed exactly if the file had no table, and then it
has an empty one. -/
theorem createDatabase_ok {cfg : Config F} {o : Outcome} {disk disk' : F → DbFile} {name : Str}
    {conn : Option F} {calls : List Bool} (hname : name ≠ [])
    (h : createDatabase cfg o disk name = (disk', conn, calls)) (hok : false ∉ calls) :
    conn = some (cfg.resolve (cfg.path name)) ∧
      (disk (cfg.resolve (cfg.path name))).rows = none ∧
      ∃ db, db.rows = some [] ∧ disk' = Function.update disk (cfg.resolve (cfg.path name)) db := by
  obtain ⟨-, calls', hcalls, heq⟩ | ⟨htable, db, conn', calls', hdb, hconn, heq⟩ :=
    createDatabase_cases cfg o disk name
  all_goals
    rw [heq] at h
    cases h
  · exact absurd (hcalls hname) hok
  · obtain ⟨-, hsome, -⟩ | ⟨-, -, hfalse⟩ := hconn
    · exact ⟨hsome, htable.2.2, db, hdb, rfl⟩
    · exact absurd hfalse hok

/-- An insertion that succeeds appends the row to the table. -/
theorem writeMetric_ok {o : Outcome} {disk disk' : F → DbFile} {file : F} {m : Metric}
    {calls : List Bool} (h : writeMetric o disk file m = (disk', calls)) (hok : false ∉ calls) :
    ∃ rows db, (disk file).rows = some rows ∧ db.rows = some (rows ++ [rowOf m]) ∧
      disk' = Function.update disk file db := by
  rw [writeMetric] at h
  split at h
  · next rows hrows =>
    split at h
    · obtain ⟨rfl, rfl⟩ := h
      exact ⟨rows, _, hrows, rfl, rfl⟩
    · obtain ⟨-, rfl⟩ := h
      simp at hok
  · obtain ⟨-, rfl⟩ := h
    simp at hok

end

/-- The connections by name, and the files: names and files of the connections are distinct, and
the connected files have their table. -/
structure Databases (F : Type*) where
  store : List (Str × F)
  disk : F → DbFile
  names_nodup : (store.map Prod.fst).Nodup
  files_nodup : (store.map Prod.snd).Nodup
  table : ∀ p ∈ store, (disk p.2).rows ≠ none

end SimpleTSDB.Datastore
