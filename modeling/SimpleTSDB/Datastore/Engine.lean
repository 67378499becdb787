import Mathlib.Data.List.Dedup
import SimpleTSDB.Datastore.Database

/-!
# SQLite behind a query

A statement that the program writes is run by the model: the selected rows are grouped by their
timestamps, and each group is a row of the result, up to the first whose aggregate fails. The text
of a query is spliced into the statement, so that there are others; what SQLite makes of those, and
of a pattern that is too long for `like`, is a parameter (`Engine`), as are the functions. SQLite
refuses statements that are too long or too deep.
-/

namespace SimpleTSDB.Datastore

open Sqlite Transducer

/-- `ResultSet::dps`. -/
structure Dps where
  timestamp : BitVec 64
  value : Double
deriving DecidableEq

/-- The result of a call of `sqlite3_step`. -/
inductive StepResult where
  | row (d : Dps)
  | done
  | error
deriving DecidableEq

/-- The functions of SQLite by their names in lower case: what they make of the values of a group,
where `none` is an error, such as the sum of integers that is none of 64 bits. -/
abbrev Functions := Str → Option (List Double → Option Double)

/-- What the model does not decide of SQLite: the functions, and which other statements on the table
are accepted and what `sqlite3_step` returns for them. -/
structure Engine where
  functions : Functions
  accepts : Str → Bool
  returns : Str → List Row → (ℕ → BitVec 64) → List StepResult
  /-- A statement that ends inside a literal is an error. -/
  literal_closed : ∀ sql s ts, run lexStep .blank sql = some (.literal s, ts) → accepts sql = false

/-- A prepared statement, and what it is read as if the model runs it. -/
structure Statement where
  sql : Str
  select : Option Select
deriving DecidableEq

/-- `sqlite3_prepare_v2`: `none` is an error, and a text without a statement gives a null
pointer. The texts of the program without a statement are empty. -/
def Engine.prepare (e : Engine) (db : DbFile) (sql : Str) : Option (Option Statement) :=
  if sql = [] then some none
  else if db.rows.isSome ∧ sql.length ≤ maxSqlLength then
    match Select.ofProgram sql with
    | some s =>
      if (e.functions s.agg).isSome ∧ s.height ≤ maxExprDepth then
        some (some ⟨sql, if s.ShortPatterns then some s else none⟩)
      else none
    | none => if e.accepts sql then some (some ⟨sql, none⟩) else none
  else none

/-- The groups of the selected rows, in the order of their timestamps. -/
def groups (s : Select) (aggregate : List Double → Option Double) (params : ℕ → BitVec 64)
    (rows : List Row) : List (BitVec 64 × Option Double) :=
  let selected := rows.filter fun row => s.Selects params row
  let times := (selected.map Row.timestamp).dedup.mergeSort fun a b => a.toInt ≤ b.toInt
  times.map fun t => (t, aggregate ((selected.filter (·.timestamp = t)).map Row.value))

/-- The rows of the groups, up to the first one that fails. -/
def groupResults : List (BitVec 64 × Option Double) → List StepResult
  | [] => [.done]
  | (t, some v) :: gs => .row ⟨t, v⟩ :: groupResults gs
  | (_, none) :: _ => [.error]

variable {F : Type*}

/-- The calls of `sqlite3_step` for a statement with its parameters bound. -/
def Engine.stepResults (e : Engine) (disk : F → DbFile) (stmt : F × Statement)
    (params : ℕ → BitVec 64) : List StepResult :=
  match (disk stmt.1).rows, stmt.2.select with
  | none, _ => [.error]
  | some rows, none => e.returns stmt.2.sql rows params
  | some rows, some s =>
    match e.functions s.agg with
    | some aggregate => groupResults (groups s aggregate params rows)
    | none => [.error]

/-! ## Prepared statements -/

/-- **What is prepared**: there is a table, and a statement that the model runs is one of the
program with a known function. -/
theorem Engine.prepare_spec {e : Engine} {db : DbFile} {sql : Str} {stmt : Statement}
    (h : e.prepare db sql = some (some stmt)) : db.rows.isSome ∧
      ∀ s, stmt.select = some s → Select.ofProgram sql = some s ∧ (e.functions s.agg).isSome := by
  rw [Engine.prepare] at h
  by_cases hempty : sql = []
  · rw [if_pos hempty] at h
    cases h
  rw [if_neg hempty, Option.ite_none_right_eq_some] at h
  obtain ⟨⟨htable, -⟩, h⟩ := h
  refine ⟨htable, fun s hs => ?_⟩
  cases htext : Select.ofProgram sql with
  | none =>
    simp only [htext, Option.ite_none_right_eq_some] at h
    obtain rfl := Option.some.inj (Option.some.inj h.2)
    cases hs
  | some s' =>
    simp only [htext, Option.ite_none_right_eq_some] at h
    obtain ⟨⟨hagg, -⟩, h⟩ := h
    obtain rfl := Option.some.inj (Option.some.inj h)
    obtain ⟨-, heq⟩ := Option.ite_none_right_eq_some.mp hs
    obtain rfl := Option.some.inj heq
    exact ⟨rfl, hagg⟩

/-- **A statement of the program within the limits is prepared.** -/
theorem Engine.prepare_eq {e : Engine} {db : DbFile} {sql : Str} {s : Select}
    (htable : db.rows ≠ none) (hs : Select.ofProgram sql = some s)
    (hagg : (e.functions s.agg).isSome) (hfits : s.WithinLimits sql) :
    e.prepare db sql = some (some ⟨sql, some s⟩) := by
  rw [Engine.prepare, if_neg (ne_nil_of_ofProgram hs),
    if_pos ⟨Option.isSome_iff_ne_none.mpr htable, hfits.length⟩, hs]
  dsimp only
  rw [if_pos ⟨hagg, hfits.height⟩, if_pos hfits.patterns]

/-- A statement of the program is prepared only if it is neither too long nor too deep. -/
theorem Engine.prepare_isSome_iff {e : Engine} {db : DbFile} {sql : Str} {s : Select}
    (htable : db.rows ≠ none) (hs : Select.ofProgram sql = some s)
    (hagg : (e.functions s.agg).isSome) :
    (e.prepare db sql).isSome ↔ sql.length ≤ maxSqlLength ∧ s.height ≤ maxExprDepth := by
  rw [Engine.prepare, if_neg (ne_nil_of_ofProgram hs)]
  by_cases hlen : sql.length ≤ maxSqlLength
  · rw [if_pos ⟨Option.isSome_iff_ne_none.mpr htable, hlen⟩, hs]
    by_cases hheight : s.height ≤ maxExprDepth
    · simp [hlen, hheight, hagg]
    · simp [hheight]
  · simp [hlen]

/-- A statement that ends inside a literal is not prepared. -/
theorem Engine.prepare_literal (e : Engine) (db : DbFile) {sql s : Str} {ts : List Token}
    (hne : sql ≠ []) (h : run lexStep .blank sql = some (.literal s, ts)) :
    e.prepare db sql = none := by
  have hs : Select.ofProgram sql = none := by
    rw [Select.ofProgram, Select.ofText, lex, h]
    rfl
  rw [Engine.prepare, if_neg hne, hs, e.literal_closed sql s ts h]
  simp

/-! ## Groups -/

/-- The points are the groups of the rows by their timestamps, in order, with the aggregates of
their values, up to the first that fails. -/
structure IsGrouped (aggregate : List Double → Option Double) (rows : List Row)
    (points : List Dps) : Prop where
  sorted : points.Pairwise fun d d' => d.timestamp.toInt < d'.timestamp.toInt
  mem_iff : ∀ d, d ∈ points ↔ d.timestamp ∈ rows.map Row.timestamp ∧
    aggregate ((rows.filter (·.timestamp = d.timestamp)).map Row.value) = some d.value ∧
    ∀ row ∈ rows, row.timestamp.toInt ≤ d.timestamp.toInt →
      (aggregate ((rows.filter (·.timestamp = row.timestamp)).map Row.value)).isSome

/-- The loop of `Execute`: the rows up to the first call that does not return one. -/
def fetch : List StepResult → List Dps
  | .row d :: rs => d :: fetch rs
  | _ => []

/-- The fetched rows are in the order of the groups. -/
theorem fetch_groupResults_sublist (f : BitVec 64 → Option Double) (times : List (BitVec 64)) :
    ((fetch (groupResults (times.map fun t => (t, f t)))).map Dps.timestamp).Sublist times := by
  induction times with
  | nil => exact .slnil
  | cons t times ih =>
    rw [List.map_cons]
    cases f t with
    | none => exact List.nil_sublist _
    | some v => exact ih.cons_cons t

/-- What is fetched: the groups in front of which, and in which, nothing fails. -/
theorem mem_fetch_groupResults {f : BitVec 64 → Option Double} {times : List (BitVec 64)}
    (h : times.Pairwise fun a b => a.toInt < b.toInt) (d : Dps) :
    d ∈ fetch (groupResults (times.map fun t => (t, f t))) ↔ d.timestamp ∈ times ∧
      f d.timestamp = some d.value ∧
      ∀ t ∈ times, t.toInt ≤ d.timestamp.toInt → (f t).isSome := by
  induction times with
  | nil => simp [groupResults, fetch]
  | cons t times ih =>
    rw [List.pairwise_cons] at h
    rw [List.map_cons]
    cases hv : f t with
    | none =>
      refine iff_of_false List.not_mem_nil ?_
      rintro ⟨hmem, -, hall⟩
      have hle : t.toInt ≤ d.timestamp.toInt := by
        rcases List.mem_cons.mp hmem with heq | hmem
        · rw [heq]
        · exact (h.1 _ hmem).le
      have hsome := hall t List.mem_cons_self hle
      rw [hv] at hsome
      cases hsome
    | some v =>
      rw [groupResults, fetch, List.mem_cons, ih h.2, List.mem_cons, List.forall_mem_cons]
      constructor
      · rintro (rfl | ⟨hmem, hvalue, hall⟩)
        · refine ⟨.inl rfl, hv, fun _ => by rw [hv]; rfl, fun u hu hle => ?_⟩
          exact absurd (h.1 u hu) (not_lt.mpr hle)
        · exact ⟨.inr hmem, hvalue, fun _ => by rw [hv]; rfl, hall⟩
      · rintro ⟨heq | hmem, hvalue, -, hall⟩
        · left
          rw [heq, hv] at hvalue
          cases d
          obtain rfl := heq
          exact congrArg _ (Option.some.inj hvalue).symm
        · exact .inr ⟨hmem, hvalue, hall⟩

/-- **The statement groups the rows that it selects.** -/
theorem isGrouped_groups (s : Select) (aggregate : List Double → Option Double)
    (params : ℕ → BitVec 64) (rows : List Row) :
    IsGrouped aggregate (rows.filter fun row => s.Selects params row)
      (fetch (groupResults (groups s aggregate params rows))) := by
  have hsorted : ∀ l : List (BitVec 64), l.Nodup →
      (l.mergeSort fun a b => a.toInt ≤ b.toInt).Pairwise fun a b => a.toInt < b.toInt := by
    intro l hl
    have hle := @List.pairwise_mergeSort _ (fun a b : BitVec 64 => a.toInt ≤ b.toInt)
      (by simp only [decide_eq_true_eq]; omega)
      (by simp only [Bool.or_eq_true, decide_eq_true_eq]; omega) l
    refine (hle.and (List.nodup_mergeSort.mpr hl)).imp fun {a b} h => ?_
    have hne := BitVec.toInt_inj.not.mpr h.2
    have := of_decide_eq_true h.1
    omega
  have htimes := hsorted ((rows.filter fun row => s.Selects params row).map Row.timestamp).dedup
    (List.nodup_dedup _)
  constructor
  · have hfetched : ((fetch (groupResults (groups s aggregate params rows))).map
        Dps.timestamp).Pairwise fun a b => a.toInt < b.toInt :=
      htimes.sublist (fetch_groupResults_sublist _ _)
    rwa [List.pairwise_map] at hfetched
  · intro d
    rw [groups, mem_fetch_groupResults htimes]
    simp only [List.mem_mergeSort, List.mem_dedup, List.forall_mem_map]

namespace IsGrouped

variable {aggregate : List Double → Option Double} {rows : List Row} {points : List Dps}

/-- The groups have different timestamps. -/
theorem nodup (h : IsGrouped aggregate rows points) : (points.map Dps.timestamp).Nodup :=
  List.pairwise_map.mpr (h.sorted.imp fun hlt heq => absurd (congrArg BitVec.toInt heq) hlt.ne)

/-- A row has a group, if no aggregate fails up to its timestamp. -/
theorem exists_mem (h : IsGrouped aggregate rows points) {row : Row} (hrow : row ∈ rows)
    (hvalues : ∀ row' ∈ rows, row'.timestamp.toInt ≤ row.timestamp.toInt →
      (aggregate ((rows.filter (·.timestamp = row'.timestamp)).map Row.value)).isSome) :
    ∃ d ∈ points, d.timestamp = row.timestamp := by
  obtain ⟨v, hv⟩ := Option.isSome_iff_exists.mp (hvalues row hrow le_rfl)
  exact ⟨⟨row.timestamp, v⟩, (h.mem_iff _).mpr ⟨List.mem_map_of_mem hrow, hv, hvalues⟩, rfl⟩

/-- There are groups exactly if there is a row up to whose timestamp no aggregate fails. -/
theorem ne_nil_iff (h : IsGrouped aggregate rows points) : points ≠ [] ↔
    ∃ row ∈ rows, ∀ row' ∈ rows, row'.timestamp.toInt ≤ row.timestamp.toInt →
      (aggregate ((rows.filter (·.timestamp = row'.timestamp)).map Row.value)).isSome := by
  constructor
  · intro hne
    obtain ⟨d, hd⟩ := List.exists_mem_of_ne_nil _ hne
    obtain ⟨hmem, -, hall⟩ := (h.mem_iff d).mp hd
    obtain ⟨row, hrow, heq⟩ := List.mem_map.mp hmem
    exact ⟨row, hrow, heq ▸ hall⟩
  · rintro ⟨row, hrow, hall⟩
    obtain ⟨d, hd, -⟩ := h.exists_mem hrow hall
    exact List.ne_nil_of_mem hd

end IsGrouped

/-- A statement that the model runs returns the rows of its groups. -/
theorem Engine.stepResults_select {e : Engine} {disk : F → DbFile} {file : F} {stmt : Statement}
    {s : Select} (hs : stmt.select = some s) {aggregate : List Double → Option Double}
    (hagg : e.functions s.agg = some aggregate) {rows : List Row}
    (hrows : (disk file).rows = some rows) (params : ℕ → BitVec 64) :
    e.stepResults disk (file, stmt) params = groupResults (groups s aggregate params rows) := by
  simp only [Engine.stepResults, hrows, hs, hagg]

end SimpleTSDB.Datastore
