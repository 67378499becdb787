import SimpleTSDB.Datastore.Sessions
import SimpleTSDB.Http.Answer

/-!
# Reading what has been written

In every state of a run of the datastore the rows of a metric are those of the start and the metrics
that have been written with its name, in order (`rowsOf_of_run`). A request is answered from them
(`request_reads`).
-/

namespace SimpleTSDB.Http

open Datastore Query Sqlite Transducer

variable {F : Type*} {d : Databases F}

/-- The rows of a metric at the start and the metrics that have been written since; a metric is
known if it was at the start, or if it has been written. -/
def heldRows (d : Databases F) (done : List Metric) (name : Str) : Option (List Row) :=
  if (rowsOf (started d) name).isSome || (done.map Metric.name).contains name then
    some ((rowsOf (started d) name).getD [] ++ (done.filter (·.name = name)).map rowOf)
  else none

/-- A metric of the start has the rows of its file. -/
theorem rowsOf_started {name : Str} {file : F} (h : (name, file) ∈ d.store) :
    ∃ rows, rowsOf (started d) name = some rows ∧ (d.disk file).rows = some rows := by
  obtain ⟨rows, hrows⟩ := Option.ne_none_iff_exists'.mp (d.table _ h)
  refine ⟨rows, ?_, hrows⟩
  cases hlookup : d.store.lookup name with
  | none => exact absurd (List.mem_map_of_mem h) (not_mem_of_lookup hlookup)
  | some file' =>
    have heq := List.inj_on_of_nodup_map d.names_nodup (mem_of_lookup hlookup) h rfl
    obtain rfl := congrArg Prod.snd heq
    exact Option.bind_eq_some_iff.mpr ⟨file', hlookup, hrows⟩

/-- Another metric has none. -/
theorem rowsOf_started_eq_none {name : Str} (h : name ∉ d.store.map Prod.fst) :
    rowsOf (started d) name = none := by
  cases hlookup : d.store.lookup name with
  | none => rw [rowsOf, started, hlookup, Option.bind_none]
  | some file => exact absurd (List.mem_map_of_mem (mem_of_lookup hlookup)) h

variable [DecidableEq F]

/-- **The rows of a metric in a run.** -/
theorem rowsOf_of_run {cfg : Config F} {as : List Action} {s : State F} {o : List (Event F)}
    (h : run (step cfg) (started d) as = some (s, o))
    (hnames : ∀ m, .enqueue m ∈ as → m.name ≠ []) (hstop : StopsLast as) (hok : AllOk o)
    (hopen : s.pc ≠ .stopped) (name : Str) : rowsOf s name = heldRows d (written s o) name := by
  have hinv := inv_of_run h hnames hstop hok
  have hfiled := hinv.filed_written.2
  obtain ⟨done, hdone, hconn⟩ := connected_of_run (P := fun _ => True) h hnames hstop hok
    (fun _ _ => trivial) (fun _ _ => trivial) trivial fun _ _ => trivial
  have hstore := hinv.store_eq hopen
  rw [written_eq hdone] at hfiled ⊢
  simp only [heldRows, Bool.or_eq_true, List.contains_iff_mem]
  cases hlookup : s.store.lookup name with
  | none =>
    have hnot := not_mem_of_lookup hlookup
    rw [hstore, List.map_append, List.mem_append, not_or] at hnot
    rw [rowsOf, hlookup, Option.bind_none, if_neg]
    rintro (hsome | hmem)
    · rw [rowsOf_started_eq_none hnot.1] at hsome
      cases hsome
    · obtain ⟨m, hm, rfl⟩ := List.mem_map.mp hmem
      have hknown := hfiled.known m hm
      rw [List.map_append, List.mem_append] at hknown
      exact hknown.elim hnot.1 hnot.2
  | some file =>
    have hmem := mem_of_lookup hlookup
    rw [hstore] at hmem
    rw [rowsOf, hlookup, Option.bind_some, hfiled.rows _ hmem]
    rcases List.mem_append.mp hmem with hold | hnew
    · obtain ⟨rows, hrows, hfile⟩ := rowsOf_started hold
      rw [hrows, hfile, if_pos (.inl rfl)]
    · -- a name that has been connected since had no rows
      have hc := hconn _ hnew
      have hnot : name ∉ d.store.map Prod.fst := by
        have hnodup := hfiled.names_nodup
        rw [List.map_append] at hnodup
        exact fun hold => List.disjoint_of_nodup_append hnodup hold (List.mem_map_of_mem hnew)
      rw [rowsOf_started_eq_none hnot, hc.table, if_pos (.inr hc.filed)]

/-- **A request is answered from what has been written**, in every state of a run in which the
calls of SQLite succeed: a client reads an answer for every subquery whose metric was in the data
directory or has been written since, from the rows of the start and the metrics that have been
written. -/
theorem request_reads (tc : ToChars) (sqlite : Engine)
    (aggregate : Aggregator → List Double → Option Double) (cfg : Config F) (d : Databases F)
    (as : List Action) (s : State F) (o : List (Event F)) (now : BitVec 64) (r : QueryRequest)
    (htc : tc.WritesNumbers)
    (hfns : ∀ a : Aggregator, sqlite.functions a.text = some (aggregate a))
    (h : run (step cfg) (started d) as = some (s, o)) (hput : ∀ m, .enqueue m ∈ as → m.name ≠ [])
    (hstop : StopsLast as) (hok : AllOk o) (hopen : s.pc ≠ .stopped) (hnow : now.toNat < 2 ^ 63)
    (hago : r.ago ≤ now.toNat) (hnames : ∀ q ∈ r.subqueries, IsBytes q.metric ∧
      '%' ∉ q.metric ∧ (dumpEscaped q.metric).isSome) :
    ∃ text entries, apiQueryHandler tc sqlite s now "GET".toList (some r.text) =
        some ([.send okHeader, .send text], 200) ∧ readResponse text = some entries ∧
      List.Forall₂ (fun q => IsAnswer tc aggregate (now.toNat - r.ago) now.toNat
          ((heldRows d (written s o) q.metric).getD []) q)
        (r.subqueries.filter fun q => (heldRows d (written s o) q.metric).isSome) entries := by
  have hrows : ∀ name, rowsOf s name = heldRows d (written s o) name :=
    rowsOf_of_run h hput hstop hok hopen
  simp only [← hrows]
  exact exists_answer tc htc hfns hnow hago hnames

/-- The parts of the filter of the subquery, within the limits. -/
theorem inLimits_hostFilter : InLimits [hostFilter.parts] := by
  constructor <;> decide +kernel

/-- A subquery for the metric of the value 0. -/
def cpuSubQuery : SubQuery where
  agg := .max
  metric := "cpu".toList
  filters := [hostFilter]
  downsampler := none
  filters_ne := by decide
  colon_not_mem := by decide
  brace_not_mem := by decide
  downsampler_spec := nofun
  interval_ne := by decide
  limits := inLimits_hostFilter
  amp_not_mem := by decide
  nul_not_mem := by decide

/-- A request for the last five seconds. -/
def cpuRequest : QueryRequest where
  size := "5".toList
  unit := .s
  subqueries := [cpuSubQuery]
  size_ne := by decide
  digits := by decide

theorem cpuRequest_names : ∀ q ∈ cpuRequest.subqueries, IsBytes q.metric ∧ '%' ∉ q.metric ∧
    (dumpEscaped q.metric).isSome := by
  rw [cpuRequest, List.forall_mem_singleton]
  unfold IsBytes
  decide

/-- The functions of `singleValue`. -/
theorem functions_singleValue (a : Aggregator) :
    singleValue.functions a.text = some List.head? := by
  cases a <;> rfl

/-- A metric is written and read. -/
theorem request_reads_example : ∃ (s : State Str) (text : Str) (e : Str × List Dps),
    apiQueryHandler zeroChars singleValue s 5 "GET".toList (some cpuRequest.text) =
        some ([.send okHeader, .send text], 200) ∧
      readResponse text = some [e] ∧
      IsAnswer zeroChars (fun _ => List.head?) 0 5 [rowOf cpuMetric] cpuSubQuery e := by
  have hrun : ∃ p ∈ run (step plainConfig) (started noDatabases) (writeRun cpuMetric),
      AllOk p.2 ∧ p.1.pc ≠ .stopped ∧ written p.1 p.2 = [cpuMetric] := by
    decide +kernel
  obtain ⟨⟨s, o⟩, hrun, hok, hopen, hwritten⟩ := hrun
  obtain ⟨text, entries, hsent, hread, hall⟩ := request_reads zeroChars singleValue
    (fun _ => List.head?) plainConfig noDatabases (writeRun cpuMetric) s o 5 cpuRequest
    zeroChars_writesNumbers functions_singleValue hrun
    (by simp [writeRun, cpuMetric, Metric.ofFields]) (by simp [StopsLast, writeRun]) hok hopen
    (by decide) (by decide) cpuRequest_names
  rw [hwritten] at hall
  obtain ⟨e, es, he, hes, rfl⟩ := List.forall₂_cons_left_iff.mp hall
  obtain rfl := List.forall₂_nil_left_iff.mp hes
  exact ⟨s, text, e, hsent, hread, he⟩

end SimpleTSDB.Http
