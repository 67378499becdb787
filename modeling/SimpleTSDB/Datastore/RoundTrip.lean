import SimpleTSDB.Datastore.Drain
import SimpleTSDB.Datastore.ResultSet
import SimpleTSDB.Http.Put
import SimpleTSDB.Query.Selection
import SimpleTSDB.Query.TagQuery

/-!
# From a put to a query

A datapoint that a front end has accepted and that the datastore has written is found by a query for
its name and any one of its tags, if the query language can express the two (`Readable`): the writer
accepts the delimiters of queries in names and tags, and there is no escape for them.
-/

namespace SimpleTSDB.Datastore

open Delimited Transducer Sqlite Query

/-- A front end has queued the metric, for the bytes of a telnet connection or a posted body. -/
def Put (m : Metric) : Prop :=
  (∃ bytes line es, run Telnet.byteStep [] bytes = some (line, es) ∧ m ∈ queued es) ∨
    ∃ body es status, Http.apiPutHandler "POST".toList body = some (es, status) ∧ m ∈ queued es

/-- The query part for the name and the tag is cut where it should be: the name has no delimiter
that ends it, something is left of the tag before the first closing brace, without a colon, and none
of its comma-separated pieces has an empty value. The statement of these pieces is within the limits
of SQLite. -/
structure Readable (name tag : Str) : Prop where
  colon_not_mem : ':' ∉ name
  brace_not_mem : '{' ∉ name
  read_ne : readPart tag ≠ []
  colon_not_mem_read : ':' ∉ readPart tag
  value_ne : ∀ filter ∈ fields ',' (readPart tag), ¬ EmptyValue filter
  limits : InLimits (keptFilters (readPart tag))

variable {F : Type*}

/-- The metric has been written in a run in which the calls of SQLite succeed, and the datastore is
still open. -/
def Written [DecidableEq F] (cfg : Config F) (d : Databases F) (s : State F) (m : Metric) : Prop :=
  s.pc ≠ .stopped ∧ ∃ as o, run (step cfg) (started d) as = some (s, o) ∧
    (∀ m, .enqueue m ∈ as → m.name ≠ []) ∧ StopsLast as ∧ AllOk o ∧ m ∈ written s o

/-- The query part for the name of the metric and the tag has the result set, which is one for that
name. -/
def ResolvesTo (e : Engine) (s : State F) (m : Metric) (tag : Str) (rs : ResultSet F) : Prop :=
  prepareQuery e s (ofText (tagQuery m.name tag)) = some rs ∧ rs.metric = m.name

/-- The result set returns the timestamp of the metric for the window. -/
def ResultSet.Finds (e : Engine) (s : State F) (m : Metric) (startTime endTime : BitVec 64)
    (rs : ResultSet F) : Prop :=
  let p := rs.execute (e.stepResults s.disk) startTime endTime []
  p.1 = true ∧ ∃ dps ∈ p.2, dps.timestamp = m.timestamp

/-! ## What was put -/

/-- A queued metric is the parser's for filtered text. -/
theorem accepted_of_put {m : Metric} (h : Put m) :
    ∃ line, CleanLine line ∧ Metric.accepted line = some m := by
  rcases h with ⟨bytes, line, es, hrun, hm⟩ | ⟨body, es, status, hput, hm⟩
  · exact Telnet.accepted_of_session hrun hm
  · rw [Http.apiPutHandler, if_neg (not_not_intro rfl)] at hput
    split at hput
    · exact Http.accepted_of_putLoop hput hm
    · obtain ⟨rfl, -⟩ := Prod.mk.inj (Option.some.inj hput)
      simp [queued] at hm

theorem put_of_mem_httpQueued {L : Str} {m : Metric} (h : m ∈ Http.httpQueued L) : Put m := by
  rw [Http.httpQueued] at h
  cases hput : Http.apiPutHandler "POST".toList L with
  | none =>
    rw [hput] at h
    exact absurd h List.not_mem_nil
  | some p =>
    rw [hput] at h
    exact .inr ⟨L, p.1, p.2, hput, h⟩

/-- A tag of a tags text occurs in it. -/
theorem infix_of_mem_tags {ts : List Tag} {t : Tag} (ht : t ∈ ts) : t.text <:+: tagsText ts := by
  have hmem : t.text ∈ (tagsText ts).splitOn ' ' := by
    rw [splitOn_tagsText (List.ne_nil_of_mem ht)]
    exact List.mem_map_of_mem ht
  obtain ⟨-, p, q, htext, -, -⟩ := mem_splitOn_iff.mp hmem
  exact ⟨p, q, by rw [htext, List.append_assoc]⟩

variable [DecidableEq F]

/-- A written metric has a connection under its name, and its row is in the file. -/
theorem exists_row_of_written {cfg : Config F} {d : Databases F} {s : State F} {m : Metric}
    (h : Written cfg d s m) : ∃ file rows, s.store.lookup m.name = some file ∧
      (s.disk file).rows = some rows ∧ rowOf m ∈ rows := by
  obtain ⟨hopen, as, o, hrun, hnames, hstop, hok, hm⟩ := h
  have hinv := inv_of_run hrun hnames hstop hok
  have hfiled := hinv.filed_written.2
  rw [← hinv.store_eq hopen] at hfiled
  cases hfile : s.store.lookup m.name with
  | none => exact absurd (hfiled.known m hm) (not_mem_of_lookup hfile)
  | some file =>
    refine ⟨file, _, rfl, hfiled.rows _ (mem_of_lookup hfile), List.mem_append_right _ ?_⟩
    exact List.mem_map_of_mem (List.mem_filter.mpr ⟨hm, by simp⟩)

/-! ## The round trip -/

/-- **What was put can be queried** by its name and any of its tags, for every window for which no
sum fails up to its timestamp. -/
theorem put_queryable (e : Engine) (hsum : (e.functions "sum".toList).isSome) (cfg : Config F)
    (d : Databases F) (s : State F) (m : Metric) (hput : Put m) (hwritten : Written cfg d s m)
    (ts : List Tag) (htags : m.tags = tagsText ts) (t : Tag) (ht : t ∈ ts)
    (hread : Readable m.name t.text) :
    ∃ rs, ResolvesTo e s m t.text rs ∧ ∀ startTime endTime,
      InWindow startTime endTime (rowOf m) →
        rs.Computes e s.disk startTime endTime m.timestamp → rs.Finds e s m startTime endTime := by
  obtain ⟨line, hclean, hacc⟩ := accepted_of_put hput
  have hmtags : CleanLine m.tags := hclean.mono (Metric.tags_suffix_of_accepted hacc).subset
  have hinfix : t.text <:+: m.tags := htags ▸ infix_of_mem_tags ht
  have htext : CleanLine t.text := hmtags.mono hinfix.subset
  obtain ⟨hmetric, hnul, stmt, hstmt, hagg, hfits, hsel⟩ := tagQuery_selects hread.colon_not_mem
    hread.brace_not_mem htext.quote_not_mem htext.nul_not_mem hread.read_ne
    hread.colon_not_mem_read hread.value_ne
  obtain ⟨file, rows, hfile, hrows, hrow⟩ := exists_row_of_written hwritten
  have hfn : (e.functions stmt.agg).isSome := hagg ▸ hsum
  obtain ⟨rs, hrs, hquery⟩ : ∃ rs, prepareQuery e s (ofText (tagQuery m.name t.text)) = some rs ∧
      rs.query = some (file, ⟨(ofText (tagQuery m.name t.text)).query, some stmt⟩) :=
    ⟨_, prepareQuery_eq (hmetric.symm ▸ hfile) (by simp [hrows]) hnul hstmt hfn
      (hfits hread.limits), rfl⟩
  refine ⟨rs, ⟨hrs, (metric_of_prepareQuery hrs).trans hmetric⟩,
    fun startTime endTime hwin hcomputes => ?_⟩
  have hrowsel : stmt.Selects (bound startTime endTime) (rowOf m) := by
    refine hsel _ _ ?_ hwin.1 hwin.2
    rw [rowOf, hmtags.cstr_eq]
    exact hinfix
  obtain ⟨aggregate, hfn⟩ := Option.isSome_iff_exists.mp hfn
  obtain ⟨hok, hgrouped⟩ := isGrouped_execute hquery rfl hfn hrows startTime endTime
  exact ⟨hok, hgrouped.exists_mem (List.mem_filter.mpr ⟨hrow, decide_eq_true hrowsel⟩)
    (hcomputes file _ stmt aggregate rows hquery rfl hfn hrows)⟩

/-- A function `sum` that is right for one value; no statement but those of the program is
accepted. -/
def sumOfOne : Engine where
  functions name := if name = "sum".toList then some List.head? else none
  accepts _ := false
  returns _ _ _ := [.error]
  literal_closed _ _ _ _ := rfl

omit [DecidableEq F] in
/-- The first value of a group does not fail. -/
theorem computes_sumOfOne (disk : F → DbFile) (startTime endTime : BitVec 64) (rs : ResultSet F)
    (time : BitVec 64) : rs.Computes sumOfOne disk startTime endTime time := by
  intro file stmt s aggregate rows _ _ hagg _ selected row hrow _
  obtain ⟨-, heq⟩ := Option.ite_none_right_eq_some.mp hagg
  obtain rfl := Option.some.inj heq
  have hmem : row.value ∈ (selected.filter (·.timestamp = row.timestamp)).map Row.value :=
    List.mem_map_of_mem (List.mem_filter.mpr ⟨hrow, decide_eq_true rfl⟩)
  rw [List.isSome_head?]
  simpa using List.ne_nil_of_mem hmem

/-- A run in which a metric is queued and written. -/
def writeRun (m : Metric) : List Action :=
  [.enqueue m, .count, .process, .dequeue [m], .element ⟨true, true, true, true, true, true⟩]

/-- The tag `host=web01` is within the limits. -/
theorem inLimits_webTag : InLimits (keptFilters (readPart webTag.text)) := by
  have hkept : keptFilters (readPart webTag.text) = [("host".toList, "web01".toList)] := by
    unfold keptFilters filterParts
    simp only [splitString_eq_fields]
    decide
  rw [hkept]
  exact inLimits_singleton (by rw [splitString_eq_fields]; decide) (by decide)

/-- A posted line is queued, written and found by its tag. -/
theorem put_queryable_example : ∃ s rs, Written plainConfig noDatabases s cpuMetric ∧
    ResolvesTo sumOfOne s cpuMetric "host=web01".toList rs ∧ rs.Finds sumOfOne s cpuMetric 0 9 := by
  have hput : Put cpuMetric := by
    refine put_of_mem_httpQueued (L := "cpu 1 0 host=web01".toList) ?_
    rw [Http.httpQueued_eq (by decide) (by decide)]
    decide
  have hrun : ∃ p ∈ run (step plainConfig) (started noDatabases) (writeRun cpuMetric),
      p.1.pc ≠ .stopped ∧ AllOk p.2 ∧ cpuMetric ∈ written p.1 p.2 := by decide +kernel
  obtain ⟨⟨s, o⟩, hrun, hopen, hok, hm⟩ := hrun
  have hwritten : Written plainConfig noDatabases s cpuMetric :=
    ⟨hopen, _, o, hrun, by simp [writeRun, cpuMetric, Metric.ofFields],
      by simp [StopsLast, writeRun], hok, hm⟩
  obtain ⟨rs, hrs, hfinds⟩ := put_queryable sumOfOne rfl plainConfig noDatabases s cpuMetric hput
    hwritten [webTag] rfl webTag (by simp) ⟨by decide, by decide, by decide, by decide,
      value_ne_of_getLast (by decide) (by decide), inLimits_webTag⟩
  exact ⟨s, rs, hwritten, hrs, hfinds 0 9 (by decide) (computes_sumOfOne s.disk 0 9 rs _)⟩

/-- A metric whose name has a colon. -/
def colonMetric : Metric := .ofFields "a:b".toList 1 (.fin false 0 0) "host=web01".toList

/-- A metric whose name has a colon cannot be queried. -/
theorem put_not_queryable : ¬ ∀ (e : Engine), (e.functions "sum".toList).isSome →
    ∀ (cfg : Config Str) (d : Databases Str) (s : State Str) (m : Metric), Put m →
      Written cfg d s m → m.timestamp.toNat < 2 ^ 63 → m.value.isFinite = true →
        ∀ ts : List Tag, m.tags = tagsText ts → ∀ t ∈ ts, ∃ rs, ResolvesTo e s m t.text rs ∧
          ∀ startTime endTime, InWindow startTime endTime (rowOf m) →
            rs.Finds e s m startTime endTime := by
  intro h
  have hput : Put colonMetric := by
    refine put_of_mem_httpQueued (L := "a:b 1 0 host=web01".toList) ?_
    rw [Http.httpQueued_eq (by decide) (by decide)]
    decide
  have hrun : ∃ p ∈ run (step plainConfig) (started noDatabases) (writeRun colonMetric),
      p.1.pc ≠ .stopped ∧ AllOk p.2 ∧ colonMetric ∈ written p.1 p.2 := by decide +kernel
  obtain ⟨⟨s, o⟩, hrun, hopen, hok, hm⟩ := hrun
  have hwritten : Written plainConfig noDatabases s colonMetric :=
    ⟨hopen, _, o, hrun, by simp [writeRun, colonMetric, Metric.ofFields],
      by simp [StopsLast, writeRun], hok, hm⟩
  obtain ⟨rs, ⟨hrs, hmetric⟩, -⟩ := h sumOfOne rfl plainConfig noDatabases s colonMetric hput
    hwritten (by decide) rfl [webTag] rfl webTag (by simp)
  have hname := (not_mem_metric (tagQuery colonMetric.name webTag.text)).1
  rw [← metric_of_prepareQuery hrs, hmetric] at hname
  exact hname (by decide)

end SimpleTSDB.Datastore
