import SimpleTSDB.Http.ReadBack
import SimpleTSDB.Http.Relative

/-!
# What a request is answered

A request in the documented form asks for the last hours or days, with a subquery for each of its
parts `m=`. Its answer has an element for every subquery whose metric is known (`IsAnswer`): the
rows of the metric that the subquery selects, grouped by their timestamps, aggregated and
downsampled. `exists_answer` says that a client reads the answer from the response.
-/

namespace SimpleTSDB.Http

open Datastore Delimited Query Sqlite Transducer

/-! ## Requests -/

/-- A subquery in the documented form, within the limits of SQLite; a downsampler with a method has
an interval. -/
structure SubQuery where
  agg : Aggregator
  metric : Str
  filters : List Filter
  downsampler : Option Str
  filters_ne : filters ≠ []
  colon_not_mem : ':' ∉ metric
  brace_not_mem : '{' ∉ metric
  downsampler_spec : ∀ d ∈ downsampler, d ≠ [] ∧ ':' ∉ d
  interval_ne : (Downsampler.ofType (downsampler.getD [])).method ≠ .none →
    (Downsampler.ofType (downsampler.getD [])).interval ≠ 0
  limits : InLimits (filters.map Filter.parts)
  amp_not_mem : '&' ∉ queryText agg metric filters downsampler
  nul_not_mem : '\x00' ∉ queryText agg metric filters downsampler

namespace SubQuery

variable (q : SubQuery)

def text : Str := queryText q.agg q.metric q.filters q.downsampler

/-- The row lies between the bounds and has an alternative of every filter. -/
def Selects (lower upper : ℤ) (row : Row) : Prop :=
  (lower ≤ row.timestamp.toInt ∧ row.timestamp.toInt ≤ upper) ∧
    ∀ f ∈ q.filters, ∃ v ∈ f.values, Like ('%' :: starred (f.key ++ '=' :: v) ++ ['%']) row.tags

instance (lower upper : ℤ) (row : Row) : Decidable (q.Selects lower upper row) :=
  inferInstanceAs (Decidable (_ ∧ _))

end SubQuery

/-- A request for a number of units before the current time. -/
structure QueryRequest where
  size : Str
  unit : TimeUnit
  subqueries : List SubQuery
  size_ne : size ≠ []
  digits : ∀ c ∈ size, isdigit c = true

namespace QueryRequest

variable (r : QueryRequest)

/-- The part `start=` of the query string. -/
def start : Str := "start=".toList ++ (r.size ++ r.unit.letter :: "-ago".toList)

/-- The parts of the query string. -/
def parts : List Str := r.start :: r.subqueries.map fun q => "m=".toList ++ q.text

theorem isPart_start : isPart "start=" r.start = true ∧ isPart "end=" r.start = false ∧
    isPart "m=" r.start = false := by
  have hstart : isPart "start=" r.start = true := isPart_iff.mpr ⟨_, rfl⟩
  exact ⟨hstart, not_isPart "end=" hstart (by decide), not_isPart "m=" hstart (by decide)⟩

theorem isPart_subquery (q : SubQuery) : isPart "m=" ("m=".toList ++ q.text) = true ∧
    isPart "start=" ("m=".toList ++ q.text) = false ∧
    isPart "end=" ("m=".toList ++ q.text) = false := by
  have hm : isPart "m=" ("m=".toList ++ q.text) = true := isPart_iff.mpr ⟨_, rfl⟩
  exact ⟨hm, not_isPart "start=" hm (by decide), not_isPart "end=" hm (by decide)⟩

theorem amp_not_mem : ∀ p ∈ r.parts, '&' ∉ p := by
  rw [parts, List.forall_mem_cons, List.forall_mem_map]
  constructor
  · have hsize : '&' ∉ r.size := fun h => absurd (r.digits _ h) (by decide)
    have hunit : '&' ∉ r.unit.letter :: "-ago".toList := by cases r.unit <;> decide
    have hkeyword : '&' ∉ "start=".toList := by decide
    intro h
    rcases List.mem_append.mp h with h | h
    · exact hkeyword h
    · exact (List.mem_append.mp h).elim hsize hunit
  · intro q _
    rw [List.mem_append, not_or]
    exact ⟨by decide, q.amp_not_mem⟩

/-- The bounds of the time window as a query string with a relative start. -/
def relative : RelativeQuery where
  parts := r.parts
  size := r.size
  unit := r.unit
  amp_not_mem := r.amp_not_mem
  size_ne := r.size_ne
  digits := r.digits
  starts := by
    have hnone : (r.subqueries.map fun q => "m=".toList ++ q.text).filter (isPart "start=") =
        [] := by
      rw [List.filter_eq_nil_iff, List.forall_mem_map]
      intro q _
      rw [(isPart_subquery q).2.1]
      exact Bool.false_ne_true
    rw [parts, List.filter_cons_of_pos r.isPart_start.1, hnone]
    rfl

/-- The query string. -/
def text : Str := ['&'].intercalate r.parts

/-- The number of seconds that is asked for. -/
def ago : ℕ := r.relative.ago

end QueryRequest

namespace SubQuery

variable (q : SubQuery)

/-- The compiled statement. -/
theorem exists_stmt : ∃ stmt, Select.ofProgram (ofText q.text).query = some stmt ∧
    stmt.agg = q.agg.text ∧ (ofText q.text).metric = q.metric ∧
      (ofText q.text).downsampler = q.downsampler.getD [] ∧ '\x00' ∉ (ofText q.text).query ∧
        stmt.WithinLimits (ofText q.text).query ∧
        ∀ startTime endTime row, stmt.Selects (bound startTime endTime) row ↔
          q.Selects startTime.toInt endTime.toInt row := by
  have hplain := plain_filters q.filters
  have hvalue : ∀ p ∈ q.filters.map Filter.parts, p.2 ≠ [] := fun p hp => (hplain p hp).2.2
  have hnul : ∀ p ∈ q.filters.map Filter.parts, '\x00' ∉ p.1 ∧ '\x00' ∉ p.2 := by
    rw [List.forall_mem_map]
    intro f hf
    have htext : '\x00' ∉ f.text := by
      intro hmem
      have hfilters := @mem_intercalate_of_mem _ [','] _ _ _ (List.mem_map_of_mem hf) hmem
      refine q.nul_not_mem ?_
      simp [queryText, hfilters]
    rw [Filter.text, List.mem_append, List.mem_cons, not_or, not_or] at htext
    exact ⟨not_mem_starred htext.1 (by decide), not_mem_starred htext.2.2 (by decide)⟩
  rw [text, ofText_queryText q.agg q.colon_not_mem q.brace_not_mem q.filters_ne]
  refine ⟨_, ofProgram_statementText q.agg hplain, rfl, rfl, ?_, ?_,
    q.limits.withinLimits q.agg hvalue, fun startTime endTime row => ?_⟩
  · cases hds : q.downsampler with
    | none => rfl
    | some d =>
      obtain ⟨hne, hcolon⟩ := q.downsampler_spec d hds
      simp [fields_of_not_mem hcolon hne]
  · have hhead : '\x00' ∉ headText q.agg.text := by cases q.agg <;> decide
    have htail : '\x00' ∉ tailText := by decide
    simp [hhead, htail, nul_not_mem_condsText hnul]
  · rw [selects_whereExpr hvalue]
    simp only [List.mem_map, forall_exists_index, and_imp, forall_apply_eq_imp_iff₂,
      exists_part_iff]
    rfl

end SubQuery

/-! ## Answers -/

variable {F : Type*}

/-- The rows of a metric, if it is known. -/
def rowsOf (s : State F) (metric : Str) : Option (List Row) :=
  (s.store.lookup metric).bind fun file => (s.disk file).rows

/-- The result set of a subquery. -/
def prepared (sqlite : Engine) (s : State F) (q : SubQuery) : Option (ResultSet F) :=
  prepareQuery sqlite s (ofText q.text)

/-- The element is the answer of a subquery for the rows of its metric: the name and the selected
rows, grouped, downsampled and read from their texts. -/
def IsAnswer (tc : ToChars) (aggregate : Aggregator → List Double → Option Double) (lower upper : ℤ)
    (rows : List Row) (q : SubQuery) (e : Str × List Dps) : Prop :=
  e.1 = q.metric ∧ ∃ points output,
    IsGrouped (aggregate q.agg) (rows.filter fun row => q.Selects lower upper row) points ∧
    (Downsampler.ofType (q.downsampler.getD [])).decimate points = some output ∧
    e.2.Perm ((output.filter (·.value.isFinite)).map (asRead tc))

section

variable {tc : ToChars} {sqlite : Engine} {aggregate : Aggregator → List Double → Option Double}
  {s : State F} {startTime endTime : BitVec 64}

/-- The result set of a subquery for a known metric has its statement. -/
theorem exists_prepared (hfns : ∀ a : Aggregator, sqlite.functions a.text = some (aggregate a))
    (q : SubQuery) {rows : List Row} (hrows : rowsOf s q.metric = some rows) :
    ∃ rs file stmt, prepared sqlite s q = some rs ∧
      rs.query = some (file, ⟨(ofText q.text).query, some stmt⟩) ∧
      (s.disk file).rows = some rows ∧ sqlite.functions stmt.agg = some (aggregate q.agg) ∧
      ∀ startTime endTime row, stmt.Selects (bound startTime endTime) row ↔
        q.Selects startTime.toInt endTime.toInt row := by
  obtain ⟨stmt, hstmt, hagg, hmetric, -, hnul, hfits, hsel⟩ := q.exists_stmt
  obtain ⟨file, hfile, htable⟩ := Option.bind_eq_some_iff.mp hrows
  have hfn : sqlite.functions stmt.agg = some (aggregate q.agg) := by rw [hagg, hfns]
  have hprepare := prepareQuery_eq (hmetric ▸ hfile) (by rw [htable]; exact Option.some_ne_none _)
    hnul hstmt (by rw [hfn]; rfl) hfits
  exact ⟨_, file, stmt, hprepare, rfl, htable, hfn, hsel⟩

/-- The result set of a subquery for a known metric is answered from the rows of the metric. -/
theorem prepared_known (hfns : ∀ a : Aggregator, sqlite.functions a.text = some (aggregate a))
    (q : SubQuery) {rows : List Row} (hrows : rowsOf s q.metric = some rows) :
    ∃ rs, prepared sqlite s q = some rs ∧ rs.query.isSome ∧ ∀ e,
      Answers tc sqlite s startTime endTime rs e →
        IsAnswer tc aggregate startTime.toInt endTime.toInt rows q e := by
  obtain ⟨rs, file, stmt, hrs, hquery, htable, hfn, hsel⟩ := exists_prepared hfns q hrows
  obtain ⟨-, -, -, hmetric, hdownsampler, -⟩ := q.exists_stmt
  refine ⟨rs, hrs, by rw [hquery]; rfl, ?_⟩
  rintro e ⟨hname, output, houtput, hpoints⟩
  have hgrouped := (isGrouped_execute hquery rfl hfn htable startTime endTime).2
  simp only [hsel] at hgrouped
  rw [downsampler_of_prepareQuery hrs, hdownsampler] at houtput
  exact ⟨hname.trans ((metric_of_prepareQuery hrs).trans hmetric), _, output, hgrouped, houtput,
    hpoints⟩

/-- A subquery for a metric that is not known has no result set. -/
theorem prepared_unknown (q : SubQuery) (hrows : rowsOf s q.metric = none) :
    prepared sqlite s q = none := by
  obtain ⟨stmt, hstmt, -, hmetric, -, hnul, -⟩ := q.exists_stmt
  rw [prepared, prepareQuery, hmetric]
  cases hfile : s.store.lookup q.metric with
  | none => rfl
  | some file =>
    rw [rowsOf, hfile, Option.bind_some] at hrows
    have hne : (ofText q.text).query ≠ [] := by
      intro h
      rw [h] at hstmt
      cases hstmt
    have hprepare : sqlite.prepare (s.disk file) (cstr (ofText q.text).query) = none := by
      rw [Engine.prepare, cstr_eq_self hnul, if_neg hne, hrows]
      exact if_neg fun h => Bool.false_ne_true h.1
    simp only [hprepare]

/-- The statement of a subquery is run by the model. -/
theorem prepared_select (hfns : ∀ a : Aggregator, sqlite.functions a.text = some (aggregate a))
    {q : SubQuery} {rs : ResultSet F} (h : prepared sqlite s q = some rs) :
    (rs.query.bind (·.2.select)).isSome := by
  cases hrows : rowsOf s q.metric with
  | none =>
    rw [prepared_unknown q hrows] at h
    cases h
  | some rows =>
    obtain ⟨rs', file, stmt, hrs', hquery, -⟩ := exists_prepared hfns q hrows
    obtain rfl := Option.some.inj (h.symm.trans hrs')
    rw [hquery]
    rfl

/-- The answers of the subqueries of known metrics. -/
theorem answers_subqueries (hfns : ∀ a : Aggregator, sqlite.functions a.text = some (aggregate a))
    {qs : List SubQuery} {entries : List (Str × List Dps)}
    (h : List.Forall₂ (Answers tc sqlite s startTime endTime)
      ((qs.filterMap (prepared sqlite s)).filter (·.query.isSome)) entries) :
    List.Forall₂ (fun q => IsAnswer tc aggregate startTime.toInt endTime.toInt
        ((rowsOf s q.metric).getD []) q)
      (qs.filter fun q => (rowsOf s q.metric).isSome) entries := by
  induction qs generalizing entries with
  | nil =>
    rw [List.filterMap_nil, List.filter_nil, List.forall₂_nil_left_iff] at h
    exact h ▸ .nil
  | cons q qs ih =>
    cases hrows : rowsOf s q.metric with
    | none =>
      rw [List.filterMap_cons_none (prepared_unknown q hrows)] at h
      rw [List.filter_cons_of_neg (by simp [hrows])]
      exact ih h
    | some rows =>
      obtain ⟨rs, hrs, hstmt, hanswer⟩ :=
        @prepared_known _ tc _ _ _ startTime endTime hfns q _ hrows
      rw [List.filterMap_cons_some hrs, List.filter_cons, if_pos hstmt,
        List.forall₂_cons_left_iff] at h
      rw [List.filter_cons_of_pos (by simp [hrows])]
      obtain ⟨e, entries, he, hall, rfl⟩ := h
      refine .cons ?_ (ih hall)
      rw [hrows, Option.getD_some]
      exact hanswer e he

end

namespace QueryRequest

variable (r : QueryRequest)

/-- The parts of the query string are found. -/
theorem partsFrom_text : partsFrom r.text 0 = r.parts := by
  rw [partsFrom_eq, ← splitString, splitString_eq_fields, text]
  refine fields_intercalate r.amp_not_mem fun hlast => ?_
  have hmem := List.mem_of_getLast? hlast
  rw [parts, List.mem_cons] at hmem
  rcases hmem with hmem | hmem
  · cases hmem
  · obtain ⟨q, -, hq⟩ := List.mem_map.mp hmem
    cases hq

/-- The answered parts are the subqueries that have a result set with a statement. -/
theorem answered_text (sqlite : Engine) (s : State F) : answered sqlite s r.text =
    (r.subqueries.filterMap (prepared sqlite s)).filter (·.query.isSome) := by
  rw [answered, partsFrom_text, parts, List.filterMap_cons, List.filterMap_map]
  have hstart : partResultSet (prepareQuery sqlite s) r.start = none := by
    rw [partResultSet, r.isPart_start.2.2]
    rfl
  have hsub : (partResultSet (prepareQuery sqlite s)) ∘
      (fun q : SubQuery => "m=".toList ++ q.text) = prepared sqlite s := by
    funext q
    rw [Function.comp_apply, partResultSet, if_pos (isPart_subquery q).1]
    rfl
  rw [hstart, hsub]

/-- The bounds of the time window. -/
theorem bounds (now : BitVec 64) (hnow : now.toNat < 2 ^ 63) (hago : r.ago ≤ now.toNat)
    (prepareQuery : Query → Option (ResultSet F)) :
    (scanQuery now prepareQuery r.text).startTime.toInt = now.toNat - r.ago ∧
      (scanQuery now prepareQuery r.text).endTime.toInt = now.toNat := by
  have hoffset : (parseTime (r.size ++ r.unit.letter :: "-ago".toList)).toNat = r.ago :=
    r.relative.toNat_parseTime.trans ((r.unit.wrapped_eq_iff _).mpr (lt_of_le_of_lt hago now.isLt))
  have hstart : (scanQuery now prepareQuery r.text).startTime =
      now - parseTime (r.size ++ r.unit.letter :: "-ago".toList) :=
    r.relative.startTime_eq now prepareQuery
  have hends : r.parts.filter (isPart "end=") = [] := by
    rw [List.filter_eq_nil_iff, parts, List.forall_mem_cons, List.forall_mem_map,
      r.isPart_start.2.1]
    refine ⟨Bool.false_ne_true, fun q _ => ?_⟩
    rw [(isPart_subquery q).2.2]
    exact Bool.false_ne_true
  have hend := (foldl_scanPart now prepareQuery (partsFrom r.text 0) ⟨0, now, []⟩).2
  rw [partsFrom_text, hends, List.foldl_nil, ← partsFrom_text] at hend
  constructor
  · rw [hstart, RelativeQuery.toInt_sub_of_le hnow (hoffset ▸ hago), hoffset]
  · have htoInt : now.toInt = now.toNat := BitVec.toInt_eq_toNat_of_lt (by omega)
    exact (congrArg BitVec.toInt hend).trans htoInt

end QueryRequest

/-- What is answered for a request is the result set of a subquery. -/
theorem QueryRequest.exists_subquery {r : QueryRequest} {sqlite : Engine} {s : State F}
    {rs : ResultSet F} (h : rs ∈ answered sqlite s r.text) : ∃ q ∈ r.subqueries,
      prepared sqlite s q = some rs ∧ rs.metric = q.metric ∧
        rs.downsampler = q.downsampler.getD [] := by
  rw [r.answered_text] at h
  obtain ⟨q, hq, hrs⟩ := List.mem_filterMap.mp (List.mem_filter.mp h).1
  obtain ⟨stmt, -, -, hmetric, hdownsampler, -⟩ := q.exists_stmt
  refine ⟨q, hq, hrs, (metric_of_prepareQuery hrs).trans hmetric, ?_⟩
  exact (downsampler_of_prepareQuery hrs).trans hdownsampler

/-- **A request is answered, and the answer is read from the response**: the answers of the
subqueries whose metric is known, in order. -/
theorem exists_answer (tc : ToChars) {sqlite : Engine}
    {aggregate : Aggregator → List Double → Option Double} {s : State F} {now : BitVec 64}
    {r : QueryRequest} (htc : tc.WritesNumbers)
    (hfns : ∀ a : Aggregator, sqlite.functions a.text = some (aggregate a))
    (hnow : now.toNat < 2 ^ 63) (hago : r.ago ≤ now.toNat)
    (hnames : ∀ q ∈ r.subqueries, IsBytes q.metric ∧ '%' ∉ q.metric ∧
      (dumpEscaped q.metric).isSome) :
    ∃ text entries, apiQueryHandler tc sqlite s now "GET".toList (some r.text) =
        some ([.send okHeader, .send text], 200) ∧ readResponse text = some entries ∧
      List.Forall₂ (fun q => IsAnswer tc aggregate (now.toNat - r.ago) now.toNat
          ((rowsOf s q.metric).getD []) q)
        (r.subqueries.filter fun q => (rowsOf s q.metric).isSome) entries := by
  have hanswered : ∀ rs ∈ answered sqlite s r.text, IsBytes rs.metric ∧ '%' ∉ rs.metric ∧
      (dumpEscaped rs.metric).isSome := by
    intro rs hrs
    obtain ⟨q, hq, -, hmetric, -⟩ := r.exists_subquery hrs
    exact hmetric ▸ hnames q hq
  obtain ⟨js, text, hjs, htext, hsent⟩ := exists_response tc now
    (fun rs hrs => by
      obtain ⟨q, -, -, -, hdownsampler⟩ := r.exists_subquery hrs
      exact hdownsampler ▸ q.interval_ne)
    fun rs hrs => (hanswered rs hrs).2
  have hdistinct : ∀ rs ∈ answered sqlite s r.text, DistinctOutput sqlite s
      (scanQuery now (prepareQuery sqlite s) r.text).startTime
      (scanQuery now (prepareQuery sqlite s) r.text).endTime rs := by
    intro rs hrs
    obtain ⟨q, -, hprepared, -⟩ := r.exists_subquery hrs
    exact distinctOutput_of_select hprepared (prepared_select hfns hprepared)
  obtain ⟨entries, hread, hall⟩ :=
    readResponse_container htc hjs (fun rs hrs => (hanswered rs hrs).1) hdistinct htext
  obtain ⟨hstart, hend⟩ := r.bounds now hnow hago (prepareQuery sqlite s)
  rw [r.answered_text] at hall
  rw [← hstart, ← hend]
  exact ⟨text, entries, hsent, hread, answers_subqueries hfns hall⟩

end SimpleTSDB.Http
