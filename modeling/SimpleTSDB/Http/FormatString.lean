import SimpleTSDB.Datastore.Names
import SimpleTSDB.Datastore.RoundTrip
import SimpleTSDB.Http.QueryResponse

/-!
# Stored data as a format string

The serialised response is the format string of `mg_printf`, and the writers accept percent signs in
names. A response has a percent sign exactly if the name of one of its metrics has one, so that no
query is answered with one as long as no name that a query can have has one
(`formatSafe_of_run`).
-/

namespace SimpleTSDB.Http

open Datastore Delimited Query Sqlite Transducer

variable {F : Type*}

/-- The text that the handler hands to `mg_printf` for the data. -/
def handedText (tc : ToChars) (sqlite : Engine) (s : State F) (curTime : BitVec 64) (query : Str) :
    Option Str :=
  (queryResponse sqlite s curTime query).bind fun response => response.dump tc 0

/-- No query hands over a text with a percent sign, and the text is sent as it is. -/
def FormatSafe (tc : ToChars) (sqlite : Engine) (s : State F) : Prop :=
  ∀ curTime query text, handedText tc sqlite s curTime query = some text → '%' ∉ text ∧
    apiQueryHandler tc sqlite s curTime "GET".toList (some query) =
      some ([.send okHeader, .send text], 200)

/-- A metric that a query can be for: it is connected to a database, and its name is UTF-8 without a
delimiter of the query language. -/
structure Answerable (s : State F) (name : Str) : Prop where
  connected : ∃ file, s.store.lookup name = some file ∧ (s.disk file).rows.isSome
  delims_not_mem : ':' ∉ name ∧ '{' ∉ name ∧ '&' ∉ name
  utf8 : (dumpEscaped name).isSome

/-! ## Queries for a metric -/

variable {tc : ToChars} {sqlite : Engine} {s : State F}

/-- An answered part is for a metric that a query can be for, if its name is UTF-8. -/
theorem answerable_of_answered {query : Str} {rs : ResultSet F} (h : rs ∈ answered sqlite s query)
    (hutf8 : (dumpEscaped rs.metric).isSome) : Answerable s rs.metric := by
  obtain ⟨hmem, hquery⟩ := List.mem_filter.mp h
  obtain ⟨part, hpart, hrs⟩ := List.mem_filterMap.mp hmem
  rw [partResultSet, Option.ite_none_right_eq_some] at hrs
  obtain ⟨⟨file, stmt⟩, hstmt⟩ := Option.isSome_iff_exists.mp hquery
  obtain ⟨hfile, hprepare⟩ := prepared_of_prepareQuery hrs.2 hstmt
  have hrows := (Engine.prepare_spec hprepare).1
  have hdelims := not_mem_metric (part.drop 2)
  have hsub := metric_infix (part.drop 2)
  rw [← metric_of_prepareQuery hrs.2] at hdelims hsub
  rw [partsFrom_eq, ← splitString, splitString_eq_fields] at hpart
  have hamp : '&' ∉ rs.metric := fun hmem =>
    not_mem_of_mem_fields hpart (List.mem_of_mem_drop (hsub.subset hmem))
  exact ⟨⟨file, hfile, hrows⟩, ⟨hdelims.1, hdelims.2, hamp⟩, hutf8⟩

/-- The query for all datapoints of a metric with a tag. -/
def metricQuery (name : Str) : Str := "m=".toList ++ tagQuery name "k=v".toList

/-- A metric that a query can be for is answered, without downsampling. -/
theorem answered_metricQuery (hsum : (sqlite.functions "sum".toList).isSome) {name : Str}
    (h : Answerable s name) : ∃ rs, answered sqlite s (metricQuery name) = [rs] ∧ rs.metric = name ∧
      rs.downsampler = [] := by
  obtain ⟨⟨file, hfile, hrows⟩, ⟨hcolon, hbrace, hamp⟩, -⟩ := h
  have hquote : '\'' ∉ "k=v".toList := by decide
  obtain ⟨hmetric, hnul, stmt, hstmt, hagg, hfits, -⟩ := tagQuery_selects hcolon hbrace hquote
    (by decide) (by decide) (by decide) (value_ne_of_getLast (by decide) (by decide))
  have hkept : keptFilters (readPart "k=v".toList) = [("k".toList, "v".toList)] := by
    unfold keptFilters filterParts
    simp only [splitString_eq_fields]
    decide
  have hlimits : InLimits (keptFilters (readPart "k=v".toList)) := by
    rw [hkept]
    exact inLimits_singleton (by rw [splitString_eq_fields]; decide) (by decide)
  have hknown : (sqlite.functions stmt.agg).isSome := by
    rw [hagg]
    exact hsum
  have hprepare := prepareQuery_eq (hmetric.symm ▸ hfile) (Option.isSome_iff_ne_none.mp hrows)
    hnul hstmt hknown (hfits hlimits)
  have hparts : partsFrom (metricQuery name) 0 = [metricQuery name] := by
    rw [partsFrom_eq, ← splitString, splitString_eq_fields, fields_of_not_mem]
    · simp [metricQuery, tagQuery, hamp]
    · exact List.cons_ne_nil _ _
  have hpart : partResultSet (prepareQuery sqlite s) (metricQuery name) =
      prepareQuery sqlite s (ofText (tagQuery name "k=v".toList)) :=
    if_pos (isPart_iff.mpr (List.prefix_append _ _))
  refine ⟨_, ?_, (metric_of_prepareQuery hprepare).trans hmetric, ?_⟩
  · rw [answered, hparts, List.filterMap_cons, hpart, hprepare]
    rfl
  · exact downsampler_tagQuery hcolon (by decide)

/-- The response for one result set without downsampling. -/
theorem exists_isValue_of_undownsampled {rs : ResultSet F} (h : rs.downsampler = [])
    (startTime endTime : BitVec 64) : ∃ j, IsValue sqlite s startTime endTime rs j := by
  have houtput : (Downsampler.ofType rs.downsampler).decimate
      (resultsOf sqlite s startTime endTime rs) =
        some (resultsOf sqlite s startTime endTime rs) := by
    rw [h]
    rfl
  rcases eq_or_ne (resultsOf sqlite s startTime endTime rs) [] with hnil | hne
  · exact ⟨_, Option.bind_eq_some_iff.mpr ⟨_, houtput, by rw [hnil, resultObject_nil]⟩⟩
  · exact exists_isValue hne

/-! ## Responses without a percent sign -/

/-- A text is sent as it is exactly if it has no percent sign. -/
theorem sends_of_not_mem {curTime : BitVec 64} {query text : Str}
    (h : handedText tc sqlite s curTime query = some text) (hpercent : '%' ∉ text) :
    apiQueryHandler tc sqlite s curTime "GET".toList (some query) =
      some ([.send okHeader, .send text], 200) := by
  obtain ⟨response, hresponse, htext⟩ := Option.bind_eq_some_iff.mp h
  exact (apiQueryHandler_sends_iff hresponse htext).mpr hpercent

/-- **The responses have no percent sign exactly if** the names that a query can be for have
none. -/
theorem formatSafe_iff (hsum : (sqlite.functions "sum".toList).isSome) :
    FormatSafe tc sqlite s ↔ ∀ name, Answerable s name → '%' ∉ name := by
  constructor
  · intro h name hname
    obtain ⟨rs, hanswered, rfl, hdownsampler⟩ := answered_metricQuery hsum hname
    obtain ⟨j, hj⟩ := @exists_isValue_of_undownsampled _ sqlite s _ hdownsampler
      (scanQuery 0 (prepareQuery sqlite s) (metricQuery rs.metric)).startTime
      (scanQuery 0 (prepareQuery sqlite s) (metricQuery rs.metric)).endTime
    have hjs := List.Forall₂.cons hj .nil
    have hresponse := queryResponse_eq_some_iff.mpr ⟨[j], hanswered.symm ▸ hjs, rfl⟩
    obtain ⟨text, htext⟩ := Option.isSome_iff_exists.mp
      ((dump_container_isSome_iff tc hjs).mpr (List.forall_mem_singleton.mpr hname.utf8))
    have hhanded : handedText tc sqlite s 0 (metricQuery rs.metric) = some text :=
      Option.bind_eq_some_iff.mpr ⟨_, hresponse, htext⟩
    exact (percent_not_mem_dump_iff hjs htext).mp (h _ _ _ hhanded).1 rs List.mem_cons_self
  · intro h curTime query text htext
    have hpercent : '%' ∉ text := by
      obtain ⟨response, hresponse, htext⟩ := Option.bind_eq_some_iff.mp htext
      obtain ⟨js, hjs, rfl⟩ := queryResponse_eq_some_iff.mp hresponse
      have hutf8 := (dump_container_isSome_iff tc hjs).mp (by rw [htext]; rfl)
      exact (percent_not_mem_dump_iff hjs htext).mpr fun rs hrs =>
        h _ (answerable_of_answered hrs (hutf8 rs hrs))
    exact ⟨hpercent, sends_of_not_mem htext hpercent⟩

variable [DecidableEq F]

/-- **A run whose names have no percent sign has safe responses**; a state has them exactly if the
names that a query can be for have none. -/
theorem formatSafe_of_run (tc : ToChars) (sqlite : Engine)
    (hsum : (sqlite.functions "sum".toList).isSome) (cfg : Config F) (d : Databases F)
    (as : List Action) (s : State F) (o : List (Event F))
    (hrun : run (step cfg) (started d) as = some (s, o)) :
    (FormatSafe tc sqlite s ↔ ∀ name, Answerable s name → '%' ∉ name) ∧
      ((∀ p ∈ d.store, '%' ∉ p.1) → (∀ m, .enqueue m ∈ as → '%' ∉ m.name) →
        FormatSafe tc sqlite s) := by
  refine ⟨formatSafe_iff hsum, fun hd has => (formatSafe_iff hsum).mpr fun name hname => ?_⟩
  have hnamed := names_of_run (P := ('%' ∉ ·)) hrun hd has List.not_mem_nil (by decide)
  obtain ⟨file, hfile, -⟩ := hname.connected
  exact hnamed.store _ (mem_of_lookup hfile)

/-- A run that writes the metric of a name without a percent sign has safe responses. -/
theorem formatSafe_example : ∃ s o, run (step plainConfig) (started noDatabases)
    (writeRun cpuMetric) = some (s, o) ∧ FormatSafe zeroChars sumOfOne s := by
  have hrun : (run (step plainConfig) (started noDatabases) (writeRun cpuMetric)).isSome := by
    decide +kernel
  obtain ⟨⟨s, o⟩, hrun⟩ := Option.isSome_iff_exists.mp hrun
  refine ⟨s, o, hrun, (formatSafe_of_run zeroChars sumOfOne rfl plainConfig noDatabases
    (writeRun cpuMetric) s o hrun).2 (List.forall_mem_nil _) fun m hm => ?_⟩
  obtain rfl : m = cpuMetric := by simpa [writeRun] using hm
  decide

/-- A metric whose name has a conversion of `printf`. -/
def percentMetric : Metric := .ofFields "a%s".toList 1 (.fin false 0 0) "host=web01".toList

/-- **A put stores a name that becomes a format string.** -/
theorem not_formatSafe : ¬ ∀ (as : List Action) (s : State Str) (o : List (Event Str)),
    run (step plainConfig) (started noDatabases) as = some (s, o) →
      (∀ m, .enqueue m ∈ as → Put m) → FormatSafe zeroChars sumOfOne s := by
  intro h
  have hput : Put percentMetric := by
    refine put_of_mem_httpQueued (L := "a%s 1 0 host=web01".toList) ?_
    rw [httpQueued_eq (by decide) (by decide)]
    decide
  have hrun : ∃ p ∈ run (step plainConfig) (started noDatabases) (writeRun percentMetric),
      ∃ file ∈ p.1.store.lookup percentMetric.name, (p.1.disk file).rows.isSome := by
    decide +kernel
  obtain ⟨⟨s, o⟩, hrun, file, hfile, hrows⟩ := hrun
  have hsafe := h _ s o hrun fun m hm => by
    obtain rfl : m = percentMetric := by simpa [writeRun] using hm
    exact hput
  have hname : Answerable s percentMetric.name :=
    ⟨⟨file, hfile, hrows⟩, by decide, by decide +kernel⟩
  exact (formatSafe_iff rfl).mp hsafe _ hname (by decide)

end SimpleTSDB.Http
