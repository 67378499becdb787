import SimpleTSDB.Datastore.RoundTrip
import SimpleTSDB.Http.QueryResponse
import SimpleTSDB.Http.Denotes
import SimpleTSDB.Printing

/-!
# Reading the response to a query

A client that reads the body of a response as JSON recovers the name of every result set and its
downsampled datapoints (`response_readBack`).
-/

namespace SimpleTSDB.Http

open Datastore JsonText Query Sqlite Transducer

/-! ## A client -/

/-- The datapoint of a member of `dps`; there is none for null. -/
def memberPoint : Str × Tree → Option Dps
  | (key, .number text) => some ⟨(strtoull key).1, (strtod text).1⟩
  | _ => none

/-- The name and the datapoints of an element of a response. -/
def entryPoints : Tree → Option (Str × List Dps)
  | .object m =>
    match m.lookup "metric".toList, m.lookup "dps".toList with
    | some (.string name), some (.object ms) => some (name, ms.filterMap memberPoint)
    | some (.string name), none => some (name, [])
    | _, _ => none
  | _ => none

/-- What is read from the body of a response. -/
def readResponse (text : Str) : Option (List (Str × List Dps)) := do
  match ← read text with
  | .null => some []
  | .array l => l.mapM entryPoints
  | _ => none

variable {F : Type*}

/-- The datapoint as it is read from its text. -/
def asRead (tc : ToChars) (d : Dps) : Dps := { d with value := (strtod (tc.text d.value)).1 }

/-- The element is the answer of a result set: its name, and those of its downsampled datapoints
that have a finite value, as they are read from their texts. -/
def Answers (tc : ToChars) (sqlite : Engine) (s : State F) (startTime endTime : BitVec 64)
    (rs : ResultSet F) (e : Str × List Dps) : Prop :=
  e.1 = rs.metric ∧ ∃ output,
    (Downsampler.ofType rs.downsampler).decimate (resultsOf sqlite s startTime endTime rs) =
      some output ∧ e.2.Perm ((output.filter (·.value.isFinite)).map (asRead tc))

theorem filterMap_memberPoint (tc : ToChars) (output : List Dps) :
    (memberTrees tc (output.map dpsMember)).filterMap memberPoint =
      (output.filter (·.value.isFinite)).map (asRead tc) := by
  have hmember : memberPoint ∘ (fun p => (p.1, p.2.tree tc)) ∘ dpsMember =
      fun d => if d.value.isFinite then some (asRead tc d) else none := by
    funext d
    rw [Function.comp_apply, Function.comp_apply, dpsMember, Json.tree, numberTree]
    split
    · rw [memberPoint, strtoull_showNat, asRead]
    · rfl
  rw [memberTrees_eq, List.map_map, List.filterMap_map, hmember]
  induction output with
  | nil => rfl
  | cons d output ih =>
    rw [List.filterMap_cons, List.filter_cons, ih]
    cases d.value.isFinite <;> rfl

/-- The tree of a result set is its answer. -/
theorem answers_of_isValue (tc : ToChars) {sqlite : Engine} {s : State F}
    {startTime endTime : BitVec 64} {rs : ResultSet F} {j : Json}
    (hj : IsValue sqlite s startTime endTime rs j)
    (hdistinct : DistinctOutput sqlite s startTime endTime rs) :
    ∃ e, entryPoints (j.tree tc) = some e ∧ Answers tc sqlite s startTime endTime rs e := by
  obtain ⟨output, houtput, hobject⟩ := Option.bind_eq_some_iff.mp hj
  have hpoints := filterMap_memberPoint tc output
  rcases eq_or_ne output [] with rfl | hne
  · rw [resultObject_nil] at hobject
    obtain rfl := Option.some.inj hobject
    exact ⟨(rs.metric, []), rfl, rfl, [], houtput, .refl _⟩
  · obtain ⟨dps, hdps, -, hperm⟩ := resultObject_eq rs.metric hne
    rw [hobject] at hdps
    obtain rfl := Option.some.inj hdps
    refine ⟨(rs.metric, (memberTrees tc dps).filterMap memberPoint), rfl, rfl, output, houtput, ?_⟩
    rw [memberTrees_eq] at hpoints ⊢
    rw [← hpoints]
    exact ((hperm (hdistinct output houtput)).map _).filterMap _

theorem exists_mapM (tc : ToChars) {sqlite : Engine} {s : State F} {startTime endTime : BitVec 64}
    {rss : List (ResultSet F)} {js : List Json}
    (h : List.Forall₂ (IsValue sqlite s startTime endTime) rss js)
    (hdistinct : ∀ rs ∈ rss, DistinctOutput sqlite s startTime endTime rs) :
    ∃ es, (js.map (Json.tree tc)).mapM entryPoints = some es ∧
      List.Forall₂ (Answers tc sqlite s startTime endTime) rss es := by
  induction h with
  | nil => exact ⟨[], rfl, .nil⟩
  | cons hj _ ih =>
    rw [List.forall_mem_cons] at hdistinct
    obtain ⟨e, he, hanswers⟩ := answers_of_isValue tc hj hdistinct.1
    obtain ⟨es, hes, hall⟩ := ih hdistinct.2
    refine ⟨e :: es, ?_, .cons hanswers hall⟩
    rw [List.map_cons, List.mapM_cons, he, hes]
    rfl

/-- **A serialised response is read back** as the answers of its result sets. -/
theorem readResponse_container {tc : ToChars} (htc : tc.WritesNumbers) {sqlite : Engine}
    {s : State F} {startTime endTime : BitVec 64} {rss : List (ResultSet F)} {js : List Json}
    (hjs : List.Forall₂ (IsValue sqlite s startTime endTime) rss js)
    (hbytes : ∀ rs ∈ rss, IsBytes rs.metric)
    (hdistinct : ∀ rs ∈ rss, DistinctOutput sqlite s startTime endTime rs) {text : Str}
    (htext : (container js).dump tc 0 = some text) :
    ∃ entries, readResponse text = some entries ∧
      List.Forall₂ (Answers tc sqlite s startTime endTime) rss entries := by
  have hstrings : ∀ str ∈ (container js).strings, IsBytes str := by
    refine (forall_strings_iff hjs fun str hstr c hc => ?_).mpr hbytes
    exact (hstr c hc).1.2.1.trans (by decide)
  have hread := ((container js).denotes htc hstrings htext).read_eq
  obtain ⟨entries, hentries, hall⟩ := exists_mapM tc hjs hdistinct
  refine ⟨entries, ?_, hall⟩
  rw [readResponse, hread]
  cases js with
  | nil => exact hentries
  | cons j js =>
    rw [← elementTrees_eq] at hentries
    exact hentries

/-- What the handler sends for metrics without a percent sign in their names. -/
theorem exists_sent {tc : ToChars} {sqlite : Engine} {s : State F} {curTime : BitVec 64}
    {query : Str} {es : List Effect} {status : ℕ}
    (hsent : apiQueryHandler tc sqlite s curTime "GET".toList (some query) = some (es, status))
    (hpercent : ∀ rs ∈ answered sqlite s query, '%' ∉ rs.metric) :
    let scan := scanQuery curTime (prepareQuery sqlite s) query
    ∃ js text,
      List.Forall₂ (IsValue sqlite s scan.startTime scan.endTime) (answered sqlite s query) js ∧
      (container js).dump tc 0 = some text ∧ es = [.send okHeader, .send text] := by
  have hcalled := hsent
  rw [apiQueryHandler, if_neg (not_not_intro rfl)] at hcalled
  obtain ⟨_, ⟨⟩, hcalled⟩ := Option.bind_eq_some_iff.mp hcalled
  obtain ⟨response, hresponse, hcalled⟩ := Option.bind_eq_some_iff.mp hcalled
  obtain ⟨text, htext, -⟩ := Option.bind_eq_some_iff.mp hcalled
  obtain ⟨js, hjs, rfl⟩ := queryResponse_eq_some_iff.mp hresponse
  have hnone := (percent_not_mem_dump_iff hjs htext).mpr hpercent
  rw [(apiQueryHandler_sends_iff hresponse htext).mpr hnone] at hsent
  obtain ⟨rfl, -⟩ := Prod.mk.inj (Option.some.inj hsent)
  exact ⟨js, text, hjs, htext, rfl⟩

/-- **A response is sent**, if no interval is 0 and the names are UTF-8 without a percent sign. -/
theorem exists_response (tc : ToChars) {sqlite : Engine} {s : State F} (curTime : BitVec 64)
    {query : Str} (hsafe : ∀ rs ∈ answered sqlite s query,
      (Downsampler.ofType rs.downsampler).method ≠ .none →
        (Downsampler.ofType rs.downsampler).interval ≠ 0)
    (hnames : ∀ rs ∈ answered sqlite s query, '%' ∉ rs.metric ∧ (dumpEscaped rs.metric).isSome) :
    let scan := scanQuery curTime (prepareQuery sqlite s) query
    ∃ js text,
      List.Forall₂ (IsValue sqlite s scan.startTime scan.endTime) (answered sqlite s query) js ∧
      (container js).dump tc 0 = some text ∧
      apiQueryHandler tc sqlite s curTime "GET".toList (some query) =
        some ([.send okHeader, .send text], 200) := by
  intro scan
  have hvalue : ∀ rs ∈ answered sqlite s query,
      ∃ j, IsValue sqlite s scan.startTime scan.endTime rs j := by
    intro rs hrs
    rcases eq_or_ne (resultsOf sqlite s scan.startTime scan.endTime rs) [] with hnil | hne
    · refine ⟨_, Option.bind_eq_some_iff.mpr ⟨[], ?_, resultObject_nil rs.metric⟩⟩
      rw [hnil, Downsampler.decimate_nil, if_neg fun h => hsafe rs hrs h.1 h.2]
    · exact exists_isValue hne
  obtain ⟨js, hjs⟩ := exists_forall₂ hvalue
  obtain ⟨text, htext⟩ := Option.isSome_iff_exists.mp
    ((dump_container_isSome_iff tc hjs).mpr fun rs hrs => (hnames rs hrs).2)
  refine ⟨js, text, hjs, htext, ?_⟩
  exact (apiQueryHandler_sends_iff (queryResponse_eq_some_iff.mpr ⟨js, hjs, rfl⟩) htext).mpr
    ((percent_not_mem_dump_iff hjs htext).mpr fun rs hrs => (hnames rs hrs).1)

/-- **The response is read back.** A client that reads the body as JSON finds an element for every
answered part, in order, with the name of the metric and the downsampled datapoints that have a
finite value; the datapoints of a part have different timestamps. -/
theorem response_readBack (tc : ToChars) (sqlite : Engine) (s : State F) (curTime : BitVec 64)
    (query : Str) (es : List Effect) (status : ℕ) (htc : tc.WritesNumbers)
    (hsent : apiQueryHandler tc sqlite s curTime "GET".toList (some query) = some (es, status))
    (hnames : ∀ rs ∈ answered sqlite s query, IsBytes rs.metric ∧ '%' ∉ rs.metric)
    (hdistinct : ∀ rs ∈ answered sqlite s query,
      DistinctOutput sqlite s (scanQuery curTime (prepareQuery sqlite s) query).startTime
        (scanQuery curTime (prepareQuery sqlite s) query).endTime rs) :
    let scan := scanQuery curTime (prepareQuery sqlite s) query
    ∃ text entries, es = [.send okHeader, .send text] ∧ readResponse text = some entries ∧
      List.Forall₂ (Answers tc sqlite s scan.startTime scan.endTime) (answered sqlite s query)
        entries := by
  intro scan
  obtain ⟨js, text, hjs, htext, hes⟩ := exists_sent hsent fun rs hrs => (hnames rs hrs).2
  obtain ⟨entries, hread, hall⟩ :=
    readResponse_container htc hjs (fun rs hrs => (hnames rs hrs).1) hdistinct htext
  exact ⟨text, entries, hes, hread, hall⟩

/-- A query for the metric of the value 0. -/
def cpuQuery : Str := "m=".toList ++ tagQuery "cpu".toList "host=web01".toList

theorem zeroChars_writesNumbers : zeroChars.WritesNumbers := fun _ _ => by
  change isNumber "0.0".toList = true
  decide

/-- A metric is written, and its datapoint is read from the response. -/
theorem response_readBack_example : ∃ (s : State Str) (text : Str) (entries : List (Str × List Dps))
    (status : ℕ), apiQueryHandler zeroChars sumOfOne s 5 "GET".toList (some cpuQuery) =
        some ([.send okHeader, .send text], status) ∧
      readResponse text = some entries ∧
      List.Forall₂ (Answers zeroChars sumOfOne s 0 5) (answered sumOfOne s cpuQuery) entries ∧
      entries ≠ [] := by
  have hrun : ∃ p ∈ run (step plainConfig) (started noDatabases) (writeRun cpuMetric),
      (apiQueryHandler zeroChars sumOfOne p.1 5 "GET".toList (some cpuQuery)).isSome ∧
        ((scanQuery 5 (prepareQuery sumOfOne p.1) cpuQuery).startTime = 0 ∧
          (scanQuery 5 (prepareQuery sumOfOne p.1) cpuQuery).endTime = 5) ∧
        answered sumOfOne p.1 cpuQuery ≠ [] ∧
        (∀ rs ∈ answered sumOfOne p.1 cpuQuery,
          (∀ c ∈ rs.metric, c.toNat < 256) ∧ '%' ∉ rs.metric) ∧
        ∀ rs ∈ answered sumOfOne p.1 cpuQuery, (rs.query.bind (·.2.select)).isSome := by
    decide +kernel
  obtain ⟨⟨s, o⟩, -, hsent, hscan, hne, hanswered, hselect⟩ := hrun
  have hdistinct : ∀ rs ∈ answered sumOfOne s cpuQuery, DistinctOutput sumOfOne s
      (scanQuery 5 (prepareQuery sumOfOne s) cpuQuery).startTime
      (scanQuery 5 (prepareQuery sumOfOne s) cpuQuery).endTime rs := by
    intro rs hrs
    obtain ⟨q, hq⟩ := exists_prepareQuery_of_answered hrs
    exact distinctOutput_of_select hq (hselect rs hrs)
  obtain ⟨⟨es, status⟩, hsent⟩ := Option.isSome_iff_exists.mp hsent
  obtain ⟨text, entries, rfl, hread, hall⟩ := response_readBack zeroChars sumOfOne s 5 cpuQuery es
    status zeroChars_writesNumbers hsent hanswered hdistinct
  rw [hscan.1, hscan.2] at hall
  refine ⟨s, text, entries, status, hsent, hread, hall, ?_⟩
  rintro rfl
  exact hne (List.forall₂_nil_right_iff.mp hall)

end SimpleTSDB.Http
