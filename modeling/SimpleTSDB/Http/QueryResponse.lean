import SimpleTSDB.Datastore.Drain
import SimpleTSDB.Datastore.ReadBack
import SimpleTSDB.Downsampler
import SimpleTSDB.Http.Json
import SimpleTSDB.Http.Put
import SimpleTSDB.Http.Query

/-!
# The response to a query

`ApiQueryHandler` executes its result sets and puts a JSON value together that it sends as a format
string. The value is an array only if it has an element, and an element has the field `dps` only if
it has a datapoint. `completeResponse_iff` says when the response is complete all the same.
-/

namespace SimpleTSDB.Http

open Datastore Query Sqlite

/-! ## The handler -/

/-- `mg_printf` with a format string and no arguments; `none` if there is a conversion other than
`%%`, which reads an argument that was not passed. -/
def printf : Str → Option Str
  | [] => some []
  | [c] => if c = '%' then none else some [c]
  | c :: d :: s =>
    if c ≠ '%' then (printf (d :: s)).map (c :: ·)
    else if d = '%' then (printf s).map ('%' :: ·)
    else none

/-- Steps 5 and 6 of the handler: the object of a result set with its downsampled data. -/
def resultObject (metric : Str) (output : List Dps) : Option Json := do
  let jr ← Json.set "metric".toList (.string metric) .null
  if 0 < output.length then
    output.foldlM (fun jr dps =>
      Json.at "dps".toList (Json.set (showNat dps.timestamp.toNat) (.number dps.value)) jr) jr
  else return jr

variable {F : Type*}

/-- The value for a result set that has been executed; `none` if it cannot be computed. -/
def resultValue (metric downsampler : Str) (results : List Dps) : Option Json := do
  let output ← (Downsampler.ofType downsampler).decimate results
  resultObject metric output

/-- A round of the loop over the result sets. -/
def addResult (sqlite : Engine) (s : State F) (startTime endTime : BitVec 64) (response : Json)
    (rs : ResultSet F) : Option Json :=
  match rs.execute (sqlite.stepResults s.disk) startTime endTime [] with
  | (false, _) => some response
  | (true, results) => do
    let jr ← resultValue rs.metric rs.downsampler results
    Json.pushBack jr response

/-- Steps 1 to 6 of the handler: the response, `none` if it cannot be computed. -/
def queryResponse (sqlite : Engine) (s : State F) (curTime : BitVec 64) (query : Str) :
    Option Json :=
  let scan := scanQuery curTime (prepareQuery sqlite s) query
  scan.subqueries.foldlM (addResult sqlite s scan.startTime scan.endTime) .null

def okHeader : Str :=
  "HTTP/1.1 200 OK\r\nContent-Type: application/json\r\nConnection: close\r\n\r\n".toList

/-- `ApiQueryHandler`: what is sent and the status code; `none` if it throws or its behaviour is
undefined. The query string is missing if the request has no question mark. -/
def apiQueryHandler (tc : ToChars) (sqlite : Engine) (s : State F) (curTime : BitVec 64)
    (method : Str) (queryString : Option Str) : Option (List Effect × ℕ) :=
  if method ≠ "GET".toList then some (methodNotAllowed method)
  else do
    let query ← queryString
    let response ← queryResponse sqlite s curTime query
    -- the data is the format string
    let data ← response.dump tc 0
    let header ← printf okHeader
    let text ← printf (cstr data)
    return ([.send header, .send text], 200)

/-! ## The format string -/

/-- A percent sign makes the text shorter. -/
theorem printf_length {s t : Str} (h : printf s = some t) :
    t.length ≤ s.length ∧ ('%' ∈ s → t.length < s.length) := by
  induction s using printf.induct generalizing t with
  | case1 =>
    obtain rfl := Option.some.inj h
    simp
  | case2 => simp [printf] at h
  | case3 c hc =>
    rw [printf, if_neg hc] at h
    obtain rfl := Option.some.inj h
    simp [Ne.symm hc]
  | case4 c d s hc ih =>
    rw [printf, if_pos hc] at h
    obtain ⟨t, ht, rfl⟩ := Option.map_eq_some_iff.mp h
    have hlen := ih ht
    simp only [List.length_cons, List.mem_cons, Ne.symm hc, false_or] at hlen ⊢
    exact ⟨by omega, fun hmem => Nat.succ_lt_succ (hlen.2 hmem)⟩
  | case5 c s hc ih =>
    rw [printf, if_neg hc, if_pos rfl] at h
    obtain ⟨t, ht, rfl⟩ := Option.map_eq_some_iff.mp h
    have hlen := (ih ht).1
    simp only [List.length_cons]
    omega
  | case6 c d s hc hd =>
    rw [printf, if_neg hc, if_neg hd] at h
    cases h

theorem printf_of_not_mem {s : Str} (h : '%' ∉ s) : printf s = some s := by
  induction s using printf.induct with
  | case1 => rfl
  | case2 => exact absurd List.mem_cons_self h
  | case3 c hc => rw [printf, if_neg hc]
  | case4 c d s hc ih =>
    rw [printf, if_pos hc, ih fun hmem => h (List.mem_cons_of_mem c hmem)]
    rfl
  | case5 c s hc ih => exact absurd (by simp) h
  | case6 c d s hc hd => exact absurd (by simp [not_not.mp hc]) h

/-- **A format string is written as it is exactly if it has no percent sign.** -/
theorem printf_eq_self_iff {s : Str} : printf s = some s ↔ '%' ∉ s :=
  ⟨fun h hmem => absurd ((printf_length h).2 hmem) (Nat.lt_irrefl _), printf_of_not_mem⟩

/-- The handler sends a serialised response as it is exactly if it has no percent sign. -/
theorem apiQueryHandler_sends_iff {tc : ToChars} {sqlite : Engine} {s : State F}
    {curTime : BitVec 64} {query text : Str} {response : Json}
    (h : queryResponse sqlite s curTime query = some response)
    (ht : response.dump tc 0 = some text) :
    apiQueryHandler tc sqlite s curTime "GET".toList (some query) =
      some ([.send okHeader, .send text], 200) ↔ '%' ∉ text := by
  have hheader : printf okHeader = some okHeader := printf_of_not_mem (by decide)
  have hnul : cstr text = text := cstr_eq_self (Json.dump_carries tc response ht).2
  rw [← printf_eq_self_iff, apiQueryHandler, if_neg (not_not_intro rfl)]
  simp only [Option.bind_eq_bind, Option.bind_some, h, ht, hheader, hnul]
  cases printf text <;> simp

/-! ## Objects -/

/-- The member of a datapoint. -/
def dpsMember (d : Dps) : Str × Json := (showNat d.timestamp.toNat, .number d.value)

theorem showNat_inj {m n : ℕ} (h : showNat m = showNat n) : m = n := by
  rw [← Nat.ofDigitChars_ten_toDigits (n := m), ← Nat.ofDigitChars_ten_toDigits (n := n)]
  exact congrArg (Nat.ofDigitChars 10 · 0) h

/-- The members of different timestamps have different keys. -/
theorem nodup_dpsMember {output : List Dps} (h : (output.map Dps.timestamp).Nodup) :
    ((output.map dpsMember).map Prod.fst).Nodup := by
  have hkeys : (output.map dpsMember).map Prod.fst =
      (output.map Dps.timestamp).map fun t => showNat t.toNat := by
    simp [dpsMember, Function.comp_def]
  rw [hkeys]
  exact h.map fun t u htu => BitVec.eq_of_toNat_eq (showNat_inj htu)

/-- The object with the members `dps`. -/
def entry (metric : Str) (dps : List (Str × Json)) : Json :=
  .object [("dps".toList, .object dps), ("metric".toList, .string metric)]

/-- Datapoints are added to the object, and if they have new keys, nothing is overwritten. -/
theorem foldlM_dps (metric : Str) (output : List Dps) (dps : List (Str × Json)) :
    ∃ dps', output.foldlM (fun jr d =>
        Json.at "dps".toList (Json.set (showNat d.timestamp.toNat) (.number d.value)) jr)
          (entry metric dps) = some (entry metric dps') ∧ dps' ⊆ dps ++ output.map dpsMember ∧
      (((dps ++ output.map dpsMember).map Prod.fst).Nodup →
        dps'.Perm (dps ++ output.map dpsMember)) := by
  induction output generalizing dps with
  | nil => exact ⟨dps, rfl, by simp, fun _ => by simp⟩
  | cons d output ih =>
    obtain ⟨dps₁, hdps₁, hsub₁, hperm₁⟩ :=
      modifyKey_const (showNat d.timestamp.toNat) (.number d.value) dps
    obtain ⟨dps', hdps', hsub', hperm'⟩ := ih dps₁
    refine ⟨dps', ?_, ?_, fun h => ?_⟩
    · have hset : Json.at "dps".toList (Json.set (showNat d.timestamp.toNat) (.number d.value))
          (entry metric dps) = some (entry metric dps₁) := by
        rw [entry, Json.at, modifyKey, if_pos rfl, Json.set, Json.at, hdps₁]
        rfl
      rw [List.foldlM_cons, hset]
      exact hdps'
    · intro x hx
      rcases List.mem_append.mp (hsub' hx) with hx | hx
      · rcases List.mem_cons.mp (hsub₁ hx) with rfl | hx
        · exact List.mem_append_right _ List.mem_cons_self
        · exact List.mem_append_left _ hx
      · exact List.mem_append_right _ (List.mem_cons_of_mem _ hx)
    · have hfresh : showNat d.timestamp.toNat ∉ dps.map Prod.fst := by
        rw [List.map_append, List.nodup_append] at h
        exact fun hmem => h.2.2 _ hmem _ List.mem_cons_self rfl
      have hperm : (dps₁ ++ output.map dpsMember).Perm (dps ++ (d :: output).map dpsMember) :=
        ((hperm₁ hfresh).append_right _).trans List.perm_middle.symm
      exact (hperm' ((hperm.map _).nodup_iff.mpr h)).trans hperm

/-- The object of a result set without datapoints lacks a field. -/
theorem resultObject_nil (metric : Str) :
    resultObject metric [] = some (.object [("metric".toList, .string metric)]) := rfl

/-- **The object of a result set with datapoints** has members of them, and if their timestamps
differ, one for each of them. -/
theorem resultObject_eq (metric : Str) {output : List Dps} (hne : output ≠ []) :
    ∃ dps, resultObject metric output = some (entry metric dps) ∧ dps ⊆ output.map dpsMember ∧
      ((output.map Dps.timestamp).Nodup → dps.Perm (output.map dpsMember)) := by
  cases output with
  | nil => exact absurd rfl hne
  | cons d output =>
    -- the first datapoint makes the field
    obtain ⟨dps, hdps, hsub, hperm⟩ := foldlM_dps metric output [dpsMember d]
    exact ⟨dps, hdps, hsub, fun h => hperm (nodup_dpsMember h)⟩

/-! ## The loop over the result sets -/

/-- The value after some elements have been added. -/
def container : List Json → Json
  | [] => .null
  | l => .array l

theorem pushBack_container (j : Json) (l : List Json) :
    Json.pushBack j (container l) = some (container (l ++ [j])) := by
  cases l <;> rfl

/-- What is fetched for a result set. -/
def resultsOf (sqlite : Engine) (s : State F) (startTime endTime : BitVec 64) (rs : ResultSet F) :
    List Dps :=
  (rs.execute (sqlite.stepResults s.disk) startTime endTime []).2

/-- The value is the one for the result set. -/
def IsValue (sqlite : Engine) (s : State F) (startTime endTime : BitVec 64) (rs : ResultSet F)
    (j : Json) : Prop :=
  resultValue rs.metric rs.downsampler (resultsOf sqlite s startTime endTime rs) = some j

variable {sqlite : Engine} {s : State F} {startTime endTime : BitVec 64}

/-- A result set without a statement is skipped. -/
theorem addResult_of_none {rs : ResultSet F} (h : rs.query = none) (response : Json) :
    addResult sqlite s startTime endTime response rs = some response := by
  simp only [addResult, ResultSet.execute, h]

theorem addResult_of_isSome {rs : ResultSet F} (h : rs.query.isSome) (response : Json) :
    addResult sqlite s startTime endTime response rs =
      (resultValue rs.metric rs.downsampler (resultsOf sqlite s startTime endTime rs)).bind
        (Json.pushBack · response) := by
  obtain ⟨stmt, hstmt⟩ := Option.isSome_iff_exists.mp h
  simp only [addResult, resultsOf, ResultSet.execute, hstmt, Option.bind_eq_bind]

/-- **The loop** adds the values of the result sets that have a statement. -/
theorem foldlM_addResult_iff {rss : List (ResultSet F)} {l : List Json} {v : Json} :
    rss.foldlM (addResult sqlite s startTime endTime) (container l) = some v ↔
      ∃ js, List.Forall₂ (IsValue sqlite s startTime endTime) (rss.filter (·.query.isSome)) js ∧
        v = container (l ++ js) := by
  induction rss generalizing l with
  | nil => simp [eq_comm]
  | cons rs rss ih =>
    rw [List.foldlM_cons]
    cases hquery : rs.query with
    | none =>
      have hfilter : ¬ rs.query.isSome = true := by simp [hquery]
      rw [addResult_of_none hquery, List.filter_cons, if_neg hfilter]
      exact ih
    | some stmt =>
      have hfilter : rs.query.isSome = true := by simp [hquery]
      rw [addResult_of_isSome hfilter, List.filter_cons, if_pos hfilter]
      cases hj : resultValue rs.metric rs.downsampler (resultsOf sqlite s startTime endTime rs) with
      | none =>
        simp [List.forall₂_cons_left_iff, IsValue, hj]
      | some j =>
        simp only [Option.bind_some, pushBack_container, Option.bind_eq_bind, ih,
          List.forall₂_cons_left_iff, IsValue, hj]
        constructor
        · rintro ⟨js, hjs, rfl⟩
          exact ⟨j :: js, ⟨j, js, rfl, hjs, rfl⟩, by simp⟩
        · rintro ⟨-, ⟨j', js, hj', hjs, rfl⟩, rfl⟩
          obtain rfl := Option.some.inj hj'
          exact ⟨js, hjs, by simp⟩

/-! ## The strings of the response -/

/-- A text that is written as it is and has no percent sign. -/
def PlainText (s : Str) : Prop := ∀ c ∈ s, PlainChar c ∧ c ≠ '%'

theorem plainText_showNat (n : ℕ) : PlainText (showNat n) := by
  intro c hc
  have hdigit : 48 ≤ c.toNat ∧ c.toNat ≤ 57 :=
    Char.isDigit_iff_toNat.mp (Nat.isDigit_of_mem_toDigits (by decide) (by decide) hc)
  have hne {d : Char} (hd : d.toNat < 48 ∨ 57 < d.toNat) : c ≠ d := by
    rintro rfl
    omega
  exact ⟨⟨by omega, by omega, hne (by decide), hne (by decide)⟩, hne (by decide)⟩

/-- The strings of an object are the name of its metric and plain texts. -/
def HasStrings (metric : Str) (j : Json) : Prop :=
  metric ∈ j.strings ∧ ∀ s ∈ j.strings, s = metric ∨ PlainText s

theorem memberStrings_dps {output : List Dps} {dps : List (Str × Json)}
    (h : dps ⊆ output.map dpsMember) : ∀ s ∈ memberStrings dps, PlainText s := by
  induction dps with
  | nil => exact List.forall_mem_nil _
  | cons p dps ih =>
    rw [List.cons_subset] at h
    obtain ⟨d, -, rfl⟩ := List.mem_map.mp h.1
    intro s hs
    rcases List.mem_cons.mp hs with rfl | hs
    · exact plainText_showNat _
    · exact ih h.2 s hs

theorem hasStrings_resultObject {metric : Str} {output : List Dps} {j : Json}
    (h : resultObject metric output = some j) : HasStrings metric j := by
  have hplain : PlainText "metric".toList ∧ PlainText "dps".toList := by
    unfold PlainText PlainChar
    decide
  rcases eq_or_ne output [] with rfl | hne
  · rw [resultObject_nil] at h
    obtain rfl := Option.some.inj h
    constructor
    · simp [Json.strings, memberStrings]
    · intro s hs
      simp only [Json.strings, memberStrings, List.mem_cons, List.mem_append, List.not_mem_nil,
        or_false] at hs
      rcases hs with rfl | rfl
      · exact .inr hplain.1
      · exact .inl rfl
  · obtain ⟨dps, hdps, hsub, -⟩ := resultObject_eq metric hne
    rw [hdps] at h
    obtain rfl := Option.some.inj h
    have hmembers := memberStrings_dps hsub
    constructor
    · simp [entry, Json.strings, memberStrings]
    · intro s hs
      simp only [entry, Json.strings, memberStrings, List.mem_cons, List.mem_append,
        List.not_mem_nil, or_false] at hs
      rcases hs with rfl | hs | rfl | rfl
      · exact .inr hplain.2
      · exact .inr (hmembers s hs)
      · exact .inr hplain.1
      · exact .inl rfl

theorem hasStrings_of_isValue {rs : ResultSet F} {j : Json}
    (h : IsValue sqlite s startTime endTime rs j) : HasStrings rs.metric j := by
  obtain ⟨output, -, hj⟩ := Option.bind_eq_some_iff.mp h
  exact hasStrings_resultObject hj

theorem strings_container (js : List Json) : (container js).strings = elementStrings js := by
  cases js <;> rfl

theorem mem_elementStrings {js : List Json} {s : Str} :
    s ∈ elementStrings js ↔ ∃ j ∈ js, s ∈ j.strings := by
  induction js with
  | nil => simp [elementStrings]
  | cons j js ih => simp [elementStrings, ih]

/-- What plain texts satisfy holds of the strings of the response if it holds of the names. -/
theorem forall_strings_iff {rss : List (ResultSet F)} {js : List Json} {P : Str → Prop}
    (h : List.Forall₂ (IsValue sqlite s startTime endTime) rss js) (hP : ∀ s, PlainText s → P s) :
    (∀ s ∈ (container js).strings, P s) ↔ ∀ rs ∈ rss, P rs.metric := by
  rw [strings_container]
  simp only [mem_elementStrings]
  induction h with
  | nil => simp
  | cons hj hjs ih =>
    obtain ⟨hmetric, hstrings⟩ := hasStrings_of_isValue hj
    simp only [List.mem_cons, or_and_right, exists_or, exists_eq_left, or_imp, forall_and, ih,
      forall_eq]
    refine and_congr_left fun _ => ⟨fun hall => hall _ hmetric, fun hone s hs => ?_⟩
    rcases hstrings s hs with rfl | hplain
    · exact hone
    · exact hP s hplain

/-- **The response can be serialised** exactly if the names of its metrics are UTF-8. -/
theorem dump_container_isSome_iff (tc : ToChars) {rss : List (ResultSet F)} {js : List Json}
    (h : List.Forall₂ (IsValue sqlite s startTime endTime) rss js) :
    ((container js).dump tc 0).isSome ↔ ∀ rs ∈ rss, (dumpEscaped rs.metric).isSome := by
  rw [Json.dump_isSome_iff]
  refine forall_strings_iff h fun str hstr => ?_
  rw [dumpEscaped_plain fun c hc => (hstr c hc).1]
  rfl

/-- **The response has a percent sign** exactly if one of its metrics has one in its name. -/
theorem percent_not_mem_dump_iff {tc : ToChars} {rss : List (ResultSet F)} {js : List Json}
    (h : List.Forall₂ (IsValue sqlite s startTime endTime) rss js) {text : Str}
    (ht : (container js).dump tc 0 = some text) : '%' ∉ text ↔ ∀ rs ∈ rss, '%' ∉ rs.metric := by
  have hstrings := forall_strings_iff (P := ('%' ∉ ·)) h fun str hstr hmem => (hstr _ hmem).2 rfl
  rw [(Json.dump_carries tc _ ht).1, ← hstrings]
  simp only [not_exists, not_and]

/-! ## Complete responses -/

/-- The result sets of the parts `m=` whose metric is known and whose query is valid. -/
def answered (sqlite : Engine) (s : State F) (query : Str) : List (ResultSet F) :=
  ((partsFrom query 0).filterMap (partResultSet (prepareQuery sqlite s))).filter (·.query.isSome)

/-- An answered part is the result set of a query. -/
theorem exists_prepareQuery_of_answered {query : Str} {rs : ResultSet F}
    (h : rs ∈ answered sqlite s query) : ∃ q, prepareQuery sqlite s q = some rs := by
  obtain ⟨part, -, hpart⟩ := List.mem_filterMap.mp (List.mem_filter.mp h).1
  rw [partResultSet, Option.ite_none_right_eq_some] at hpart
  exact ⟨_, hpart.2⟩

/-- The object is complete: it has the name of the metric, and under `dps` the downsampled
datapoints by their timestamps, with numbers that JSON can write. -/
def IsEntry (sqlite : Engine) (s : State F) (startTime endTime : BitVec 64) (rs : ResultSet F)
    (j : Json) : Prop :=
  ∃ output m dps, (Downsampler.ofType rs.downsampler).decimate
      (resultsOf sqlite s startTime endTime rs) = some output ∧
    j = .object m ∧ m.lookup "metric".toList = some (.string rs.metric) ∧
    m.lookup "dps".toList = some (.object dps) ∧ (dps.map Prod.fst).Nodup ∧
    dps.Perm (output.map dpsMember) ∧ ∀ d ∈ output, d.value.isFinite = true

/-- The body that is sent is an array with a complete object for every answered part, in order. -/
def CompleteResponse (tc : ToChars) (sqlite : Engine) (s : State F) (curTime : BitVec 64)
    (query : Str) : Prop :=
  let scan := scanQuery curTime (prepareQuery sqlite s) query
  ∃ l text, queryResponse sqlite s curTime query = some (.array l) ∧
    (Json.array l).dump tc 0 = some text ∧
    apiQueryHandler tc sqlite s curTime "GET".toList (some query) =
      some ([.send okHeader, .send text], 200) ∧
    List.Forall₂ (IsEntry sqlite s scan.startTime scan.endTime) (answered sqlite s query) l

/-- The downsampled datapoints of the result set have finite values. -/
def FiniteOutput (sqlite : Engine) (s : State F) (startTime endTime : BitVec 64)
    (rs : ResultSet F) : Prop :=
  ∀ output, (Downsampler.ofType rs.downsampler).decimate (resultsOf sqlite s startTime endTime rs) =
    some output → ∀ d ∈ output, d.value.isFinite = true

/-- The downsampled datapoints of the result set have different timestamps. -/
def DistinctOutput (sqlite : Engine) (s : State F) (startTime endTime : BitVec 64)
    (rs : ResultSet F) : Prop :=
  ∀ output, (Downsampler.ofType rs.downsampler).decimate (resultsOf sqlite s startTime endTime rs) =
    some output → (output.map Dps.timestamp).Nodup

/-- A statement that the model runs has such datapoints. -/
theorem distinctOutput_of_select {query : Query} {rs : ResultSet F}
    (h : prepareQuery sqlite s query = some rs) (hs : (rs.query.bind (·.2.select)).isSome) :
    DistinctOutput sqlite s startTime endTime rs := by
  obtain ⟨sel, hsel⟩ := Option.isSome_iff_exists.mp hs
  obtain ⟨⟨file, stmt⟩, hquery, hsel⟩ := Option.bind_eq_some_iff.mp hsel
  obtain ⟨htable, hselect⟩ := Engine.prepare_spec (prepared_of_prepareQuery h hquery).2
  obtain ⟨rows, hrows⟩ := Option.isSome_iff_exists.mp htable
  obtain ⟨aggregate, hagg⟩ := Option.isSome_iff_exists.mp (hselect sel hsel).2
  have hgrouped := (isGrouped_execute hquery hsel hagg hrows startTime endTime).2
  exact fun _ houtput => hgrouped.nodup.sublist (Downsampler.decimate_sublist _ houtput)

theorem queryResponse_eq_some_iff {curTime : BitVec 64} {query : Str} {v : Json} :
    queryResponse sqlite s curTime query = some v ↔
      ∃ js, List.Forall₂ (IsValue sqlite s
          (scanQuery curTime (prepareQuery sqlite s) query).startTime
          (scanQuery curTime (prepareQuery sqlite s) query).endTime) (answered sqlite s query) js ∧
        v = container js := by
  rw [queryResponse, scanQuery_subqueries]
  exact foldlM_addResult_iff (l := [])

/-- The value of a result set is complete if there is something to be put in it, and nothing that
is overwritten or is no number. -/
theorem isEntry_iff {rs : ResultSet F} {j : Json} (hj : IsValue sqlite s startTime endTime rs j) :
    IsEntry sqlite s startTime endTime rs j ↔
      resultsOf sqlite s startTime endTime rs ≠ [] ∧
        FiniteOutput sqlite s startTime endTime rs ∧
          DistinctOutput sqlite s startTime endTime rs := by
  obtain ⟨output, houtput, hobject⟩ := Option.bind_eq_some_iff.mp hj
  constructor
  · rintro ⟨output', m, dps, houtput', rfl, -, hdps, hnodup, hperm, hfinite⟩
    obtain rfl := Option.some.inj (houtput.symm.trans houtput')
    refine ⟨fun hnil => ?_, fun output' h => ?_, fun output' h => ?_⟩
    · -- without results there is no field
      rw [hnil, Downsampler.decimate_nil, Option.ite_none_left_eq_some] at houtput
      obtain rfl := Option.some.inj houtput.2
      rw [resultObject_nil] at hobject
      obtain rfl := Json.object.inj (Option.some.inj hobject)
      cases hdps
    · rw [houtput] at h
      exact Option.some.inj h ▸ hfinite
    · rw [houtput] at h
      rw [← Option.some.inj h]
      have hkeys := (hperm.map Prod.fst).nodup_iff.mp hnodup
      have hmap : (output.map dpsMember).map Prod.fst =
          (output.map Dps.timestamp).map fun t => showNat t.toNat := by
        simp [dpsMember, Function.comp_def]
      rw [hmap] at hkeys
      exact hkeys.of_map _
  · rintro ⟨hne, hfinite, hdistinct⟩
    obtain ⟨output', houtput', hne'⟩ := Downsampler.exists_decimate _ hne
    obtain rfl := Option.some.inj (houtput.symm.trans houtput')
    have hnodup := hdistinct output houtput
    obtain ⟨dps, hdps, -, hperm⟩ := resultObject_eq rs.metric hne'
    rw [hobject] at hdps
    obtain rfl := Option.some.inj hdps
    exact ⟨output, _, dps, houtput, rfl, rfl, rfl,
      ((hperm hnodup).map _).nodup_iff.mpr (nodup_dpsMember hnodup), hperm hnodup,
      hfinite output houtput⟩

theorem exists_isValue {rs : ResultSet F} (h : resultsOf sqlite s startTime endTime rs ≠ []) :
    ∃ j, IsValue sqlite s startTime endTime rs j := by
  obtain ⟨output, houtput, hne⟩ := Downsampler.exists_decimate (.ofType rs.downsampler) h
  obtain ⟨dps, hdps, -⟩ := resultObject_eq rs.metric hne
  exact ⟨_, Option.bind_eq_some_iff.mpr ⟨output, houtput, hdps⟩⟩

/-- An answered part has results exactly if its statement has a row. -/
theorem resultsOf_ne_nil_iff {query : Str} {rs : ResultSet F} (h : rs ∈ answered sqlite s query) :
    resultsOf sqlite s startTime endTime rs ≠ [] ↔ rs.Matched sqlite s.disk startTime endTime := by
  obtain ⟨q, hq⟩ := exists_prepareQuery_of_answered h
  exact execute_ne_nil_iff hq startTime endTime

theorem exists_forall₂ {α β : Type*} {R : α → β → Prop} {l : List α} (h : ∀ a ∈ l, ∃ b, R a b) :
    ∃ bs, List.Forall₂ R l bs := by
  induction l with
  | nil => exact ⟨[], .nil⟩
  | cons a l ih =>
    rw [List.forall_mem_cons] at h
    obtain ⟨b, hb⟩ := h.1
    obtain ⟨bs, hbs⟩ := ih h.2
    exact ⟨b :: bs, .cons hb hbs⟩

/-- **The response is complete exactly when** a part is answered, and every answered part has a
matching row, datapoints with finite values and different timestamps, and a metric whose name is
UTF-8 without a percent sign. -/
theorem completeResponse_iff (tc : ToChars) (sqlite : Engine) (s : State F) (curTime : BitVec 64)
    (query : Str) :
    let scan := scanQuery curTime (prepareQuery sqlite s) query
    CompleteResponse tc sqlite s curTime query ↔
      answered sqlite s query ≠ [] ∧ ∀ rs ∈ answered sqlite s query,
        rs.Matched sqlite s.disk scan.startTime scan.endTime ∧
          FiniteOutput sqlite s scan.startTime scan.endTime rs ∧
          DistinctOutput sqlite s scan.startTime scan.endTime rs ∧
          '%' ∉ rs.metric ∧ (dumpEscaped rs.metric).isSome := by
  intro scan
  constructor
  · rintro ⟨l, text, hresponse, htext, hsent, hentries⟩
    obtain ⟨js, hjs, hl⟩ := queryResponse_eq_some_iff.mp hresponse
    rw [hl] at hresponse htext
    have hpercent := (percent_not_mem_dump_iff hjs htext).mp
      ((apiQueryHandler_sends_iff hresponse htext).mp hsent)
    have hutf8 := (dump_container_isSome_iff tc hjs).mp (by rw [htext]; rfl)
    obtain rfl : l = js := by
      cases js with
      | nil => cases hl
      | cons j js => exact Json.array.inj hl
    obtain ⟨hparts, -⟩ := (List.forall₂_and_left _ _).mp
      (hentries.mp (fun rs j hentry hj => ⟨(isEntry_iff hj).mp hentry, hj⟩) hjs)
    refine ⟨fun hnil => ?_, fun rs hrs => ?_⟩
    · rw [hnil, List.forall₂_nil_left_iff] at hjs
      rw [hjs] at hl
      cases hl
    · obtain ⟨hne, hfinite, hdistinct⟩ := hparts rs hrs
      exact ⟨(resultsOf_ne_nil_iff hrs).mp hne, hfinite, hdistinct, hpercent rs hrs, hutf8 rs hrs⟩
  · rintro ⟨hne, hall⟩
    have hresults : ∀ rs ∈ answered sqlite s query,
        resultsOf sqlite s scan.startTime scan.endTime rs ≠ [] :=
      fun rs hrs => (resultsOf_ne_nil_iff hrs).mpr (hall rs hrs).1
    obtain ⟨js, hjs⟩ := exists_forall₂ fun rs hrs => exists_isValue (hresults rs hrs)
    have hresponse := queryResponse_eq_some_iff.mpr ⟨js, hjs, rfl⟩
    obtain ⟨text, htext⟩ := Option.isSome_iff_exists.mp
      ((dump_container_isSome_iff tc hjs).mpr fun rs hrs => (hall rs hrs).2.2.2.2)
    have hsent := (apiQueryHandler_sends_iff hresponse htext).mpr
      ((percent_not_mem_dump_iff hjs htext).mpr fun rs hrs => (hall rs hrs).2.2.2.1)
    have hentries : List.Forall₂ (IsEntry sqlite s scan.startTime scan.endTime)
        (answered sqlite s query) js := by
      have hparts := (List.forall₂_and_left _ _).mpr
        ⟨fun rs hrs => And.intro (hresults rs hrs)
          (And.intro (hall rs hrs).2.1 (hall rs hrs).2.2.1), hjs⟩
      exact hparts.imp fun rs j h => (isEntry_iff h.2).mpr h.1
    cases js with
    | nil => exact absurd (List.forall₂_nil_right_iff.mp hjs) hne
    | cons j js => exact ⟨j :: js, text, hresponse, htext, hsent, hentries⟩

/-- A text for every double. -/
def zeroChars : ToChars where
  text _ := "0.0".toList
  text_chars _ := by decide

theorem partsFrom_nil : partsFrom [] 0 = [] := by
  rw [partsFrom_eq, ← splitString, splitString_eq_fields, Delimited.fields_nil]

/-- **The response to an empty query string is null.** -/
theorem not_completeResponse : ¬ ∀ (tc : ToChars) (sqlite : Engine) (s : State Str)
    (curTime : BitVec 64) (query : Str), CompleteResponse tc sqlite s curTime query := by
  intro h
  obtain ⟨l, -, hresponse, -⟩ := h zeroChars singleValue (started noDatabases) 0 []
  obtain ⟨js, hjs, hl⟩ := queryResponse_eq_some_iff.mp hresponse
  rw [answered, partsFrom_nil, List.filterMap_nil, List.filter_nil,
    List.forall₂_nil_left_iff] at hjs
  rw [hjs] at hl
  cases hl

end SimpleTSDB.Http
