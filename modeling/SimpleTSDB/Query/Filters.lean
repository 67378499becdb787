import SimpleTSDB.Query.Meaning

/-!
# Queries in the documented form

A query names an aggregator, a metric and a list of filters, each a key with alternatives, and may
end with a downsampler. `ofText_queryText` compiles such a query; `compile_preserves` says that the
statement selects the rows of the time window that have an alternative of every filter in their
tags text.
-/

namespace SimpleTSDB

open Delimited Sqlite

namespace Query

/-- The characters that a key or a value of a filter does not contain. -/
def delimiters : Str := "',=|{}:".toList

/-- Is the text a key or a value of a filter? -/
def IsWord (s : Str) : Prop := s ≠ [] ∧ ∀ c ∈ delimiters, c ∉ s

instance (s : Str) : Decidable (IsWord s) :=
  inferInstanceAs (Decidable (s ≠ [] ∧ ∀ c ∈ delimiters, c ∉ s))

/-- A filter `key=value|...|value`. -/
structure Filter where
  key : Str
  values : List Str
  key_word : IsWord key
  values_ne : values ≠ []
  value_word : ∀ v ∈ values, IsWord v

namespace Filter

/-- The text of the alternatives. -/
def valueText (f : Filter) : Str := ['|'].intercalate f.values

/-- The text of the filter. -/
def text (f : Filter) : Str := f.key ++ '=' :: f.valueText

end Filter

/-- The text of a query. -/
def queryText (agg : Aggregator) (name : Str) (fs : List Filter) (downsampler : Option Str) : Str :=
  agg.text ++ ':' :: (name ++ '{' :: ([','].intercalate (fs.map Filter.text) ++
    '}' :: downsampler.elim [] (':' :: ·)))

/-- The star of a filter is the percent sign of a pattern. -/
def starred (s : Str) : Str := replace s '*' '%'

/-! ## Delimiters -/

theorem not_mem_starred {s : Str} {c : Char} (h : c ∉ s) (hc : c ≠ '%') : c ∉ starred s := by
  simp only [starred, replace, List.mem_map, not_exists, not_and]
  intro d hd
  split
  · exact hc.symm
  · rintro rfl
    exact h hd

theorem starred_append (s t : Str) : starred (s ++ t) = starred s ++ starred t := List.map_append

theorem IsWord.not_mem {s : Str} (h : IsWord s) {c : Char} (hc : c ∈ delimiters) : c ∉ s :=
  h.2 c hc

namespace Filter

variable (f : Filter)

theorem not_mem_valueText {c : Char} (hc : c ∈ delimiters) (hb : c ≠ '|') : c ∉ f.valueText := by
  intro h
  rcases mem_intercalate h with h | ⟨v, hv, h⟩
  · exact hb (List.mem_singleton.mp h)
  · exact (f.value_word v hv).not_mem hc h

theorem not_mem_text {c : Char} (hc : c ∈ delimiters) (hb : c ≠ '|') (he : c ≠ '=') :
    c ∉ f.text := by
  simp [text, f.key_word.not_mem hc, he, f.not_mem_valueText hc hb]

theorem valueText_ne : f.valueText ≠ [] := by
  rcases f with ⟨_, _ | ⟨v, vs⟩, _, hne, hv⟩
  · exact absurd rfl hne
  · simp [valueText, intercalate_cons_eq, (hv v (by simp)).1]

theorem text_ne : f.text ≠ [] := by simp [text]

/-- The parts of the filter that the compiler keeps. -/
def parts : Str × Str := (starred f.key, starred f.valueText)

/-- The compiler cuts the filter at its equals sign. -/
theorem filterParts_text : filterParts f.text = some f.parts := by
  have hk : '=' ∉ starred f.key := not_mem_starred (f.key_word.not_mem (by decide)) (by decide)
  have hv : '=' ∉ starred f.valueText :=
    not_mem_starred (f.not_mem_valueText (by decide) (by decide)) (by decide)
  have hne : starred f.valueText ≠ [] := by simpa [starred, replace] using f.valueText_ne
  have htext : replace f.text '*' '%' = starred f.key ++ '=' :: starred f.valueText :=
    starred_append _ _
  have hsplit : splitString (replace f.text '*' '%') '=' =
      [starred f.key, starred f.valueText] := by
    rw [htext, splitString_eq_fields, fields_append_delim hk, fields_of_not_mem hv hne]
  rw [filterParts, hsplit, parts]

/-- The compiler cuts the value at its bars. -/
theorem splitString_parts : splitString f.parts.2 '|' = f.values.map starred := by
  have hvalue : starred f.valueText = ['|'].intercalate (f.values.map starred) :=
    map_intercalate _ _ _
  rw [parts, hvalue, splitString_eq_fields]
  refine fields_intercalate ?_ ?_
  · simp only [List.mem_map, forall_exists_index, and_imp, forall_apply_eq_imp_iff₂]
    exact fun v hv => not_mem_starred ((f.value_word v hv).not_mem (by decide)) (by decide)
  · intro h
    obtain ⟨v, hv, hnil⟩ := List.mem_map.mp (List.mem_of_getLast? h)
    exact (f.value_word v hv).1 (List.map_eq_nil_iff.mp hnil)

theorem plain_parts : Plain f.parts :=
  ⟨not_mem_starred (f.key_word.not_mem (by decide)) (by decide),
    not_mem_starred (f.not_mem_valueText (by decide) (by decide)) (by decide),
    by simpa [parts, starred, replace] using f.valueText_ne⟩

end Filter

/-! ## The compiled query -/

/-- The compiler cuts the filters at their commas. -/
theorem splitString_filters (fs : List Filter) :
    splitString ([','].intercalate (fs.map Filter.text)) ',' = fs.map Filter.text := by
  rw [splitString_eq_fields]
  refine fields_intercalate ?_ ?_
  · simp only [List.mem_map, forall_exists_index, and_imp, forall_apply_eq_imp_iff₂]
    exact fun f _ => f.not_mem_text (by decide) (by decide) (by decide)
  · intro h
    obtain ⟨f, -, hnil⟩ := List.mem_map.mp (List.mem_of_getLast? h)
    exact f.text_ne hnil

theorem not_length_filters_lt {fs : List Filter} (hne : fs ≠ []) :
    ¬ (fs.map Filter.text).length < 1 := by
  rw [List.length_map, Nat.lt_one_iff, List.length_eq_zero_iff]
  exact hne

theorem keptFilters_filters (fs : List Filter) :
    keptFilters ([','].intercalate (fs.map Filter.text)) = fs.map Filter.parts := by
  rw [keptFilters, splitString_filters, List.filterMap_map]
  exact List.filterMap_eq_map_iff_forall_eq_some.mpr fun f _ => f.filterParts_text

theorem not_mem_filters {fs : List Filter} {c : Char} (hc : c ∈ "'{}:".toList) :
    c ∉ [','].intercalate (fs.map Filter.text) := by
  intro h
  have hd : c ∈ delimiters ∧ c ≠ '|' ∧ c ≠ '=' ∧ c ≠ ',' := by
    revert hc
    simp only [show "'{}:".toList = ['\'', '{', '}', ':'] from rfl, List.mem_cons,
      List.not_mem_nil, or_false]
    rintro (rfl | rfl | rfl | rfl) <;> decide
  rcases mem_intercalate h with h | ⟨s, hs, h⟩
  · exact hd.2.2.2 (List.mem_singleton.mp h)
  · obtain ⟨f, -, rfl⟩ := List.mem_map.mp hs
    exact f.not_mem_text hd.1 hd.2.1 hd.2.2.1 h

/-- The compiler cuts the query at its colons. -/
theorem splitString_queryText (agg : Aggregator) {name : Str} (hn : ':' ∉ name) (fs : List Filter)
    (ds : Option Str) : splitString (queryText agg name fs ds) ':' =
      agg.text :: (name ++ '{' :: ([','].intercalate (fs.map Filter.text) ++ ['}'])) ::
        ds.elim [] (fields ':') := by
  have hagg : ':' ∉ agg.text := by cases agg <;> decide
  have helem : ':' ∉ name ++ '{' :: ([','].intercalate (fs.map Filter.text) ++ ['}']) := by
    simp [hn, not_mem_filters (show ':' ∈ "'{}:".toList by decide)]
  have hcut : name ++ '{' :: ([','].intercalate (fs.map Filter.text) ++
      '}' :: ds.elim [] (':' :: ·)) =
      (name ++ '{' :: ([','].intercalate (fs.map Filter.text) ++ ['}'])) ++
        ds.elim [] (':' :: ·) := by simp
  rw [splitString_eq_fields, queryText, fields_append_delim hagg, hcut]
  cases ds with
  | none => rw [Option.elim_none, List.append_nil, fields_of_not_mem helem (by simp)]; rfl
  | some d => exact congrArg _ (fields_append_delim helem d)

/-- **A query in the documented form is compiled to the statement of its filters.** -/
theorem ofText_queryText (agg : Aggregator) {name : Str} (hn : ':' ∉ name) (hb : '{' ∉ name)
    {fs : List Filter} (hne : fs ≠ []) (ds : Option Str) :
    ofText (queryText agg name fs ds) =
      { query := headText agg.text ++ (condsText (fs.map Filter.parts) ++ tailText)
        metric := name
        downsampler := (ds.elim [] (fields ':')).head?.getD [] } := by
  rw [ofText, splitString_queryText agg hn]
  simp only [braced_append hb (not_mem_filters (show '}' ∈ "'{}:".toList by decide)),
    splitString_filters, if_neg (not_length_filters_lt hne)]
  rw [← splitString_filters fs, str_foldl_addFilter, keptFilters_filters]

/-! ## The rows of a query -/

/-- The alternatives of a filter, as the compiled pattern looks for them. -/
theorem exists_part_iff (f : Filter) (tags : Str) :
    (∃ part ∈ splitString f.parts.2 '|', Like (pattern f.parts.1 part) tags) ↔
      ∃ v ∈ f.values, Like ('%' :: starred (f.key ++ '=' :: v) ++ ['%']) tags := by
  have h (v : Str) : starred (f.key ++ '=' :: v) = starred f.key ++ '=' :: starred v :=
    starred_append _ _
  simp only [f.splitString_parts, List.mem_map, exists_exists_and_eq_and, h]
  rfl

/-- The statement of the query selects the rows of the window that contain an alternative of every
filter. -/
def PreservesFilters (agg : Aggregator) (name : Str) (fs : List Filter) (ds : Option Str) : Prop :=
  ∃ stmt, Select.ofText (ofText (queryText agg name fs ds)).query = some stmt ∧
    stmt.agg = agg.text ∧ ∀ (params : ℕ → BitVec 64) (row : Row), stmt.Selects params row ↔
      ((params 1).toInt ≤ row.timestamp.toInt ∧ row.timestamp.toInt ≤ (params 2).toInt) ∧
        ∀ f ∈ fs, ∃ v ∈ f.values, Like ('%' :: starred (f.key ++ '=' :: v) ++ ['%']) row.tags

theorem plain_filters (fs : List Filter) : ∀ p ∈ fs.map Filter.parts, Plain p :=
  List.forall_mem_map.mpr fun f _ => f.plain_parts

theorem selects_filters (agg : Aggregator) (fs : List Filter) :
    ∃ stmt, Select.ofText (headText agg.text ++ (condsText (fs.map Filter.parts) ++ tailText)) =
        some stmt ∧
      stmt.agg = agg.text ∧ ∀ (params : ℕ → BitVec 64) (row : Row), stmt.Selects params row ↔
        ((params 1).toInt ≤ row.timestamp.toInt ∧ row.timestamp.toInt ≤ (params 2).toInt) ∧
          ∀ f ∈ fs, ∃ v ∈ f.values,
            Like ('%' :: starred (f.key ++ '=' :: v) ++ ['%']) row.tags := by
  refine ⟨_, ofText_statementText agg (plain_filters fs), rfl, fun params row => ?_⟩
  rw [selects_whereExpr fun p hp => (plain_filters fs p hp).2.2]
  simp only [List.mem_map, forall_exists_index, and_imp, forall_apply_eq_imp_iff₂, exists_part_iff]

/-- **The compiler preserves the structure of the filters.** -/
theorem compile_preserves (agg : Aggregator) (name : Str) (hn : ':' ∉ name) (hb : '{' ∉ name)
    (fs : List Filter) (hne : fs ≠ []) (ds : Option Str) : PreservesFilters agg name fs ds := by
  rw [PreservesFilters, ofText_queryText agg hn hb hne]
  exact selects_filters agg fs

/-- The filter `host=web*|db`. -/
def hostFilter : Filter where
  key := "host".toList
  values := ["web*".toList, "db".toList]
  key_word := by decide
  values_ne := by decide
  value_word := by decide

/-- A query for the hosts in a documented form. -/
theorem compile_preserves_example :
    PreservesFilters .sum "sys.cpu".toList [hostFilter] (some "1m-avg".toList) :=
  compile_preserves .sum _ (by decide) (by decide) _ (by decide) _

/-- A colon in the name of the metric ends the name, and the query is refused. -/
theorem compile_not_preserves : ¬ ∀ (agg : Aggregator) (name : Str) (fs : List Filter)
    (ds : Option Str), fs ≠ [] → PreservesFilters agg name fs ds := by
  intro h
  obtain ⟨stmt, hstmt, -⟩ := h .sum "a:b".toList [hostFilter] none (by decide)
  have hquery : (ofText (queryText .sum "a:b".toList [hostFilter] none)).query = [] := by
    rw [ofText, splitString_eq_fields]
    decide
  rw [hquery] at hstmt
  cases hstmt

end Query

end SimpleTSDB
