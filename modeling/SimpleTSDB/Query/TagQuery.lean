import SimpleTSDB.Query.Accepts

/-!
# Queries for a tag

The query part `sum:N{k=v}` for a metric and a text that need not be in the documented form of a
filter: the compiler cuts the text at its delimiters, and keeps some pieces as filters. Every kept
filter is matched by the text itself, so that the rows with the text in their tags are selected
(`tagQuery_selects`), if the name and the text are delimited as the writer meant. A name with a
delimiter of the query language is the metric of no query (`not_mem_metric`).
-/

namespace SimpleTSDB.Query

open Delimited Wildcard Sqlite

/-- The query part for a metric and a text in its braces. -/
def tagQuery (name text : Str) : Str := "sum:".toList ++ (name ++ '{' :: (text ++ ['}']))

/-- The part of the text that the compiler reads. -/
def readPart (text : Str) : Str := text.takeWhile (· ≠ '}')

/-- A filter that is cut into a key and an empty value. -/
def EmptyValue (filter : Str) : Prop := ∃ key, '=' ∉ key ∧ filter = key ++ ['=', '=']

/-- A text is one filter with a value if it has no comma and does not end in an equals sign. -/
theorem value_ne_of_getLast {text : Str} (hcomma : ',' ∉ text) (hlast : text.getLast? ≠ some '=') :
    ∀ filter ∈ fields ',' text, ¬ EmptyValue filter := by
  rcases eq_or_ne text [] with rfl | hne
  · exact List.forall_mem_nil _
  · rw [fields_of_not_mem hcomma hne, List.forall_mem_singleton]
    rintro ⟨key, -, rfl⟩
    exact hlast (by simp)

/-! ## The compiled text -/

/-- The text in the braces ends at the first closing brace. -/
theorem readPart_append (text : Str) :
    ∃ rest, text ++ ['}'] = readPart text ++ '}' :: rest ∧ '}' ∉ readPart text := by
  rcases cases_delim '}' text with h | ⟨u, rest, rfl, hu⟩
  · rw [readPart, (span_of_not_mem h).1]
    exact ⟨[], rfl, h⟩
  · rw [readPart, (span_append_delim hu rest).1]
    exact ⟨rest ++ ['}'], by simp, hu⟩

/-- **The query of a tag is compiled to the filters of the text up to the first closing brace.** -/
theorem ofText_tagQuery {name text : Str} (hn : ':' ∉ name) (hb : '{' ∉ name)
    (hne : readPart text ≠ []) (hc : ':' ∉ readPart text) :
    (ofText (tagQuery name text)).metric = name ∧
      (ofText (tagQuery name text)).query =
        statementText .sum (keptFilters (readPart text)) := by
  obtain ⟨rest, htext, hcb⟩ := readPart_append text
  have hcut : tagQuery name text =
      "sum".toList ++ ':' :: (name ++ '{' :: (readPart text ++ '}' :: rest)) := by
    rw [tagQuery, htext]
    rfl
  have hshape : Shape (tagQuery name text) Aggregator.sum.text name (readPart text) rest :=
    ⟨hcut, by decide, hn, hb, hc, hcb, hne⟩
  exact hshape.ofText_eq

/-- A tag query without another colon has no downsampler. -/
theorem downsampler_tagQuery {name text : Str} (hn : ':' ∉ name) (hc : ':' ∉ text) :
    (ofText (tagQuery name text)).downsampler = [] := by
  have hsplit : splitString (tagQuery name text) ':' =
      ["sum".toList, name ++ '{' :: (text ++ ['}'])] := by
    have hcut : tagQuery name text = "sum".toList ++ ':' :: (name ++ '{' :: (text ++ ['}'])) := rfl
    rw [splitString_eq_fields, hcut, fields_append_delim (by decide),
      fields_of_not_mem (by simp [hn, hc]) (by simp)]
  simp only [ofText, hsplit]
  cases braced (name ++ '{' :: (text ++ ['}'])) with
  | none => rfl
  | some p =>
    dsimp only
    split <;> rfl

/-! ## The kept filters -/

/-- A character of a filter is covered by what the compiler makes of it: a star becomes a wildcard,
and the other characters stand for themselves. -/
theorem covers_replace (w : Str) :
    List.Forall₂ (Sym.Covers SameLetter) ((replace w '*' '%').map likeSym) w := by
  induction w with
  | nil => exact .nil
  | cons c w ih =>
    refine .cons ?_ ih
    change Sym.Covers SameLetter (likeSym (if c = '*' then '%' else c)) c
    split
    · trivial
    · exact likeSym_covers c

/-- A stretch of the tags is found by the pattern that is made of it. -/
theorem like_replace {w tags : Str} (h : w <:+: tags) :
    Like ('%' :: replace w '*' '%' ++ ['%']) tags :=
  like_contains.mpr ⟨w, h, matches_of_forall₂ (covers_replace w)⟩

/-- **The kept filters** are the ones that are cut into a key and a value. -/
theorem filterParts_eq_some_iff {filter : Str} {p : Str × Str} : filterParts filter = some p ↔
    ∃ key value, fields '=' filter = [key, value] ∧
      p = (replace key '*' '%', replace value '*' '%') := by
  -- the compiler makes an equals sign of nothing else
  have heq (c : Char) : (if c = '*' then '%' else c) = '=' ↔ c = '=' := by
    split
    next hc => simp [hc]
    next => exact Iff.rfl
  rw [filterParts, splitString_eq_fields, replace, fields_map heq]
  rcases fields '=' filter with _ | ⟨key, _ | ⟨value, _ | ⟨more, rest⟩⟩⟩
  · simp
  · simp
  · simp [replace, eq_comm]
  · simp

theorem emptyValue_iff {filter : Str} :
    EmptyValue filter ↔ ∃ key, fields '=' filter = [key, []] := by
  refine exists_congr fun key => ?_
  rw [fields_eq_pair_iff]
  simp

/-- What a kept filter is: a key and a value at its start. -/
theorem filterParts_spec {filter key value : Str} (h : filterParts filter = some (key, value)) :
    key ++ '=' :: value <+: replace filter '*' '%' ∧ (value = [] → EmptyValue filter) := by
  obtain ⟨k, v, hsplit, heq⟩ := filterParts_eq_some_iff.mp h
  obtain ⟨rfl, rfl⟩ := Prod.mk.inj heq
  constructor
  · obtain ⟨-, -, ⟨rfl, -⟩ | rfl⟩ := fields_eq_pair_iff.mp hsplit
    · exact ⟨[], by simp [replace]⟩
    · exact ⟨['='], by simp [replace]⟩
  · intro hvalue
    obtain rfl := List.map_eq_nil_iff.mp hvalue
    exact emptyValue_iff.mpr ⟨k, hsplit⟩

/-- The kept filters have no characters that the text did not have, but for the wildcard. -/
theorem not_mem_keptFilters {text : Str} {c : Char} (hc : c ≠ '%') (h : c ∉ text)
    {p : Str × Str} (hp : p ∈ keptFilters text) : c ∉ p.1 ∧ c ∉ p.2 := by
  rw [keptFilters, splitString_eq_fields] at hp
  obtain ⟨filter, hfilter, hparts⟩ := List.mem_filterMap.mp hp
  have hnot : c ∉ p.1 ++ '=' :: p.2 := by
    intro hmem
    obtain ⟨d, hd, heq⟩ := List.mem_map.mp ((filterParts_spec hparts).1.subset hmem)
    split at heq
    · exact hc heq.symm
    · exact h ((infix_of_mem_fields hfilter).subset (heq ▸ hd))
  simp only [List.mem_append, List.mem_cons, not_or] at hnot
  exact ⟨hnot.1, hnot.2.2⟩

/-- **A kept filter has a value and is matched by tags that contain the text it was cut from.** -/
theorem keptFilters_spec {text : Str} (hempty : ∀ filter ∈ fields ',' text, ¬ EmptyValue filter)
    {p : Str × Str} (hp : p ∈ keptFilters text) : p.2 ≠ [] ∧ ∀ tags, text <:+: tags →
      ∃ part ∈ splitString p.2 '|', Like (pattern p.1 part) tags := by
  rw [keptFilters, splitString_eq_fields] at hp
  obtain ⟨filter, hfilter, hparts⟩ := List.mem_filterMap.mp hp
  obtain ⟨key, value⟩ := p
  obtain ⟨hstart, hvalue⟩ := filterParts_spec hparts
  have hne : value ≠ [] := fun h => hempty filter hfilter (hvalue h)
  refine ⟨hne, fun tags htags => ?_⟩
  -- the first alternative is the start of the value
  cases hsplit : fields '|' value with
  | nil => exact absurd (fields_eq_nil_iff.mp hsplit) hne
  | cons part parts =>
    refine ⟨part, by rw [splitString_eq_fields, hsplit]; exact List.mem_cons_self, ?_⟩
    have hpart : key ++ '=' :: part <+: replace filter '*' '%' :=
      ((List.prefix_append_right_inj key).mpr
        (List.cons_prefix_cons.mpr ⟨rfl, prefix_of_fields_eq_cons hsplit⟩)).trans hstart
    obtain ⟨rest, hrest⟩ := hpart
    obtain ⟨w, v, rfl, hw, -⟩ := List.map_eq_append_iff.mp hrest.symm
    have hinfix : w <:+: tags :=
      (List.prefix_append w v).isInfix.trans ((infix_of_mem_fields hfilter).trans htags)
    rw [pattern, ← hw]
    exact like_replace hinfix

/-- Without a NUL in the filters there is none in their conditions. -/
theorem nul_not_mem_condsText {kept : List (Str × Str)}
    (h : ∀ p ∈ kept, '\x00' ∉ p.1 ∧ '\x00' ∉ p.2) : '\x00' ∉ condsText kept := by
  have htag {key value : Str} (hk : '\x00' ∉ key) (hv : '\x00' ∉ value) :
      '\x00' ∉ tagLike key value := by
    unfold tagLike
    simp [hk, hv]
  intro hmem
  obtain ⟨⟨key, value⟩, hp, hmem⟩ := List.mem_flatMap.mp hmem
  obtain ⟨hk, hv⟩ := h _ hp
  rcases List.mem_cons.mp hmem with hmem | hmem
  · exact absurd hmem (by decide)
  · simp only [filterCond] at hmem
    split at hmem
    · replace hmem :
          '\x00' ∈ " or ".toList.intercalate ((splitString value '|').map (tagLike key)) := by
        simpa only [List.mem_append, show '\x00' ∉ "and (".toList by decide,
          show '\x00' ∉ ")".toList by decide, false_or, or_false] using hmem
      rcases mem_intercalate hmem with hmem | ⟨part, hpart, hmem⟩
      · exact absurd hmem (by decide)
      · obtain ⟨v, hv', rfl⟩ := List.mem_map.mp hpart
        rw [splitString_eq_fields] at hv'
        exact htag hk (fun hc => hv ((infix_of_mem_fields hv').subset hc)) hmem
    · exact htag hk hv hmem

/-! ## The rows -/

/-- **The query of a tag selects the rows of the window with the tag**, by a statement within the
limits of SQLite if its filters are. -/
theorem tagQuery_selects {name text : Str} (hn : ':' ∉ name) (hb : '{' ∉ name) (hq : '\'' ∉ text)
    (h0 : '\x00' ∉ text) (hne : readPart text ≠ []) (hc : ':' ∉ readPart text)
    (hempty : ∀ filter ∈ fields ',' (readPart text), ¬ EmptyValue filter) :
    (ofText (tagQuery name text)).metric = name ∧ '\x00' ∉ (ofText (tagQuery name text)).query ∧
      ∃ stmt, Select.ofProgram (ofText (tagQuery name text)).query = some stmt ∧
        stmt.agg = Aggregator.sum.text ∧
          (InLimits (keptFilters (readPart text)) →
            stmt.WithinLimits (ofText (tagQuery name text)).query) ∧
          ∀ (params : ℕ → BitVec 64) (row : Row), text <:+: row.tags →
            (params 1).toInt ≤ row.timestamp.toInt → row.timestamp.toInt ≤ (params 2).toInt →
              stmt.Selects params row := by
  have hread : readPart text <+: text := List.takeWhile_prefix _
  have hkept {c : Char} (hc : c ≠ '%') (h : c ∉ text) (p : Str × Str)
      (hp : p ∈ keptFilters (readPart text)) : c ∉ p.1 ∧ c ∉ p.2 :=
    not_mem_keptFilters hc (fun hmem => h (hread.subset hmem)) hp
  obtain ⟨hmetric, hquery⟩ := ofText_tagQuery hn hb hne hc
  have hplain : ∀ p ∈ keptFilters (readPart text), Plain p := fun p hp =>
    ⟨(hkept (by decide) hq p hp).1, (hkept (by decide) hq p hp).2, (keptFilters_spec hempty hp).1⟩
  have hvalue : ∀ p ∈ keptFilters (readPart text), p.2 ≠ [] := fun p hp => (hplain p hp).2.2
  refine ⟨hmetric, ?_, _, hquery ▸ ofProgram_statementText .sum hplain, rfl,
    fun hlimits => hquery ▸ hlimits.withinLimits .sum hvalue, fun params row ht h₁ h₂ => ?_⟩
  · have hhead : '\x00' ∉ headText Aggregator.sum.text := by decide
    have htail : '\x00' ∉ tailText := by decide
    simp [hquery, statementText, hhead, htail, nul_not_mem_condsText (hkept (by decide) h0)]
  · exact (selects_whereExpr hvalue params row).mpr
      ⟨⟨h₁, h₂⟩, fun p hp => (keptFilters_spec hempty hp).2 row.tags (hread.isInfix.trans ht)⟩

/-- The metric of a braced text ends before the first brace. -/
theorem not_mem_of_braced {elem name tags : Str} (h : braced elem = some (name, tags)) :
    '{' ∉ name ∧ name <+: elem := by
  obtain ⟨behind, rfl, hname, -⟩ := eq_of_braced h
  exact ⟨hname, List.prefix_append _ _⟩

/-- The metric of a query is empty, or it stands before the braces of the second field. -/
theorem metric_cases (q : Str) : (ofText q).metric = [] ∨
    ∃ elem tags, elem ∈ fields ':' q ∧ braced elem = some ((ofText q).metric, tags) := by
  rw [ofText, splitString_eq_fields]
  split
  next agg elem rest hsplit =>
    split
    next => exact .inl rfl
    next name tags hb =>
      have helem : elem ∈ fields ':' q := by simp [hsplit]
      by_cases h : (splitString tags ',').length < 1
      · simp only [if_pos h]
        exact .inr ⟨elem, tags, helem, hb⟩
      · simp only [if_neg h]
        exact .inr ⟨elem, tags, helem, hb⟩
  next => exact .inl rfl

/-- The metric is a part of the query. -/
theorem metric_infix (q : Str) : (ofText q).metric <:+: q := by
  rcases metric_cases q with h | ⟨elem, tags, helem, hb⟩
  · rw [h]
    exact List.nil_infix
  · exact (not_mem_of_braced hb).2.isInfix.trans (infix_of_mem_fields helem)

/-- **No query is for a metric with a delimiter in its name.** -/
theorem not_mem_metric (q : Str) : ':' ∉ (ofText q).metric ∧ '{' ∉ (ofText q).metric := by
  rcases metric_cases q with h | ⟨elem, tags, helem, hb⟩
  · rw [h]
    exact ⟨List.not_mem_nil, List.not_mem_nil⟩
  · obtain ⟨hbrace, hstart⟩ := not_mem_of_braced hb
    exact ⟨fun h => not_mem_of_mem_fields helem (hstart.subset h), hbrace⟩

end SimpleTSDB.Query
