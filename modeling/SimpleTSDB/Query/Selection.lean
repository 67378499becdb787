import SimpleTSDB.Query.Filters
import SimpleTSDB.Tags

/-!
# Compiled and documented filters

By the documentation a filter selects the rows with a tag whose key is the filter's key and whose
value is one of the alternatives, with `*` for any text. The compiled statement looks for the text
`key=value` anywhere in the tags text, with the wildcards of LIKE. `selected_documented_iff` says
when a selected row satisfies the documented filters: each text must also occur as a whole tag.
-/

namespace SimpleTSDB.Query

open Delimited Wildcard Sqlite

/-- A character of a documented value. -/
def valueSym (c : Char) : Sym Char := if c = '*' then .run else .lit c

/-- The pattern of a whole tag. -/
def tagPattern (key value : Str) : List (Sym Char) :=
  key.map .lit ++ .lit '=' :: value.map valueSym

namespace Filter

/-- The documented meaning of a filter, for a list of tags. -/
def Documented (f : Filter) (ts : List Tag) : Prop :=
  ∃ t ∈ ts, List.Forall₂ SameLetter f.key t.key ∧
    ∃ v ∈ f.values, Matches SameLetter (v.map valueSym) t.value

/-- An alternative of the filter occurs in the text, with the wildcards of LIKE. -/
def Occurs (f : Filter) (tags : Str) : Prop :=
  ∃ v ∈ f.values, ∃ u, u <:+: tags ∧
    Matches SameLetter ((starred (f.key ++ '=' :: v)).map likeSym) u

/-- An alternative of the filter occurs, with `*` as the only wildcard, in a stretch without a blank
that starts at the start or behind a blank and ends at the end or before one. -/
def Aligned (f : Filter) (tags : Str) : Prop :=
  ∃ v ∈ f.values, ∃ u, Matches SameLetter (tagPattern f.key v) u ∧ ' ' ∉ u ∧
    ∃ p q, tags = p ++ (u ++ q) ∧ (p = [] ∨ [' '] <:+ p) ∧ (q = [] ∨ [' '] <+: q)

instance (f : Filter) (ts : List Tag) : Decidable (f.Documented ts) :=
  inferInstanceAs (Decidable (∃ t ∈ ts, List.Forall₂ SameLetter f.key t.key ∧
    ∃ v ∈ f.values, Matches SameLetter (v.map valueSym) t.value))

end Filter

/-- The row is selected by the statement of the query, with the bounds of the window. -/
def Selected (agg : Aggregator) (name : Str) (fs : List Filter) (ds : Option Str)
    (start stop : BitVec 64) (row : Row) : Prop :=
  ∃ stmt, Select.ofText (ofText (queryText agg name fs ds)).query = some stmt ∧
    stmt.Selects (bound start stop) row

/-- Does the row lie in the window? -/
def InWindow (start stop : BitVec 64) (row : Row) : Prop :=
  start.toInt ≤ row.timestamp.toInt ∧ row.timestamp.toInt ≤ stop.toInt

instance (start stop : BitVec 64) (row : Row) : Decidable (InWindow start stop row) :=
  inferInstanceAs (Decidable (_ ∧ _))

/-- The selected rows are those of the window in which every filter occurs. -/
theorem selected_iff (agg : Aggregator) {name : Str} (hn : ':' ∉ name) (hb : '{' ∉ name)
    {fs : List Filter} (hne : fs ≠ []) (ds : Option Str) {start stop : BitVec 64} {row : Row} :
    Selected agg name fs ds start stop row ↔
      InWindow start stop row ∧ ∀ f ∈ fs, f.Occurs row.tags := by
  obtain ⟨stmt, hstmt, -, hsel⟩ := selects_filters agg fs
  rw [Selected, ofText_queryText agg hn hb hne]
  simp only [hstmt, Option.some.injEq, exists_eq_left', hsel, like_contains]
  rfl

/-! ## Whole tags -/

theorem sameLetter_eq_iff {c : Char} : SameLetter '=' c ↔ c = '=' := by
  constructor
  · intro h
    have h : '=' = tolower c := h
    rw [tolower] at h
    split at h
    next hc =>
      -- no capital letter becomes an equals sign
      have hlower : ∀ n < 91, 65 ≤ n → '=' ≠ Char.ofNat (n + 32) := by decide
      simp only [Bool.and_eq_true, decide_eq_true_eq, char_le_iff] at hc
      exact absurd h (hlower c.toNat (Nat.lt_succ_of_le hc.2) hc.1)
    · exact h.symm
  · rintro rfl
    rfl

/-- Letters that are the same keep the equals sign out. -/
theorem eq_not_mem_of_forall₂ {a b : Str} (h : List.Forall₂ SameLetter a b) (ha : '=' ∉ a) :
    '=' ∉ b := by
  induction h with
  | nil => exact List.not_mem_nil
  | @cons x y a b hxy _ ih =>
    rw [List.mem_cons, not_or] at ha ⊢
    refine ⟨?_, ih ha.2⟩
    rintro rfl
    exact ha.1 (sameLetter_eq_iff.mp hxy.symm).symm

/-- The pattern of a tag matches the tags whose key and value match. -/
theorem matches_tagPattern_iff {key value : Str} (hk : '=' ∉ key) (t : Tag) :
    Matches SameLetter (tagPattern key value) t.text ↔
      List.Forall₂ SameLetter key t.key ∧ Matches SameLetter (value.map valueSym) t.value := by
  rw [tagPattern, matches_append]
  simp only [matches_map_lit, matches_lit_cons, sameLetter_eq_iff]
  constructor
  · rintro ⟨a, _, htext, ha, _, b, rfl, rfl, hb⟩
    obtain ⟨rfl, rfl⟩ := append_delim_inj t.eq_not_mem (eq_not_mem_of_forall₂ ha hk) htext
    exact ⟨ha, hb⟩
  · rintro ⟨hkey, hvalue⟩
    exact ⟨t.key, '=' :: t.value, rfl, hkey, '=', t.value, rfl, rfl, hvalue⟩

/-- **A documented filter is one that occurs as a whole tag.** -/
theorem documented_iff (f : Filter) (ts : List Tag) :
    f.Documented ts ↔ f.Aligned (tagsText ts) := by
  have hkey : '=' ∉ f.key := f.key_word.not_mem (by decide)
  have hpieces (u : Str) : (' ' ∉ u ∧ ∃ p q, tagsText ts = p ++ (u ++ q) ∧
      (p = [] ∨ [' '] <:+ p) ∧ (q = [] ∨ [' '] <+: q)) ↔ u ∈ (tagsText ts).splitOn ' ' :=
    mem_splitOn_iff.symm
  simp only [Filter.Aligned, hpieces]
  rcases eq_or_ne ts [] with rfl | hne
  · -- no tags, and the pattern of a tag does not match the empty text
    have hnil (v : Str) : ¬ Matches SameLetter (tagPattern f.key v) [] := by
      rw [tagPattern, matches_append]
      rintro ⟨s₁, s₂, h, -, h₂⟩
      obtain ⟨c, t, rfl, -⟩ := matches_lit_cons.mp h₂
      exact absurd h (by simp)
    constructor
    · rintro ⟨t, ht, -⟩
      exact absurd ht List.not_mem_nil
    · rintro ⟨v, -, u, hu, hmem⟩
      obtain rfl := List.mem_singleton.mp hmem
      exact absurd hu (hnil v)
  · rw [splitOn_tagsText hne]
    constructor
    · rintro ⟨t, ht, hk, v, hv, hm⟩
      exact ⟨v, hv, t.text, (matches_tagPattern_iff hkey t).mpr ⟨hk, hm⟩,
        List.mem_map_of_mem ht⟩
    · rintro ⟨v, hv, u, hu, hmem⟩
      obtain ⟨t, ht, rfl⟩ := List.mem_map.mp hmem
      obtain ⟨hk, hm⟩ := (matches_tagPattern_iff hkey t).mp hu
      exact ⟨t, ht, hk, v, hv, hm⟩

/-! ## No under-selection -/

/-- A literal of a documented filter, when it is compiled. -/
theorem lit_le_starred (c : Char) :
    Sym.Le SameLetter (.lit c) (likeSym (if c = '*' then '%' else c)) := by
  by_cases hstar : c = '*'
  · rw [if_pos hstar]
    exact Sym.le_run _
  · rw [if_neg hstar, likeSym]
    split
    · exact Sym.le_run _
    · split
      · exact Sym.lit_le_one c
      · exact fun _ h => h

/-- A character of a documented value, when it is compiled. -/
theorem valueSym_le_starred (c : Char) :
    Sym.Le SameLetter (valueSym c) (likeSym (if c = '*' then '%' else c)) := by
  by_cases hstar : c = '*'
  · rw [if_pos hstar]
    exact Sym.le_run _
  · rw [valueSym, if_neg hstar]
    exact lit_le_starred c

/-- **A documented pattern is no wider than the compiled one.** -/
theorem tagPattern_le (key value : Str) : List.Forall₂ (Sym.Le SameLetter) (tagPattern key value)
    ((starred (key ++ '=' :: value)).map likeSym) := by
  rw [starred, replace, List.map_map, List.map_append, List.map_cons, tagPattern]
  refine List.rel_append ?_ (.cons ?_ ?_)
  · rw [List.forall₂_map_left_iff, List.forall₂_map_right_iff, List.forall₂_same]
    exact fun c _ => lit_le_starred c
  · exact lit_le_starred '='
  · rw [List.forall₂_map_left_iff, List.forall₂_map_right_iff, List.forall₂_same]
    exact fun c _ => valueSym_le_starred c

/-- An alternative that occurs as a whole tag occurs. -/
theorem Filter.Aligned.occurs {f : Filter} {tags : Str} (h : f.Aligned tags) : f.Occurs tags := by
  obtain ⟨v, hv, u, hu, -, p, q, rfl, -, -⟩ := h
  exact ⟨v, hv, u, ⟨p, q, List.append_assoc p u q⟩, hu.mono (tagPattern_le f.key v)⟩

/-- The row is selected by the statement of the query text, with the bounds of the window. -/
def SelectedBy (q : Str) (start stop : BitVec 64) (row : Row) : Prop :=
  ∃ stmt, Select.ofText (ofText q).query = some stmt ∧ stmt.Selects (bound start stop) row

/-- The header of a query in the documented form. -/
theorem header_queryText (agg : Aggregator) {name : Str} (hn : ':' ∉ name) (hb : '{' ∉ name)
    {fs : List Filter} (hne : fs ≠ []) (ds : Option Str) :
    header (queryText agg name fs ds) =
      some (agg.text, [','].intercalate (fs.map Filter.text)) := by
  rw [header, splitString_queryText agg hn]
  simp only [braced_append hb (not_mem_filters (show '}' ∈ "'{}:".toList by decide)),
    splitString_filters, if_neg (not_length_filters_lt hne)]

/-- **Filters do not under-select**: the statement of any query that is compiled from an aggregator
and a list of filters selects every row of the window with a documented tag for each of them. -/
theorem selectedBy_of_documented (agg : Aggregator) (fs : List Filter) (q : Str)
    (hq : header q = some (agg.text, [','].intercalate (fs.map Filter.text)))
    (start stop : BitVec 64) (row : Row) (hw : InWindow start stop row) (ts : List Tag)
    (ht : row.tags = tagsText ts) (hdoc : ∀ f ∈ fs, f.Documented ts) :
    SelectedBy q start stop row := by
  obtain ⟨stmt, hstmt, -, hsel⟩ := selects_filters agg fs
  refine ⟨stmt, ?_, ?_⟩
  · rw [ofText_query, hq]
    simp only [keptFilters_filters, hstmt]
  · rw [hsel]
    refine ⟨hw, fun f hf => ?_⟩
    have halign : f.Aligned row.tags := ht ▸ (documented_iff f ts).mp (hdoc f hf)
    obtain ⟨v, hv, hu⟩ := halign.occurs
    exact ⟨v, hv, like_contains.mpr hu⟩

/-! ## Over-selection -/

/-- **A selected row satisfies the documented filters exactly when** it lies outside the window, or
some filter does not occur in its tags, or every filter occurs there as a whole tag. -/
theorem selected_documented_iff (agg : Aggregator) (name : Str) (hn : ':' ∉ name) (hb : '{' ∉ name)
    (fs : List Filter) (ds : Option Str) (start stop : BitVec 64) (row : Row) (ts : List Tag)
    (ht : row.tags = tagsText ts) :
    (Selected agg name fs ds start stop row → ∀ f ∈ fs, f.Documented ts) ↔
      ¬ InWindow start stop row ∨ (∃ f ∈ fs, ¬ f.Occurs row.tags) ∨
        ∀ f ∈ fs, f.Aligned row.tags := by
  rcases eq_or_ne fs [] with rfl | hne
  · exact iff_of_true (fun _ => nofun) (.inr (.inr nofun))
  · simp only [selected_iff agg hn hb hne, documented_iff, ← ht]
    constructor
    · intro h
      by_cases hw : InWindow start stop row
      · by_cases ho : ∀ f ∈ fs, f.Occurs row.tags
        · exact .inr (.inr (h ⟨hw, ho⟩))
        · push Not at ho
          exact .inr (.inl ho)
      · exact .inl hw
    · rintro (hw | ⟨f, hf, ho⟩ | h) ⟨hw', ho'⟩
      · exact absurd hw' hw
      · exact absurd (ho' f hf) ho
      · exact h

/-- The tag `host=web01`. -/
def webTag : Tag where
  key := "host".toList
  value := "web01".toList
  key_ne := by decide
  value_ne := by decide
  eq_not_mem := by decide
  blank_not_mem_key := by decide
  blank_not_mem_value := by decide

/-- The hosts `web*` or `db` select the row of a web host, and it has the tag. -/
theorem selected_documented_example :
    Selected .sum "cpu".toList [hostFilter] none 0 9 ⟨5, .nan, tagsText [webTag]⟩ ∧
      ∀ f ∈ [hostFilter], f.Documented [webTag] := by
  have hocc : ∀ f ∈ [hostFilter], f.Aligned (tagsText [webTag]) := by
    rw [List.forall_mem_singleton]
    exact ⟨"web*".toList, by decide, webTag.text, by decide, by decide, [], [], by decide,
      .inl rfl, .inl rfl⟩
  have hsel : Selected .sum "cpu".toList [hostFilter] none 0 9 ⟨5, .nan, tagsText [webTag]⟩ := by
    rw [selected_iff .sum (by decide) (by decide) (by decide)]
    refine ⟨by decide, ?_⟩
    rw [List.forall_mem_singleton]
    exact ⟨"web*".toList, by decide, webTag.text, List.infix_refl _, by decide⟩
  exact ⟨hsel, (selected_documented_iff .sum _ (by decide) (by decide) _ _ _ _ _ _ rfl).mpr
    (.inr (.inr hocc)) hsel⟩

/-- A row of a web host is selected by the hosts `web*` or `db`. -/
theorem selectedBy_of_documented_example :
    SelectedBy (queryText .sum "cpu".toList [hostFilter] none) 0 9
      ⟨5, .nan, tagsText [webTag]⟩ :=
  selectedBy_of_documented .sum [hostFilter] _
    (header_queryText .sum (by decide) (by decide) (by decide) none) 0 9 _ (by decide) [webTag] rfl
    (by decide)

/-- The tag `xhost=web010`, whose text contains `host=web01`. -/
def otherTag : Tag where
  key := "xhost".toList
  value := "web010".toList
  key_ne := by decide
  value_ne := by decide
  eq_not_mem := by decide
  blank_not_mem_key := by decide
  blank_not_mem_value := by decide

/-- A tag with a longer key and a longer value is selected. -/
theorem selected_not_documented : ¬ ∀ (agg : Aggregator) (name : Str) (fs : List Filter)
    (ds : Option Str) (start stop : BitVec 64) (row : Row) (ts : List Tag),
    ':' ∉ name → '{' ∉ name → row.tags = tagsText ts → Selected agg name fs ds start stop row →
      ∀ f ∈ fs, f.Documented ts := by
  intro h
  have hsel : Selected .sum "cpu".toList [hostFilter] none 0 9 ⟨5, .nan, tagsText [otherTag]⟩ := by
    rw [selected_iff .sum (by decide) (by decide) (by decide)]
    refine ⟨by decide, ?_⟩
    rw [List.forall_mem_singleton]
    exact ⟨"web*".toList, by decide, "host=web".toList, ⟨"x".toList, "010".toList, by decide⟩,
      by decide⟩
  have hdoc := h .sum _ _ _ _ _ _ _ (by decide) (by decide) rfl hsel hostFilter (by simp)
  exact absurd hdoc (by decide)

end SimpleTSDB.Query
