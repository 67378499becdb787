import SimpleTSDB.Query.Meaning

/-!
# The accepted queries

`Shape` is the form of the queries that the parser does not refuse: some text, a colon, some text,
and in braces some text that is not empty (`header_eq_some_iff`). The documented form asks for more.
`accepts_documented_iff` says which queries are treated as documented.
-/

namespace SimpleTSDB.Query

open Delimited

/-! ## Accepted queries -/

/-- The query is cut at its first colon, at the first opening brace behind it, and at the first
closing brace behind that one, with no further colon in between. -/
structure Shape (q agg name tags rest : Str) : Prop where
  eq : q = agg ++ ':' :: (name ++ '{' :: (tags ++ '}' :: rest))
  colon_agg : ':' ∉ agg
  colon_name : ':' ∉ name
  brace_name : '{' ∉ name
  colon_tags : ':' ∉ tags
  brace_tags : '}' ∉ tags
  tags_ne : tags ≠ []

/-- What `braced` finds are the texts around the first braces. -/
theorem eq_of_braced {elem name tags : Str} (h : braced elem = some (name, tags)) :
    ∃ behind, elem = name ++ '{' :: (tags ++ '}' :: behind) ∧ '{' ∉ name ∧ '}' ∉ tags := by
  rcases cases_delim '{' elem with hno | ⟨pre, r, rfl, hpre⟩
  · rw [braced, find_of_not_mem (by simpa using hno)] at h
    cases h
  · rcases cases_delim '}' r with hr | ⟨t, behind, rfl, ht⟩
    · have hob : find (pre ++ '{' :: r) '{' 0 = some pre.length := by
        simpa using find_append (p := []) hpre r rfl
      have hcb : find (pre ++ '{' :: r) '}' pre.length = none :=
        find_of_not_mem_append (by simpa using hr) rfl
      simp only [braced, hob, hcb] at h
      cases h
    · rw [braced_append hpre ht] at h
      obtain ⟨rfl, rfl⟩ := Prod.mk.inj (Option.some.inj h)
      exact ⟨behind, rfl, hpre, ht⟩

/-- What the compiler cuts at the colons; what stands behind the closing brace may contain one. -/
theorem Shape.splitString_eq {q agg name tags rest : Str} (h : Shape q agg name tags rest) :
    ∃ behind more, splitString q ':' =
      agg :: (name ++ '{' :: (tags ++ '}' :: behind)) :: more := by
  obtain ⟨rfl, hagg, hname, -, htags, -, -⟩ := h
  rw [splitString_eq_fields, fields_append_delim hagg]
  rcases cases_delim ':' rest with hrest | ⟨behind, more, rfl, hbehind⟩
  · refine ⟨rest, [], congrArg _ (fields_of_not_mem ?_ (by simp))⟩
    simp [hname, htags, hrest]
  · refine ⟨behind, fields ':' more, congrArg _ ?_⟩
    have hcut : name ++ '{' :: (tags ++ '}' :: (behind ++ ':' :: more)) =
        (name ++ '{' :: (tags ++ '}' :: behind)) ++ ':' :: more := by simp
    rw [hcut, fields_append_delim]
    simp [hname, htags, hbehind]

theorem Shape.one_le_length {q agg name tags rest : Str} (h : Shape q agg name tags rest) :
    ¬ (splitString tags ',').length < 1 := by
  rw [Nat.lt_one_iff, List.length_eq_zero_iff, splitString_eq_fields, fields_eq_nil_iff]
  exact h.tags_ne

/-- **The compiled query of the shape.** -/
theorem Shape.ofText_eq {q agg name tags rest : Str} (h : Shape q agg name tags rest) :
    (ofText q).metric = name ∧
      (ofText q).query = headText agg ++ (condsText (keptFilters tags) ++ tailText) := by
  obtain ⟨behind, more, hsplit⟩ := h.splitString_eq
  rw [ofText, hsplit]
  simp only [braced_append h.brace_name h.brace_tags, if_neg h.one_le_length, str_foldl_addFilter,
    and_self]

/-- **The parser does not refuse a query if and only if** it has the shape. -/
theorem header_eq_some_iff {q agg tags : Str} :
    header q = some (agg, tags) ↔ ∃ name rest, Shape q agg name tags rest := by
  constructor
  · intro h
    rw [header, splitString_eq_fields] at h
    split at h
    next agg' elem more hsplit =>
      split at h
      · cases h
      next name tags' hbraced =>
        obtain ⟨hlen, heq⟩ := Option.ite_none_left_eq_some.mp h
        obtain ⟨rfl, rfl⟩ := Prod.mk.inj (Option.some.inj heq)
        obtain ⟨r, rfl, hagg, hr⟩ := fields_eq_cons_cons hsplit
        obtain ⟨behind, rfl, hname, htags⟩ := eq_of_braced hbraced
        obtain ⟨more', rfl⟩ := prefix_of_fields_eq_cons hr
        have hcolon := not_mem_of_mem_fields (hr ▸ List.mem_cons_self)
        simp only [List.mem_append, List.mem_cons, not_or] at hcolon
        refine ⟨name, behind ++ more', by simp, hagg, hcolon.1, hname, hcolon.2.2.1, htags, ?_⟩
        rintro rfl
        exact hlen (by rw [splitString_eq_fields]; decide)
    next => cases h
  · rintro ⟨name, rest, hshape⟩
    obtain ⟨behind, more, hsplit⟩ := hshape.splitString_eq
    rw [header, hsplit]
    simp only [braced_append hshape.brace_name hshape.brace_tags, if_neg hshape.one_le_length]

theorem query_ne_nil_iff {q : Str} : (ofText q).query ≠ [] ↔ ∃ p, header q = some p := by
  rw [ofText_query]
  cases header q with
  | none => simp
  | some p =>
    have hne : headText p.1 ≠ [] := by
      unfold headText
      simp
    simp [hne]

/-- **A query has a statement if and only if** it has the shape. -/
theorem query_ne_nil_iff_shape {q : Str} :
    (ofText q).query ≠ [] ↔ ∃ agg name tags rest, Shape q agg name tags rest := by
  rw [query_ne_nil_iff]
  constructor
  · rintro ⟨⟨agg, tags⟩, h⟩
    obtain ⟨name, rest, hshape⟩ := header_eq_some_iff.mp h
    exact ⟨agg, name, tags, rest, hshape⟩
  · rintro ⟨agg, name, tags, rest, hshape⟩
    exact ⟨(agg, tags), header_eq_some_iff.mpr ⟨name, rest, hshape⟩⟩

/-- A query is cut in one way. -/
theorem Shape.unique {q agg name tags rest agg' name' tags' rest' : Str}
    (h : Shape q agg name tags rest) (h' : Shape q agg' name' tags' rest') :
    agg = agg' ∧ name = name' ∧ tags = tags' ∧ rest = rest' := by
  obtain ⟨rfl, h₁⟩ := append_delim_inj h.colon_agg h'.colon_agg (h.eq.symm.trans h'.eq)
  obtain ⟨rfl, h₂⟩ := append_delim_inj h.brace_name h'.brace_name h₁
  obtain ⟨rfl, rfl⟩ := append_delim_inj h.brace_tags h'.brace_tags h₂
  exact ⟨rfl, rfl, rfl, rfl⟩

/-! ## Documented queries -/

/-- A key or a value: some text without the delimiters of queries. -/
def IsText (s : Str) : Prop := s ≠ [] ∧ ∀ c ∈ "=|,{}:".toList, c ∉ s

/-- A pair `key=value|...|value`. -/
def IsPair (s : Str) : Prop :=
  ∃ key values, IsText key ∧ values ≠ [] ∧ (∀ v ∈ values, IsText v) ∧
    s = key ++ '=' :: ['|'].intercalate values

/-- The documented form `agg:metric{pair,...,pair}` or `agg:metric{pair,...,pair}:downsampler`. -/
def IsDocumented (q : Str) : Prop :=
  ∃ (agg : Aggregator) (name : Str) (pairs : List Str) (ds : Option Str),
    (name ≠ [] ∧ ':' ∉ name ∧ '{' ∉ name) ∧ (pairs ≠ [] ∧ ∀ p ∈ pairs, IsPair p) ∧
      (∀ d ∈ ds, ':' ∉ d) ∧
        q = agg.text ++ ':' :: (name ++ '{' :: ([','].intercalate pairs ++
          '}' :: ds.elim [] (':' :: ·)))

theorem not_mem_pair {p : Str} (h : IsPair p) {c : Char} (hc : c ∈ ",\x7d:".toList) : c ∉ p := by
  obtain ⟨key, values, hkey, -, hvalues, rfl⟩ := h
  have hd : c ∈ "=|,{}:".toList ∧ c ≠ '=' ∧ c ≠ '|' := by
    revert hc
    simp only [show ",\x7d:".toList = [',', '}', ':'] from rfl, List.mem_cons, List.not_mem_nil,
      or_false]
    rintro (rfl | rfl | rfl) <;> decide
  intro hmem
  rcases List.mem_append.mp hmem with hmem | hmem
  · exact hkey.2 c hd.1 hmem
  · rcases List.mem_cons.mp hmem with hmem | hmem
    · exact hd.2.1 hmem
    · rcases mem_intercalate hmem with hmem | ⟨v, hv, hmem⟩
      · exact hd.2.2 (List.mem_singleton.mp hmem)
      · exact (hvalues v hv).2 c hd.1 hmem

theorem pair_ne {p : Str} (h : IsPair p) : p ≠ [] := by
  obtain ⟨key, values, -, -, -, rfl⟩ := h
  simp

/-- The pairs of a documented query are the pieces between its commas. -/
theorem splitOn_pairs {pairs : List Str} (hne : pairs ≠ []) (h : ∀ p ∈ pairs, IsPair p) :
    ([','].intercalate pairs).splitOn ',' = pairs :=
  List.splitOn_intercalate _ (fun p hp => not_mem_pair (h p hp) (by decide)) hne

/-- **A documented query has the shape.** -/
theorem IsDocumented.shape {q : Str} (h : IsDocumented q) :
    ∃ (agg : Aggregator) (name tags rest : Str), Shape q agg.text name tags rest ∧ name ≠ [] ∧
      (∀ piece ∈ tags.splitOn ',', IsPair piece) ∧
        (rest = [] ∨ ∃ d, ':' ∉ d ∧ rest = ':' :: d) := by
  obtain ⟨agg, name, pairs, ds, ⟨hname, hcolon, hbrace⟩, ⟨hne, hpairs⟩, hds, rfl⟩ := h
  have hno {c : Char} (hc : c ∈ "\x7d:".toList) : c ∉ [','].intercalate pairs := by
    intro hmem
    have hc' : c ∈ ",\x7d:".toList ∧ c ≠ ',' := by
      revert hc
      simp only [show "\x7d:".toList = ['}', ':'] from rfl, List.mem_cons, List.not_mem_nil,
        or_false]
      rintro (rfl | rfl) <;> decide
    rcases mem_intercalate hmem with hmem | ⟨p, hp, hmem⟩
    · exact hc'.2 (List.mem_singleton.mp hmem)
    · exact not_mem_pair (hpairs p hp) hc'.1 hmem
  refine ⟨agg, name, [','].intercalate pairs, ds.elim [] (':' :: ·),
    ⟨rfl, by cases agg <;> decide, hcolon, hbrace, hno (by decide), hno (by decide), ?_⟩, hname,
    ?_, ?_⟩
  · intro hnil
    have hsplit := splitOn_pairs hne hpairs
    rw [hnil] at hsplit
    exact pair_ne (hpairs [] (hsplit ▸ List.mem_singleton_self [])) rfl
  · rw [splitOn_pairs hne hpairs]
    exact hpairs
  · cases ds with
    | none => exact .inl rfl
    | some d => exact .inr ⟨d, hds d rfl, rfl⟩

/-- **A query is accepted if and only if it is documented, exactly when** an accepted query has a
documented aggregator, a metric, pairs between the commas, and behind the brace nothing or a
colon and a text without one. -/
theorem accepts_documented_iff (q : Str) : ((ofText q).query ≠ [] ↔ IsDocumented q) ↔
    ∀ agg name tags rest, Shape q agg name tags rest →
      (∃ a : Aggregator, agg = a.text) ∧ name ≠ [] ∧ (∀ piece ∈ tags.splitOn ',', IsPair piece) ∧
        (rest = [] ∨ ∃ d, ':' ∉ d ∧ rest = ':' :: d) := by
  constructor
  · intro h agg name tags rest hshape
    have hdoc := h.mp (query_ne_nil_iff_shape.mpr ⟨agg, name, tags, rest, hshape⟩)
    obtain ⟨a, name', tags', rest', hshape', hfields⟩ := hdoc.shape
    obtain ⟨rfl, rfl, rfl, rfl⟩ := hshape.unique hshape'
    exact ⟨⟨a, rfl⟩, hfields⟩
  · intro h
    rw [query_ne_nil_iff_shape]
    constructor
    · rintro ⟨agg, name, tags, rest, hshape⟩
      obtain ⟨⟨a, rfl⟩, hname, hpairs, hrest⟩ := h agg name tags rest hshape
      have htags : [','].intercalate (tags.splitOn ',') = tags := List.intercalate_splitOn ','
      refine ⟨a, name, tags.splitOn ',', rest.tail?, ⟨hname, hshape.colon_name, hshape.brace_name⟩,
        ⟨List.splitOn_ne_nil _ _, hpairs⟩, ?_, ?_⟩
      · rcases hrest with rfl | ⟨d, hd, rfl⟩
        · simp
        · simpa using hd
      · rw [hshape.eq, htags]
        rcases hrest with rfl | ⟨d, hd, rfl⟩
        · rfl
        · rfl
    · intro hdoc
      obtain ⟨a, name, tags, rest, hshape, -⟩ := hdoc.shape
      exact ⟨a.text, name, tags, rest, hshape⟩

/-- A filter that is no pair is accepted. -/
theorem not_accepts_documented : ¬ ∀ q, (ofText q).query ≠ [] ↔ IsDocumented q := by
  intro h
  have hshape : Shape "sum:cpu\x7bjunk\x7d".toList "sum".toList "cpu".toList "junk".toList [] :=
    ⟨rfl, by decide, by decide, by decide, by decide, by decide, by decide⟩
  obtain ⟨a, name, tags, rest, hshape', -, hpairs, -⟩ :=
    ((h _).mp (query_ne_nil_iff_shape.mpr ⟨_, _, _, _, hshape⟩)).shape
  obtain ⟨-, -, rfl, -⟩ := hshape.unique hshape'
  obtain ⟨key, values, -, -, -, heq⟩ := hpairs "junk".toList (by decide)
  have hmem : '=' ∈ "junk".toList := heq ▸ by simp
  exact absurd hmem (by decide)

end SimpleTSDB.Query
