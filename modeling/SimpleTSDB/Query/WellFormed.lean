import SimpleTSDB.Datastore.ReadBack
import SimpleTSDB.Query.Confined
import SimpleTSDB.Query.TagQuery

/-!
# Well-formed statements

A where clause is the time bounds and some conditions behind them, each joined by `and`. The
scanner of the confined statements goes through every such clause, and through the conditions of the
filters only if all filters have a value (`isWhere_iff`). Such a statement is prepared, unless a
filter has a NUL, which cuts the statement inside a literal (`Closed.run_cstr`), or the statement is
too deep or too long for SQLite. `wellFormed_iff` is the condition on the query.
-/

namespace SimpleTSDB.Query

open Delimited Transducer Sqlite

/-! ## Where clauses -/

/-- A LIKE condition on the tags. -/
def IsLike (t : Str) : Prop := ∃ body, '\'' ∉ body ∧ t = "tags like '".toList ++ (body ++ ['\''])

/-- A list of LIKE conditions in parentheses. -/
def IsOrList (c : Str) : Prop :=
  ∃ ts, ts ≠ [] ∧ (∀ t ∈ ts, IsLike t) ∧ c = "(".toList ++ (" or ".toList.intercalate ts ++ [')'])

/-- A condition behind the time bounds. -/
def IsCond (c : Str) : Prop := ∃ t, (IsLike t ∨ IsOrList t) ∧ c = "and ".toList ++ t

/-- The time bounds, and conditions each behind a blank. -/
def IsWhere (w : Str) : Prop :=
  ∃ conds : List Str, (∀ c ∈ conds, IsCond c) ∧ w = timeBounds ++ conds.flatMap (' ' :: ·)

/-- The statement before its where clause. -/
def selectText (agg : Str) : Str :=
  "select timestamp, ".toList ++ agg ++ "(value) as value from METRIC where ".toList

/-- The where clause of the statement is derivable, and the query is not dropped where there are
the metric and the table. -/
structure WellFormed (e : Datastore.Engine) (q : Str) (agg : Aggregator) : Prop where
  derivable : ∃ w, IsWhere w ∧ (ofText q).query = selectText agg.text ++ (w ++ tailText)
  prepared : ∀ (F : Type) (s : Datastore.State F) (file : F),
    s.store.lookup (ofText q).metric = some file → (s.disk file).rows ≠ none →
      (Datastore.prepareQuery e s (ofText q)).isSome

/-! ## The scanner on where clauses -/

theorem quotesPaired_of_not_mem {s : Str} (h : '\'' ∉ s) : quotesPaired false s = true := by
  induction s with
  | nil => rfl
  | cons c s ih =>
    rw [List.mem_cons, not_or] at h
    rw [quotesPaired, if_neg (Ne.symm h.1), ih h.2]
    rfl

theorem scan_like {t : Str} (h : IsLike t) (r : Traced) :
    scan .outside (plain t ++ r) = scan .quote r := by
  obtain ⟨body, hbody, rfl⟩ := h
  have hquotes : IsBody (erase (plain body)) := by
    rw [erase_plain, isBody_iff, quotesPaired_of_not_mem hbody]
  rw [plain_append, plain_append]
  exact scan_literal hquotes r

theorem scan_orList {t : Str} (h : IsOrList t) (r : Traced) :
    scan .outside (plain t ++ r) = scan .clause r := by
  obtain ⟨ts, hne, hts, rfl⟩ := h
  have hlikes : ∀ t ∈ ts.map plain, ∀ r, scan .outside (t ++ r) = scan .quote r := by
    simp only [List.mem_map, forall_exists_index, and_imp, forall_apply_eq_imp_iff₂]
    exact fun t ht => scan_like (hts t ht)
  have hlist : plain (" or ".toList.intercalate ts) =
      (plain " or ".toList).intercalate (ts.map plain) := map_intercalate _ _ _
  rw [plain_append, plain_append, hlist]
  exact scan_parens (by simpa using hne) hlikes r

/-- Behind a condition, the scanner may go on with an `and`. -/
theorem scan_and {s : ScanState} (hs : s = .clause ∨ s = .quote) (t : Str) (r : Traced) :
    scan s (plain (' ' :: ("and ".toList ++ t)) ++ r) = scan .outside (plain t ++ r) := by
  have hand : scan s (plain " and ".toList) = some .outside := by
    rcases hs with rfl | rfl <;> decide
  have htext : plain (' ' :: ("and ".toList ++ t)) ++ r =
      plain " and ".toList ++ (plain t ++ r) := by
    simp [plain]
  rw [htext, scan_append hand]

/-- **The scanner goes through the conditions of a where clause.** -/
theorem scan_where {conds : List Str} (h : ∀ c ∈ conds, IsCond c) {s : ScanState}
    (hs : s = .clause ∨ s = .quote) :
    (scan s (plain (conds.flatMap (' ' :: ·)))).isSome := by
  induction conds generalizing s with
  | nil => rfl
  | cons c conds ih =>
    rw [List.forall_mem_cons] at h
    obtain ⟨⟨t, ht, rfl⟩, h⟩ := h
    rw [List.flatMap_cons, plain_append, scan_and hs]
    rcases ht with hlike | hor
    · rw [scan_like hlike]
      exact ih h (.inr rfl)
    · rw [scan_orList hor]
      exact ih h (.inl rfl)

/-! ## The conditions of the filters -/

/-- The key and the value of a filter contain no quote. -/
def QuoteFree (p : Str × Str) : Prop := '\'' ∉ p.1 ∧ '\'' ∉ p.2

theorem isLike_tagLike {key value : Str} (hk : '\'' ∉ key) (hv : '\'' ∉ value) :
    IsLike (tagLike key value) :=
  ⟨pattern key value, quote_not_mem_pattern hk hv, tagLike_eq key value⟩

/-- The condition of a filter with a value is a list in parentheses. -/
theorem filterCond_eq {p : Str × Str} (hp : QuoteFree p) (hne : p.2 ≠ []) :
    ∃ t, IsOrList t ∧ filterCond p.1 p.2 = "and ".toList ++ t := by
  have hsplit : splitString p.2 '|' ≠ [] := by
    rw [splitString_eq_fields]
    exact fun h => hne (fields_eq_nil_iff.mp h)
  refine ⟨_, ⟨(splitString p.2 '|').map (tagLike p.1), ?_, ?_, rfl⟩, ?_⟩
  · simpa using hsplit
  · intro t ht
    obtain ⟨v, hv, rfl⟩ := List.mem_map.mp ht
    rw [splitString_eq_fields] at hv
    exact isLike_tagLike hp.1 fun hmem => hp.2 ((infix_of_mem_fields hv).subset hmem)
  · rw [filterCond, if_pos (List.length_pos_iff.mpr hsplit)]
    simp

/-- The condition of a filter without a value starts without `and`. -/
theorem filterCond_nil (key : Str) :
    filterCond key [] = 't' :: ("ags like '%".toList ++ (key ++ "=%'".toList)) := by
  unfold filterCond tagLike
  simp [splitString_eq_fields]

/-- **The scanner goes through the conditions of the filters** only if they have values. -/
theorem value_ne_of_scan {kept : List (Str × Str)} (hkept : ∀ p ∈ kept, QuoteFree p)
    (h : (scan .clause (plain (condsText kept))).isSome) : ∀ p ∈ kept, p.2 ≠ [] := by
  induction kept with
  | nil => exact List.forall_mem_nil _
  | cons p kept ih =>
    rw [List.forall_mem_cons] at hkept ⊢
    rw [condsText, List.flatMap_cons, ← condsText, plain_append] at h
    have hne : p.2 ≠ [] := by
      intro hnil
      rw [hnil, filterCond_nil] at h
      cases h
    obtain ⟨t, ht, heq⟩ := filterCond_eq hkept.1 hne
    rw [heq, scan_and (.inl rfl), scan_orList ht] at h
    exact ⟨hne, ih hkept.2 h⟩

/-- **The where clause of the filters is derivable if and only if** all filters have values. -/
theorem isWhere_iff {kept : List (Str × Str)} (hkept : ∀ p ∈ kept, QuoteFree p) :
    IsWhere (timeBounds ++ condsText kept) ↔ ∀ p ∈ kept, p.2 ≠ [] := by
  constructor
  · rintro ⟨conds, hconds, heq⟩
    have hscan := scan_where hconds (.inl rfl)
    rw [← List.append_cancel_left heq] at hscan
    exact value_ne_of_scan hkept hscan
  · intro h
    refine ⟨kept.map fun p => filterCond p.1 p.2, ?_, by rw [condsText, List.flatMap_map]⟩
    intro c hc
    obtain ⟨p, hp, rfl⟩ := List.mem_map.mp hc
    obtain ⟨t, ht, heq⟩ := filterCond_eq (hkept p hp) (h p hp)
    exact ⟨t, .inr ht, heq⟩

/-! ## A NUL in a literal -/

/-- A text whose quotes come in pairs, with every NUL between the quotes of a pair. -/
structure Closed (s : Str) : Prop where
  even : Even (s.count '\'')
  odd_nul : ∀ p r, s = p ++ '\x00' :: r → Odd (p.count '\'')

theorem closed_of_not_mem {s : Str} (hq : '\'' ∉ s) (h0 : '\x00' ∉ s) : Closed s where
  even := by simp [List.count_eq_zero_of_not_mem hq]
  odd_nul := by
    rintro p r rfl
    simp at h0

theorem Closed.append {s t : Str} (hs : Closed s) (ht : Closed t) : Closed (s ++ t) where
  even := by
    rw [List.count_append]
    exact hs.even.add ht.even
  odd_nul := by
    intro p r h
    rcases List.append_eq_append_iff.mp h with ⟨w, rfl, hw⟩ | ⟨w, rfl, hw⟩
    · rw [List.count_append]
      exact hs.even.add_odd (ht.odd_nul w r hw)
    · cases w with
      | nil => simpa using ht.odd_nul [] r hw.symm
      | cons c w =>
        obtain ⟨rfl, -⟩ := List.cons.inj hw
        exact hs.odd_nul p w rfl

theorem closed_flatMap {α : Type*} {f : α → Str} {l : List α} (h : ∀ a ∈ l, Closed (f a)) :
    Closed (l.flatMap f) := by
  induction l with
  | nil => exact closed_of_not_mem List.not_mem_nil List.not_mem_nil
  | cons a l ih =>
    rw [List.forall_mem_cons] at h
    exact h.1.append (ih h.2)

theorem closed_like {t : Str} (h : IsLike t) : Closed t := by
  obtain ⟨body, hbody, rfl⟩ := h
  have hcount : "tags like '".toList.count '\'' = 1 := by decide
  refine ⟨?_, fun p r h => ?_⟩
  · rw [List.count_append, List.count_append, hcount, List.count_eq_zero_of_not_mem hbody]
    decide
  · obtain ⟨w, rfl, hw⟩ := exists_of_append_eq (by decide) h
    have hquote : '\'' ∉ w := by
      rcases cases_delim '\'' w with hno | ⟨f, w, rfl, hf⟩
      · exact hno
      · -- the NUL would stand behind the last quote
        rw [List.append_assoc] at hw
        exact absurd (append_delim_inj hbody hf hw).2 (by simp)
    rw [List.count_append, hcount, List.count_eq_zero_of_not_mem hquote]
    decide

theorem closed_orList {t : Str} (h : IsOrList t) : Closed t := by
  obtain ⟨ts, hne, hts, rfl⟩ := h
  have hopen : Closed "(".toList := closed_of_not_mem (by decide) (by decide)
  have hclose : Closed [')'] := closed_of_not_mem (by decide) (by decide)
  have hor : Closed " or ".toList := closed_of_not_mem (by decide) (by decide)
  cases ts with
  | nil => exact absurd rfl hne
  | cons t ts =>
    rw [List.forall_mem_cons] at hts
    rw [intercalate_cons_eq]
    exact hopen.append (((closed_like hts.1).append
      (closed_flatMap fun t ht => hor.append (closed_like (hts.2 t ht)))).append hclose)

/-- The conditions of filters with values are closed. -/
theorem closed_condsText {kept : List (Str × Str)} (hkept : ∀ p ∈ kept, QuoteFree p)
    (hne : ∀ p ∈ kept, p.2 ≠ []) : Closed (condsText kept) := by
  refine closed_flatMap fun p hp => ?_
  obtain ⟨t, ht, heq⟩ := filterCond_eq (hkept p hp) (hne p hp)
  have hand : Closed " and ".toList := closed_of_not_mem (by decide) (by decide)
  have htext : ' ' :: filterCond p.1 p.2 = " and ".toList ++ t := by
    rw [heq]
    rfl
  exact htext ▸ hand.append (closed_orList ht)

/-- **A NUL in a closed statement** cuts it inside a literal. -/
theorem Closed.run_cstr {s : Str} (h : Closed s) (h0 : '\x00' ∈ s)
    (hlex : (run lexStep .blank s).isSome) :
    ∃ t ts, run lexStep .blank (cstr s) = some (.literal t, ts) := by
  rcases cases_delim '\x00' s with hno | ⟨p, r, rfl, hp⟩
  · exact absurd h0 hno
  · rw [cstr, (span_append_delim hp r).1]
    exact run_lexStep_odd (h.odd_nul p r rfl) hlex

theorem cstr_headText_ne (agg t : Str) : cstr (headText agg ++ t) ≠ [] := by
  have hhead : headText agg ++ t = 's' :: ("elect timestamp, ".toList ++ (agg ++
      ("(value) as value from METRIC where ".toList ++ (timeBounds ++ t)))) := by
    unfold headText
    simp
  rw [hhead, cstr, List.takeWhile_cons_of_pos (by decide)]
  exact List.cons_ne_nil _ _

/-- The characters of a filter with a value occur in the conditions. -/
theorem mem_condsText {kept : List (Str × Str)} {p : Str × Str} (hp : p ∈ kept) (hne : p.2 ≠ [])
    {c : Char} (hc : c ≠ '|') (h : c ∈ p.1 ∨ c ∈ p.2) : c ∈ condsText kept := by
  have hpart : ∃ v ∈ fields '|' p.2, c ∈ p.1 ∨ c ∈ v := by
    rcases h with h | h
    · obtain ⟨v, hv⟩ := List.exists_mem_of_ne_nil _ (fun h => hne (fields_eq_nil_iff.mp h))
      exact ⟨v, hv, .inl h⟩
    · obtain ⟨v, hv, h⟩ := exists_mem_fields h hc
      exact ⟨v, hv, .inr h⟩
  obtain ⟨v, hv, h⟩ := hpart
  have htag : c ∈ tagLike p.1 v := by
    unfold tagLike
    rcases h with h | h <;> simp [h]
  refine List.mem_flatMap.mpr ⟨p, hp, List.mem_cons_of_mem _ ?_⟩
  rw [filterCond, splitString_eq_fields, if_pos (List.length_pos_of_mem hv)]
  exact List.mem_append_left _ (List.mem_append_right _
    (mem_intercalate_of_mem (List.mem_map_of_mem hv) htag))

/-! ## The condition -/

/-- What the filter must be for its condition, if it is kept. -/
theorem kept_iff {filter : Str} : (∀ p, filterParts filter = some p →
    p.2 ≠ [] ∧ '\x00' ∉ p.1 ∧ '\x00' ∉ p.2) ↔
      ¬ EmptyValue filter ∧ ((fields '=' filter).length = 2 → '\x00' ∉ filter) := by
  have hnul (s : Str) : '\x00' ∈ replace s '*' '%' ↔ '\x00' ∈ s := by
    simp only [replace, List.mem_map]
    constructor
    · rintro ⟨c, hc, heq⟩
      split at heq
      · exact absurd heq (by decide)
      · exact heq ▸ hc
    · exact fun h => ⟨_, h, rfl⟩
  have hmem {key value : Str} (h : fields '=' filter = [key, value]) :
      '\x00' ∈ filter ↔ '\x00' ∈ key ∨ '\x00' ∈ value := by
    obtain ⟨-, -, ⟨rfl, -⟩ | rfl⟩ := fields_eq_pair_iff.mp h <;> simp
  simp only [filterParts_eq_some_iff, emptyValue_iff, List.length_eq_two]
  constructor
  · intro h
    refine ⟨?_, ?_⟩
    · rintro ⟨key, hsplit⟩
      exact (h _ ⟨key, [], hsplit, rfl⟩).1 rfl
    · rintro ⟨key, value, hsplit⟩
      obtain ⟨-, hk, hv⟩ := h _ ⟨key, value, hsplit, rfl⟩
      rw [hnul] at hk hv
      rw [hmem hsplit, not_or]
      exact ⟨hk, hv⟩
  · rintro ⟨hempty, h0⟩ p ⟨key, value, hsplit, rfl⟩
    have hno := h0 ⟨key, value, hsplit⟩
    rw [hmem hsplit, not_or] at hno
    refine ⟨fun hnil => hempty ⟨key, ?_⟩, ?_⟩
    · rw [hsplit, List.map_eq_nil_iff.mp hnil]
    · rw [hnul, hnul]
      exact hno

/-- A statement with a NUL in a filter is not prepared; another one is, exactly if it is within the
limits of the height and of the length. -/
theorem prepare_statementText_iff {e : Datastore.Engine} {agg : Aggregator}
    (hagg : (e.functions agg.text).isSome) {db : Datastore.DbFile} (htable : db.rows ≠ none)
    {kept : List (Str × Str)} (hplain : ∀ p ∈ kept, Plain p) :
    (e.prepare db (cstr (statementText agg kept))).isSome ↔
      (∀ p ∈ kept, '\x00' ∉ p.1 ∧ '\x00' ∉ p.2) ∧
        statementLength kept ≤ maxSqlLength ∧ whereHeight kept ≤ maxExprDepth := by
  have hhead : '\x00' ∉ headText agg.text := by cases agg <;> decide
  have htail : '\x00' ∉ tailText := by decide
  have hvalue : ∀ p ∈ kept, p.2 ≠ [] := fun p hp => (hplain p hp).2.2
  have hstmt := ofProgram_statementText agg hplain
  by_cases h0 : ∀ p ∈ kept, '\x00' ∉ p.1 ∧ '\x00' ∉ p.2
  · have hnul : '\x00' ∉ statementText agg kept := by
      simp [statementText, hhead, htail, nul_not_mem_condsText h0]
    have hheight : Select.height ⟨agg.text, whereExpr kept⟩ = whereHeight kept :=
      height_whereExpr hvalue
    rw [cstr_eq_self hnul, Datastore.Engine.prepare_isSome_iff htable hstmt hagg,
      length_statementText agg hvalue, hheight]
    exact (and_iff_right h0).symm
  · -- the statement is cut inside the literal with the NUL
    refine iff_of_false ?_ fun h => h0 h.1
    have hclosed : Closed (statementText agg kept) :=
      (closed_of_not_mem (by cases agg <;> decide) hhead).append
        ((closed_condsText (fun p hp => ⟨(hplain p hp).1, (hplain p hp).2.1⟩) hvalue).append
          (closed_of_not_mem (by decide) htail))
    have hnul : '\x00' ∈ statementText agg kept := by
      push Not at h0
      obtain ⟨p, hp, hmem⟩ := h0
      have hor : '\x00' ∈ p.1 ∨ '\x00' ∈ p.2 := by tauto
      exact List.mem_append_right _ (List.mem_append_left _
        (mem_condsText hp (hvalue p hp) (by decide) hor))
    have hlex : (run lexStep .blank (statementText agg kept)).isSome := by
      obtain ⟨ts, hts, -⟩ := Option.bind_eq_some_iff.mp (ofText_statementText agg hplain)
      obtain ⟨p, hp, -⟩ := Option.bind_eq_some_iff.mp hts
      rw [hp]
      rfl
    obtain ⟨t, ts, hrun⟩ := hclosed.run_cstr hnul hlex
    have hnone : e.prepare db (cstr (statementText agg kept)) = none :=
      e.prepare_literal db (cstr_headText_ne _ _) hrun
    rw [hnone]
    exact Bool.false_ne_true

/-- A datastore with the metric and its table. -/
def oneMetric (name : Str) : Datastore.State Unit :=
  ⟨0, 0, 0, [(name, ())], fun _ => ⟨some [], true, true⟩, .idle⟩

/-- The statement of the shape is well formed if and only if the kept filters have values and no
NUL, and it is within the limits of the height and of the length. -/
theorem Shape.isWellFormed_iff {q name tags rest : Str} {agg : Aggregator}
    (h : Shape q agg.text name tags rest) (hq : '\'' ∉ q) {e : Datastore.Engine}
    (hfn : (e.functions agg.text).isSome) : WellFormed e q agg ↔
      (∀ p ∈ keptFilters tags, p.2 ≠ [] ∧ '\x00' ∉ p.1 ∧ '\x00' ∉ p.2) ∧
        statementLength (keptFilters tags) ≤ maxSqlLength ∧
        whereHeight (keptFilters tags) ≤ maxExprDepth := by
  have htags : '\'' ∉ tags := fun hmem => hq (by rw [h.eq]; simp [hmem])
  have hkept : ∀ p ∈ keptFilters tags, QuoteFree p :=
    fun p hp => not_mem_keptFilters (by decide) htags hp
  obtain ⟨hmetric, hquery⟩ := h.ofText_eq
  have hwhere : headText agg.text ++ (condsText (keptFilters tags) ++ tailText) =
      selectText agg.text ++ ((timeBounds ++ condsText (keptFilters tags)) ++ tailText) := by
    have hhead : headText agg.text = selectText agg.text ++ timeBounds := rfl
    rw [hhead, List.append_assoc, List.append_assoc]
  have hplain (hne : ∀ p ∈ keptFilters tags, p.2 ≠ []) : ∀ p ∈ keptFilters tags, Plain p :=
    fun p hp => ⟨(hkept p hp).1, (hkept p hp).2, hne p hp⟩
  constructor
  · rintro ⟨⟨w, hw, heq⟩, hprepared⟩
    have hne : ∀ p ∈ keptFilters tags, p.2 ≠ [] := by
      rw [hquery, hwhere] at heq
      obtain rfl := List.append_cancel_right (List.append_cancel_left heq)
      exact (isWhere_iff hkept).mp hw
    have hlookup : (oneMetric name).store.lookup (ofText q).metric = some () := by
      rw [hmetric, oneMetric, List.lookup_cons_self]
    obtain ⟨rs, hrs⟩ := Option.isSome_iff_exists.mp
      (hprepared Unit (oneMetric name) () hlookup (Option.some_ne_none _))
    have hsome : (e.prepare ⟨some [], true, true⟩
        (cstr (statementText agg (keptFilters tags)))).isSome := by
      simp only [Datastore.prepareQuery, hlookup, hquery] at hrs
      split at hrs
      · cases hrs
      next stmt hstmt => exact Option.isSome_iff_exists.mpr ⟨stmt, hstmt⟩
    obtain ⟨hnul, hlimits⟩ :=
      (prepare_statementText_iff hfn (Option.some_ne_none _) (hplain hne)).mp hsome
    exact ⟨fun p hp => ⟨hne p hp, hnul p hp⟩, hlimits⟩
  · rintro ⟨hvalue, hlimits⟩
    have hne : ∀ p ∈ keptFilters tags, p.2 ≠ [] := fun p hp => (hvalue p hp).1
    refine ⟨⟨_, (isWhere_iff hkept).mpr hne, hquery.trans hwhere⟩, ?_⟩
    intro F s file hfile htable
    have hsome := (prepare_statementText_iff hfn htable (hplain hne)).mpr
      ⟨fun p hp => (hvalue p hp).2, hlimits⟩
    obtain ⟨stmt, hstmt⟩ := Option.isSome_iff_exists.mp hsome
    have hprepare : e.prepare (s.disk file) (cstr (ofText q).query) = some stmt := hquery ▸ hstmt
    simp only [Datastore.prepareQuery, hfile, hprepare]
    rfl

/-- **The statement of a query without a quote is well formed if and only if** no filter is a key
with an empty value, no filter with a key and a value contains a NUL, and the statement is neither
too deep nor too long for SQLite. -/
theorem wellFormed_iff (e : Datastore.Engine) {q : Str} (hq : '\'' ∉ q) {agg : Aggregator}
    (hagg : (splitString q ':').head? = some agg.text) (hfn : (e.functions agg.text).isSome) :
    ((ofText q).query ≠ [] → WellFormed e q agg) ↔
      ∀ name tags rest, Shape q agg.text name tags rest →
        (∀ filter ∈ fields ',' tags,
          ¬ EmptyValue filter ∧ ((fields '=' filter).length = 2 → '\x00' ∉ filter)) ∧
        statementLength (keptFilters tags) ≤ maxSqlLength ∧
        whereHeight (keptFilters tags) ≤ maxExprDepth := by
  have hkept (tags : Str) :
      (∀ p ∈ keptFilters tags, p.2 ≠ [] ∧ '\x00' ∉ p.1 ∧ '\x00' ∉ p.2) ↔
        ∀ filter ∈ fields ',' tags,
          ¬ EmptyValue filter ∧ ((fields '=' filter).length = 2 → '\x00' ∉ filter) := by
    simp only [keptFilters, splitString_eq_fields, List.mem_filterMap, ← kept_iff]
    constructor
    · exact fun h f hf p hp => h p ⟨f, hf, hp⟩
    · rintro h p ⟨f, hf, hp⟩
      exact h f hf p hp
  constructor
  · intro h name tags rest hshape
    rw [← hkept]
    exact (hshape.isWellFormed_iff hq hfn).mp
      (h (query_ne_nil_iff_shape.mpr ⟨_, name, tags, rest, hshape⟩))
  · intro h hne
    obtain ⟨agg', name, tags, rest, hshape⟩ := query_ne_nil_iff_shape.mp hne
    obtain ⟨behind, more, hsplit⟩ := hshape.splitString_eq
    rw [hsplit] at hagg
    obtain rfl : agg' = agg.text := Option.some.inj hagg
    have hwell := h name tags rest hshape
    rw [← hkept] at hwell
    exact (hshape.isWellFormed_iff hq hfn).mpr hwell

/-- The statement of a query for a host is well formed. -/
theorem wellFormed_example :
    WellFormed Datastore.singleValue "sum:cpu\x7bhost=a\x7d".toList .sum := by
  have hshape : Shape "sum:cpu\x7bhost=a\x7d".toList "sum".toList "cpu".toList
      "host=a".toList [] :=
    ⟨rfl, by decide, by decide, by decide, by decide, by decide, by decide⟩
  have hagg : (splitString "sum:cpu\x7bhost=a\x7d".toList ':').head? =
      some Aggregator.sum.text := by
    rw [splitString_eq_fields]
    decide
  refine (wellFormed_iff Datastore.singleValue (by decide) hagg rfl).mpr
    (fun name tags rest h => ?_) (query_ne_nil_iff_shape.mpr ⟨_, _, _, _, hshape⟩)
  obtain ⟨-, -, rfl, -⟩ := hshape.unique h
  have hkept : keptFilters "host=a".toList = [("host".toList, "a".toList)] := by
    unfold keptFilters filterParts
    simp only [splitString_eq_fields]
    decide
  have hlimits : InLimits (keptFilters "host=a".toList) := by
    rw [hkept]
    exact inLimits_singleton (by rw [splitString_eq_fields]; decide) (by decide)
  have hfields : fields ',' "host=a".toList = ["host=a".toList] := by decide
  refine ⟨?_, hlimits.length, hlimits.height⟩
  rw [hfields, List.forall_mem_singleton]
  refine ⟨?_, fun _ => by decide⟩
  rintro ⟨key, -, heq⟩
  exact absurd (congrArg List.getLast? heq) (by simp)

/-- A key with an empty value is a condition without `and`. -/
theorem not_wellFormed : ¬ ∀ (q : Str) (agg : Aggregator), '\'' ∉ q →
    (splitString q ':').head? = some agg.text → (ofText q).query ≠ [] →
      WellFormed Datastore.singleValue q agg := by
  intro h
  have hshape : Shape "sum:cpu\x7bk==\x7d".toList Aggregator.sum.text "cpu".toList
      "k==".toList [] :=
    ⟨rfl, by decide, by decide, by decide, by decide, by decide, by decide⟩
  have hagg : (splitString "sum:cpu\x7bk==\x7d".toList ':').head? =
      some Aggregator.sum.text := by
    rw [splitString_eq_fields]
    decide
  have hkept : ("k".toList, []) ∈ keptFilters "k==".toList := by
    unfold keptFilters filterParts
    simp only [splitString_eq_fields]
    decide
  have hwell := h _ .sum (by decide) hagg
    (query_ne_nil_iff_shape.mpr ⟨_, _, _, _, hshape⟩)
  exact (((hshape.isWellFormed_iff (by decide) rfl).mp hwell).1 _ hkept).1 rfl

end SimpleTSDB.Query
