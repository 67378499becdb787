import SimpleTSDB.Query.Compile
import SimpleTSDB.Sqlite.Select

/-!
# The meaning of compiled statements

The conditions of the filters are read back from the text of the statement: a filter without a
quote becomes a parenthesised disjunction, joined by `and` to the time bounds. `selects_whereExpr`
says which rows such a statement selects, for any number of filters and alternatives, and
`InLimits.withinLimits` when it is within the limits of SQLite.
-/

namespace SimpleTSDB

open Delimited Transducer Precedence Sqlite

/-- The documented aggregators. -/
inductive Aggregator where
  | avg
  | min
  | max
  | sum
deriving DecidableEq

/-- The name of an aggregator in queries and in SQL. -/
def Aggregator.text : Aggregator → Str
  | .avg => "avg".toList
  | .min => "min".toList
  | .max => "max".toList
  | .sum => "sum".toList

namespace Query

/-- The pattern of the condition of a tag. -/
def pattern (key value : Str) : Str := '%' :: (key ++ '=' :: value) ++ ['%']

theorem tagLike_eq (key value : Str) :
    tagLike key value = "tags like '".toList ++ (pattern key value ++ ['\'']) := by
  unfold tagLike pattern
  simp

/-- The key and the value of a kept filter contain no quote, and the value is not empty. -/
def Plain (p : Str × Str) : Prop := '\'' ∉ p.1 ∧ '\'' ∉ p.2 ∧ p.2 ≠ []

/-! ## The tokens of the conditions -/

/-- The tokens of a further alternative. -/
def orTokens (key value : Str) : List Token :=
  [.word "or".toList, .word "tags".toList, .word "like".toList, .literal (pattern key value)]

/-- The tokens of a filter with the alternatives `v` and `vs`. -/
def filterTokens (key v : Str) (vs : List Str) : List Token :=
  [.word "and".toList, .lparen, .word "tags".toList, .word "like".toList,
    .literal (pattern key v)] ++ (vs.flatMap (orTokens key) ++ [.rparen])

/-- The tokens of the time bounds. -/
def boundTokens : List Token :=
  [.lparen, .word "timestamp".toList, .ge, .param 1, .word "and".toList,
    .word "timestamp".toList, .le, .param 2, .rparen]

theorem quote_not_mem_pattern {key value : Str} (hk : '\'' ∉ key) (hv : '\'' ∉ value) :
    '\'' ∉ pattern key value := by
  simp [pattern, hk, hv]

theorem run_lexStep_tagLike {key value : Str} (hk : '\'' ∉ key) (hv : '\'' ∉ value) :
    run lexStep .blank (tagLike key value) =
      some (.quote (pattern key value), [.word "tags".toList, .word "like".toList]) := by
  have hlit : run lexStep .blank "tags like '".toList =
      some (.literal [], [.word "tags".toList, .word "like".toList]) := by decide
  rw [tagLike_eq, run_lexStep_append hlit,
    run_lexStep_append (run_lexStep_literal (quote_not_mem_pattern hk hv) []), run_singleton]
  simp [lexStep]

/-- The blank behind a literal completes it. -/
theorem run_lexStep_quote_blank (s rest : Str) :
    run lexStep (.quote s) (' ' :: rest) =
      (run lexStep .blank rest).map fun q => (q.1, .literal s :: q.2) := by
  have h : lexStep (.quote s) ' ' = some (.blank, [.literal s]) := rfl
  rw [run_cons_of_some h]
  rfl

/-- The alternatives behind the first, up to the closing parenthesis. -/
theorem run_lexStep_alternatives {key : Str} (hk : '\'' ∉ key) {vs : List Str}
    (hvs : ∀ v ∈ vs, '\'' ∉ v) (s : Str) :
    run lexStep (.quote s) (vs.flatMap (fun v => " or ".toList ++ tagLike key v) ++ [')']) =
      some (.blank, .literal s :: (vs.flatMap (orTokens key) ++ [.rparen])) := by
  induction vs generalizing s with
  | nil => rfl
  | cons v vs ih =>
    rw [List.forall_mem_cons] at hvs
    have hor : run lexStep .blank "or ".toList = some (.blank, [.word "or".toList]) := by decide
    have htext : (v :: vs).flatMap (fun v => " or ".toList ++ tagLike key v) ++ [')'] =
        ' ' :: ("or ".toList ++ (tagLike key v ++
          (vs.flatMap (fun v => " or ".toList ++ tagLike key v) ++ [')']))) := by
      simp
    rw [htext, run_lexStep_quote_blank, run_lexStep_append hor,
      run_lexStep_append (run_lexStep_tagLike hk hvs.1), ih hvs.2]
    simp [orTokens]

/-- The condition of a filter with the alternatives `v` and `vs`. -/
theorem filterCond_alternatives {key value v : Str} {vs : List Str}
    (hsplit : splitString value '|' = v :: vs) : filterCond key value = "and (".toList ++
      (tagLike key v ++ (vs.flatMap (fun v => " or ".toList ++ tagLike key v) ++ [')'])) := by
  simp [filterCond, hsplit, intercalate_cons_eq, List.flatMap_map]

/-- The condition of a plain filter, with the blank before it. -/
theorem run_lexStep_filterCond {key value v : Str} {vs : List Str} (hk : '\'' ∉ key)
    (hv : '\'' ∉ value) (hsplit : splitString value '|' = v :: vs) :
    run lexStep .blank (' ' :: filterCond key value) = some (.blank, filterTokens key v vs) := by
  have hq : ∀ part ∈ v :: vs, '\'' ∉ part := fun part hp hmem =>
    hv ((infix_of_mem_fields (splitString_eq_fields value '|' ▸ hsplit ▸ hp)).subset hmem)
  rw [List.forall_mem_cons] at hq
  have hand : run lexStep .blank " and (".toList =
      some (.blank, [.word "and".toList, .lparen]) := by decide
  have htext : ' ' :: filterCond key value = " and (".toList ++ (tagLike key v ++
      (vs.flatMap (fun v => " or ".toList ++ tagLike key v) ++ [')'])) := by
    rw [filterCond_alternatives hsplit]
    rfl
  rw [htext, run_lexStep_append hand, run_lexStep_append (run_lexStep_tagLike hk hq.1),
    run_lexStep_alternatives hk hq.2]
  simp [filterTokens]

/-! ## The expression of the conditions -/

/-- The word of a filter between its parentheses, as the tokens spell it. -/
def filterWord (key v : Str) (vs : List Str) : List (Tok Cond) :=
  .lparen :: ([.atom (.tagsLike (pattern key v))] ++
    vs.flatMap fun v => .or :: [.atom (.tagsLike (pattern key v))]) ++ [.rparen]

/-- The disjunction of the alternatives of a filter. -/
def filterExpr (key v : Str) (vs : List Str) : Expr Cond :=
  (vs.map fun v => .atom (.tagsLike (pattern key v))).foldl .or (.atom (.tagsLike (pattern key v)))

theorem condition_alternatives (key : Str) (vs : List Str) (ts : List Token) :
    condition (vs.flatMap (orTokens key) ++ ts) = (condition ts).map
      ((vs.flatMap fun v => .or :: [.atom (.tagsLike (pattern key v))]) ++ ·) := by
  induction vs with
  | nil => simp
  | cons v vs ih => simp [orTokens, condition, ih, Function.comp_def]

theorem condition_filterTokens (key v : Str) (vs : List Str) (ts : List Token) :
    condition (filterTokens key v vs ++ ts) =
      (condition ts).map (.and :: filterWord key v vs ++ ·) := by
  simp [filterTokens, condition, condition_alternatives, filterWord, Function.comp_def]

theorem derives_filterWord (key v : Str) (vs : List Str) :
    Derives .prim (filterWord key v vs) (filterExpr key v vs) := by
  have h := derives_or_chain
    (l := vs.map fun v => ([.atom (.tagsLike (pattern key v))], .atom (.tagsLike (pattern key v))))
    (.conj (.prim (.atom (Cond.tagsLike (pattern key v))))) (by simp [Derives.prim, Derives.atom])
  rw [List.flatMap_map, List.map_map] at h
  exact .paren h

/-- The expression of a kept filter with a value. -/
def keptExpr (p : Str × Str) : Expr Cond :=
  filterExpr p.1 ((splitString p.2 '|').headD []) (splitString p.2 '|').tail

/-- A value that is not empty has a first alternative. -/
theorem splitString_eq_cons {value : Str} (h : value ≠ []) :
    ∃ v vs, splitString value '|' = v :: vs := by
  refine List.exists_cons_of_ne_nil fun hnil => h ?_
  exact fields_eq_nil_iff.mp (splitString_eq_fields value '|' ▸ hnil)

theorem holds_filterExpr {params : ℕ → BitVec 64} {row : Row} {key v : Str} {vs : List Str} :
    (filterExpr key v vs).Holds (Cond.Holds params row) ↔
      ∃ part ∈ v :: vs, Like (pattern key part) row.tags := by
  simp [filterExpr, holds_foldl_or, Expr.Holds, Cond.Holds]

theorem holds_keptExpr {params : ℕ → BitVec 64} {row : Row} {p : Str × Str} (hne : p.2 ≠ []) :
    (keptExpr p).Holds (Cond.Holds params row) ↔
      ∃ part ∈ splitString p.2 '|', Like (pattern p.1 part) row.tags := by
  obtain ⟨v, vs, hsplit⟩ := splitString_eq_cons hne
  rw [keptExpr, hsplit]
  exact holds_filterExpr

/-- What the conditions of the filters are read as: a chain of conjuncts, one for each filter. -/
theorem condsText_reads {kept : List (Str × Str)} (h : ∀ p ∈ kept, Plain p) :
    ∃ (ts : List Token) (ps : List (List (Tok Cond) × Expr Cond)),
      run lexStep .blank (condsText kept) = some (.blank, ts) ∧
      .word "group".toList ∉ ts ∧
      condition ts = some (ps.flatMap fun q => .and :: q.1) ∧
      (∀ q ∈ ps, Derives .prim q.1 q.2) ∧ ps.map Prod.snd = kept.map keptExpr := by
  induction kept with
  | nil => exact ⟨[], [], rfl, List.not_mem_nil, rfl, List.forall_mem_nil _, rfl⟩
  | cons p kept ih =>
    rw [List.forall_mem_cons] at h
    obtain ⟨⟨hk, hv, hne⟩, h⟩ := h
    obtain ⟨ts, ps, hrun, hgroup, hcond, hder, hps⟩ := ih h
    obtain ⟨v, vs, hsplit⟩ := splitString_eq_cons hne
    refine ⟨filterTokens p.1 v vs ++ ts, (filterWord p.1 v vs, filterExpr p.1 v vs) :: ps,
      ?_, ?_, ?_, ?_, ?_⟩
    · rw [condsText, List.flatMap_cons, run_lexStep_append (run_lexStep_filterCond hk hv hsplit),
        ← condsText, hrun]
      rfl
    · simpa [filterTokens, orTokens] using hgroup
    · rw [condition_filterTokens, hcond]
      rfl
    · rw [List.forall_mem_cons]
      exact ⟨derives_filterWord _ _ _, hder⟩
    · rw [List.map_cons, List.map_cons, hps, keptExpr, hsplit]
      rfl

/-! ## The statement -/

/-- The expression of the time bounds. -/
def boundExpr : Expr Cond := .and (.atom (.atLeast 1)) (.atom (.atMost 2))

/-- The word of the time bounds. -/
def boundWord : List (Tok Cond) :=
  [.lparen, .atom (.atLeast 1), .and, .atom (.atMost 2), .rparen]

theorem derives_boundWord : Derives .prim boundWord boundExpr :=
  .paren (.conj (.and (.prim (.atom (Cond.atLeast 1))) (.atom (Cond.atMost 2))))

theorem run_lexStep_headText (agg : Aggregator) : run lexStep .blank (headText agg.text) =
    some (.blank, selectHead agg.text ++ boundTokens) := by
  cases agg <;> decide

/-- The expression of the where clause. -/
def whereExpr (kept : List (Str × Str)) : Expr Cond := (kept.map keptExpr).foldl .and boundExpr

/-- The text of the statement with the conditions of some filters. -/
def statementText (agg : Aggregator) (kept : List (Str × Str)) : Str :=
  headText agg.text ++ (condsText kept ++ tailText)

/-- **The statement of plain filters is read back.** -/
theorem ofText_statementText (agg : Aggregator) {kept : List (Str × Str)}
    (h : ∀ p ∈ kept, Plain p) :
    Select.ofText (statementText agg kept) = some ⟨agg.text, whereExpr kept⟩ := by
  obtain ⟨ts, ps, hrun, hgroup, hcond, hder, hps⟩ := condsText_reads h
  have htail : run lexStep .blank tailText =
      some (.word "timestamp".toList, [.word "group".toList, .word "by".toList]) := by decide
  have hlex : lex (statementText agg kept) =
      some (selectHead agg.text ++ ((boundTokens ++ ts) ++ selectTail)) := by
    rw [statementText, lex, run_lexStep_append (run_lexStep_headText agg), run_lexStep_append hrun,
      htail]
    simp only [Option.map_some, Option.bind_some, lexEnd, List.append_assoc]
    rfl
  have hgroup' : .word "group".toList ∉ boundTokens ++ ts := by
    simpa [boundTokens] using hgroup
  have hcond' : condition (boundTokens ++ ts) =
      some (boundWord ++ ps.flatMap fun q => .and :: q.1) := by
    simp [boundTokens, condition, hcond, boundWord]
  rw [Select.ofText, hlex, Option.bind_some, Select.ofTokens_append hgroup' hcond'
    (.conj (derives_and_chain (.prim derives_boundWord) hder)), whereExpr, hps]

/-- The text of a filter that is joined to a where clause. -/
theorem whereText_and_keptExpr {p : Str × Str} (hne : p.2 ≠ []) {e : Expr Cond} {front : Str}
    (he : whereText e = some front) : whereText (.and e (keptExpr p)) =
      some (front ++ ' ' :: filterCond p.1 p.2) := by
  obtain ⟨v, vs, hsplit⟩ := splitString_eq_cons hne
  have halts : altsText (keptExpr p) = some (tagLike p.1 v ++
      vs.flatMap fun v => " or ".toList ++ tagLike p.1 v) := by
    have hfirst : altsText (.atom (.tagsLike (pattern p.1 v))) = some (tagLike p.1 v) := by
      rw [tagLike_eq]
      rfl
    have hchain := altsText_foldl hfirst (vs.map (pattern p.1))
    rw [List.map_map, List.flatMap_map] at hchain
    simp only [← tagLike_eq] at hchain
    rw [keptExpr, hsplit]
    exact hchain
  rw [whereText_and he halts, filterCond_alternatives hsplit, List.append_assoc (tagLike p.1 v)]
  rfl

/-- The text of the where clause. -/
theorem whereText_whereExpr {kept : List (Str × Str)} (h : ∀ p ∈ kept, p.2 ≠ []) :
    whereText (whereExpr kept) = some (timeBounds ++ condsText kept) := by
  have hchain : ∀ (e : Expr Cond) (front : Str), whereText e = some front →
      whereText ((kept.map keptExpr).foldl .and e) = some (front ++ condsText kept) := by
    induction kept with
    | nil =>
      intro e front he
      rw [condsText, List.flatMap_nil, List.append_nil]
      exact he
    | cons p kept ih =>
      rw [List.forall_mem_cons] at h
      intro e front he
      rw [List.map_cons, List.foldl_cons, ih h.2 _ _ (whereText_and_keptExpr h.1 he), condsText,
        condsText, List.flatMap_cons, List.append_assoc]
  exact hchain boundExpr timeBounds rfl

/-- The statement of plain filters is one of the program. -/
theorem ofProgram_statementText (agg : Aggregator) {kept : List (Str × Str)}
    (h : ∀ p ∈ kept, Plain p) :
    Select.ofProgram (statementText agg kept) = some ⟨agg.text, whereExpr kept⟩ := by
  refine Select.ofProgram_eq_some_iff.mpr ⟨ofText_statementText agg h, ?_⟩
  have hwhere := whereText_whereExpr fun p hp => (h p hp).2.2
  unfold Select.text statementText headText tailText
  rw [hwhere, Option.map_some]
  simp only [List.append_assoc]

/-- **The statement of plain filters** selects the rows in the time window whose tags contain an
alternative of every filter. -/
theorem selects_whereExpr {agg : Str} {kept : List (Str × Str)} (h : ∀ p ∈ kept, p.2 ≠ [])
    (params : ℕ → BitVec 64) (row : Row) : Select.Selects ⟨agg, whereExpr kept⟩ params row ↔
      ((params 1).toInt ≤ row.timestamp.toInt ∧ row.timestamp.toInt ≤ (params 2).toInt) ∧
        ∀ p ∈ kept, ∃ part ∈ splitString p.2 '|', Like (pattern p.1 part) row.tags := by
  rw [Select.Selects, whereExpr, holds_foldl_and]
  refine and_congr Iff.rfl ?_
  rw [List.forall_mem_map]
  exact forall₂_congr fun p hp => holds_keptExpr (h p hp)

/-! ## The limits -/

/-- The height of the where clause of some filters: three levels for the time bounds, and every
filter is a chain of its alternatives that is joined to what stands before it. -/
def whereHeight (kept : List (Str × Str)) : ℕ :=
  kept.foldl (fun h p => max h ((splitString p.2 '|').length + 1) + 1) 3

/-- The length of the condition of a filter with a value, with the blank before it. -/
def condLength (p : Str × Str) : ℕ :=
  3 + ((splitString p.2 '|').map fun v => p.1.length + v.length + 19).sum

/-- The length of the statement of some filters. -/
def statementLength (kept : List (Str × Str)) : ℕ := 116 + (kept.map condLength).sum

/-- The statement of the filters is within the limits of SQLite: the height of its where clause, its
length, and the length of every pattern. -/
structure InLimits (kept : List (Str × Str)) : Prop where
  height : whereHeight kept ≤ maxExprDepth
  length : statementLength kept ≤ maxSqlLength
  patterns : ∀ p ∈ kept, ∀ v ∈ splitString p.2 '|',
    p.1.length + v.length + 3 ≤ maxLikePatternLength

theorem height_keptExpr {p : Str × Str} (hne : p.2 ≠ []) :
    (keptExpr p).height 2 = (splitString p.2 '|').length + 1 := by
  obtain ⟨v, vs, hsplit⟩ := splitString_eq_cons hne
  have hchain := height_foldl_or_atom (k := 2) (e := .atom (Cond.tagsLike (pattern p.1 v)))
    le_rfl (vs.map fun v => .tagsLike (pattern p.1 v))
  rw [List.map_map, List.length_map] at hchain
  rw [keptExpr, hsplit, List.length_cons, Nat.add_assoc, Nat.add_comm]
  exact hchain

theorem height_whereExpr {kept : List (Str × Str)} (h : ∀ p ∈ kept, p.2 ≠ []) :
    (whereExpr kept).height 2 = whereHeight kept := by
  rw [whereExpr, height_foldl_and, List.foldl_map, whereHeight]
  refine List.foldl_ext _ _ _ fun n p hp => ?_
  rw [height_keptExpr (h p hp)]

theorem length_tagLike (key value : Str) :
    (tagLike key value).length = key.length + value.length + 15 := by
  unfold tagLike
  simp
  omega

theorem length_filterCond {p : Str × Str} (hne : p.2 ≠ []) :
    (' ' :: filterCond p.1 p.2).length = condLength p := by
  obtain ⟨v, vs, hsplit⟩ := splitString_eq_cons hne
  have hor : " or ".toList.length = 4 := by decide
  have hand : "and (".toList.length = 5 := by decide
  have hmore : (vs.flatMap fun v => " or ".toList ++ tagLike p.1 v).length =
      (vs.map fun v => p.1.length + v.length + 19).sum := by
    rw [List.length_flatMap]
    refine congrArg List.sum (List.map_congr_left fun v _ => ?_)
    rw [List.length_append, length_tagLike, hor]
    omega
  rw [condLength, hsplit, List.map_cons, List.sum_cons, filterCond_alternatives hsplit,
    List.length_cons, List.length_append, List.length_append, List.length_append, hmore, hand,
    length_tagLike, List.length_singleton]
  omega

theorem length_statementText (agg : Aggregator) {kept : List (Str × Str)}
    (h : ∀ p ∈ kept, p.2 ≠ []) : (statementText agg kept).length = statementLength kept := by
  have hconds : (condsText kept).length = (kept.map condLength).sum := by
    rw [condsText, List.length_flatMap]
    exact congrArg List.sum (List.map_congr_left fun p hp => length_filterCond (h p hp))
  have hhead : (headText agg.text).length = 97 := by cases agg <;> rfl
  have htail : tailText.length = 19 := rfl
  rw [statementText, List.length_append, List.length_append, hconds, hhead, htail, statementLength]
  omega

theorem atoms_keptExpr {p : Str × Str} (hne : p.2 ≠ []) :
    (keptExpr p).atoms = (splitString p.2 '|').map fun v => .tagsLike (pattern p.1 v) := by
  obtain ⟨v, vs, hsplit⟩ := splitString_eq_cons hne
  rw [keptExpr, hsplit, List.headD_cons, List.tail_cons, filterExpr, atoms_foldl_or,
    List.flatMap_map]
  exact congrArg (_ :: ·) List.map_eq_flatMap.symm

/-- The patterns of the statement are those of the alternatives. -/
theorem mem_patterns {agg pat : Str} {kept : List (Str × Str)} (h : ∀ p ∈ kept, p.2 ≠ []) :
    pat ∈ Select.patterns ⟨agg, whereExpr kept⟩ ↔
      ∃ p ∈ kept, ∃ v ∈ splitString p.2 '|', pattern p.1 v = pat := by
  rw [Select.patterns, whereExpr, atoms_foldl_and, List.flatMap_map, List.filterMap_append,
    List.filterMap_flatMap]
  simp only [boundExpr, Expr.atoms, List.singleton_append, List.filterMap_cons_none,
    List.filterMap_nil, List.nil_append, List.mem_flatMap]
  refine exists_congr fun p => and_congr_right fun hp => ?_
  rw [atoms_keptExpr (h p hp), List.filterMap_map]
  simp

/-- A filter with one alternative that is not too long is within the limits. -/
theorem inLimits_singleton {key value : Str} (h : splitString value '|' = [value])
    (hlen : key.length + value.length + 3 ≤ maxLikePatternLength) : InLimits [(key, value)] where
  height := by
    have hheight : max 3 (1 + 1) + 1 ≤ maxExprDepth := by decide
    rw [whereHeight, List.foldl_cons, h]
    exact hheight
  length := by
    have hlimits : maxLikePatternLength + 1000 ≤ maxSqlLength := by decide
    rw [statementLength, List.map_singleton, condLength, h, List.map_singleton, List.sum_singleton,
      List.sum_singleton]
    dsimp only
    omega
  patterns := by
    rw [List.forall_mem_singleton, h, List.forall_mem_singleton]
    exact hlen

/-- **Filters within the limits** have a statement within the limits. -/
theorem InLimits.withinLimits {kept : List (Str × Str)} (h : InLimits kept) (agg : Aggregator)
    (hne : ∀ p ∈ kept, p.2 ≠ []) :
    Select.WithinLimits ⟨agg.text, whereExpr kept⟩ (statementText agg kept) where
  length := (length_statementText agg hne).trans_le h.length
  height := (height_whereExpr hne).trans_le h.height
  patterns := by
    intro pat hpat
    obtain ⟨p, hp, v, hv, rfl⟩ := (mem_patterns hne).mp hpat
    have hlen : (pattern p.1 v).length = p.1.length + v.length + 3 := by
      simp [pattern]
      omega
    exact hlen.trans_le (h.patterns p hp v hv)

end Query

end SimpleTSDB
