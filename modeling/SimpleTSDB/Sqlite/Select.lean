import SimpleTSDB.Foundations.Precedence
import SimpleTSDB.Sqlite.Lexer
import SimpleTSDB.Sqlite.Like

/-!
# The SELECT statements of the program

A statement selects the timestamp and an aggregate of the value from the table of the metric, with
a condition, grouped by the timestamp. The condition compares the timestamp with a parameter or the
tags with a pattern, joined by `and` and `or` with SQL's precedence. The program writes some of
these statements (`Select.text`); what else a query splices into their text is left aside
(`Select.ofProgram`).
-/

namespace SimpleTSDB.Sqlite

open Precedence

/-- A row of the table METRIC. -/
structure Row where
  timestamp : BitVec 64
  value : Double
  tags : Str
deriving DecidableEq

/-- A comparison: `timestamp >= ?n`, `timestamp <= ?n` or `tags like 'pattern'`. -/
inductive Cond where
  | atLeast (n : ℕ)
  | atMost (n : ℕ)
  | tagsLike (pattern : Str)
deriving DecidableEq

/-- The truth of a comparison for a row. An integer column holds a signed integer. -/
def Cond.Holds (params : ℕ → BitVec 64) (row : Row) : Cond → Prop
  | .atLeast n => (params n).toInt ≤ row.timestamp.toInt
  | .atMost n => row.timestamp.toInt ≤ (params n).toInt
  | .tagsLike p => Like p row.tags

instance (params : ℕ → BitVec 64) (row : Row) : DecidablePred (Cond.Holds params row)
  | .atLeast n => inferInstanceAs (Decidable ((params n).toInt ≤ row.timestamp.toInt))
  | .atMost n => inferInstanceAs (Decidable (row.timestamp.toInt ≤ (params n).toInt))
  | .tagsLike p => inferInstanceAs (Decidable (Like p row.tags))

/-- `select timestamp, agg(value) as value from METRIC where cond group by timestamp`. -/
structure Select where
  agg : Str
  cond : Expr Cond
deriving DecidableEq

/-- Does the statement select the row, with the parameters bound? -/
def Select.Selects (s : Select) (params : ℕ → BitVec 64) (row : Row) : Prop :=
  s.cond.Holds (Cond.Holds params row)

instance (s : Select) (params : ℕ → BitVec 64) (row : Row) : Decidable (s.Selects params row) :=
  inferInstanceAs (Decidable (s.cond.Holds (Cond.Holds params row)))

/-! ## Limits -/

/-- `SQLITE_MAX_SQL_LENGTH`. -/
def maxSqlLength : ℕ := 1000000000

/-- `SQLITE_MAX_EXPR_DEPTH`. -/
def maxExprDepth : ℕ := 1000

/-- `SQLITE_MAX_LIKE_PATTERN_LENGTH`. -/
def maxLikePatternLength : ℕ := 50000

/-- The height of the condition; a comparison is an operator over two leaves. -/
def Select.height (s : Select) : ℕ := s.cond.height 2

/-- The patterns of the condition. -/
def Select.patterns (s : Select) : List Str :=
  s.cond.atoms.filterMap fun | .tagsLike p => some p | _ => none

/-- Is no pattern of the statement too long for `like`? -/
def Select.ShortPatterns (s : Select) : Prop := ∀ p ∈ s.patterns, p.length ≤ maxLikePatternLength

instance (s : Select) : Decidable s.ShortPatterns :=
  inferInstanceAs (Decidable (∀ p ∈ s.patterns, p.length ≤ maxLikePatternLength))

/-- The statement and its text are within the limits of SQLite. -/
structure Select.WithinLimits (s : Select) (sql : Str) : Prop where
  length : sql.length ≤ maxSqlLength
  height : s.height ≤ maxExprDepth
  patterns : s.ShortPatterns

/-- The parameters ?001 and ?002 bound to two integers. -/
def bound (first second : BitVec 64) (n : ℕ) : BitVec 64 :=
  if n = 1 then first else if n = 2 then second else 0

/-! ## The parser -/

/-- The tokens of a condition, the comparisons put together. -/
def condition : List Token → Option (List (Tok Cond))
  | [] => some []
  | .word w :: .ge :: .param n :: ts =>
    if w = "timestamp".toList then (condition ts).map (.atom (.atLeast n) :: ·) else none
  | .word w :: .le :: .param n :: ts =>
    if w = "timestamp".toList then (condition ts).map (.atom (.atMost n) :: ·) else none
  | .word w :: .word v :: .literal p :: ts =>
    if w = "tags".toList ∧ v = "like".toList then (condition ts).map (.atom (.tagsLike p) :: ·)
    else none
  | .word w :: ts =>
    if w = "and".toList then (condition ts).map (.and :: ·)
    else if w = "or".toList then (condition ts).map (.or :: ·)
    else none
  | .lparen :: ts => (condition ts).map (.lparen :: ·)
  | .rparen :: ts => (condition ts).map (.rparen :: ·)
  | _ => none

/-- The words of a statement before its condition. -/
def selectHead (agg : Str) : List Token :=
  [.word "select".toList, .word "timestamp".toList, .comma, .word agg, .lparen,
    .word "value".toList, .rparen, .word "as".toList, .word "value".toList, .word "from".toList,
    .word "metric".toList, .word "where".toList]

/-- The words of a statement behind its condition. -/
def selectTail : List Token := [.word "group".toList, .word "by".toList, .word "timestamp".toList]

/-- The statement with the tokens: the head, a condition up to the word `group`, and the tail. -/
def Select.ofTokens (ts : List Token) : Option Select :=
  match ts.drop 3 with
  | .word agg :: _ =>
    let rest := ts.drop (selectHead agg).length
    let cond := rest.takeWhile (· ≠ .word "group".toList)
    if ts.take (selectHead agg).length = selectHead agg ∧ rest.drop cond.length = selectTail then
      ((condition cond).bind parse).map (Select.mk agg)
    else none
  | _ => none

/-- The statement with the text; `none` if it has another form. -/
def Select.ofText (sql : Str) : Option Select := (lex sql).bind Select.ofTokens

/-- A statement put together from its parts is read as these parts. -/
theorem Select.ofTokens_append {agg : Str} {cond : List Token} {w : List (Tok Cond)}
    {e : Expr Cond} (hg : .word "group".toList ∉ cond) (hc : condition cond = some w)
    (hw : Derives .disj w e) :
    Select.ofTokens (selectHead agg ++ (cond ++ selectTail)) = some ⟨agg, e⟩ := by
  have hall : ∀ t ∈ cond, decide (t ≠ .word "group".toList) = true := by
    intro t ht
    rw [decide_eq_true_iff]
    rintro rfl
    exact hg ht
  have htake : (cond ++ selectTail).takeWhile (· ≠ .word "group".toList) = cond := by
    rw [List.takeWhile_append_of_pos hall]
    simp [selectTail]
  have hdrop : (selectHead agg ++ (cond ++ selectTail)).drop 3 =
      .word agg :: ((selectHead agg).drop 4 ++ (cond ++ selectTail)) := rfl
  simp only [Select.ofTokens, hdrop, List.drop_left, List.take_left, htake, and_self, if_true, hc,
    Option.bind_some, parse_of_derives hw, Option.map_some]

/-! ## The texts of the program -/

/-- The text of a disjunction of patterns. -/
def altsText : Expr Cond → Option Str
  | .atom (.tagsLike p) => some ("tags like '".toList ++ (p ++ ['\'']))
  | .or l (.atom (.tagsLike p)) =>
    (altsText l).map (· ++ (" or ".toList ++ ("tags like '".toList ++ (p ++ ['\'']))))
  | _ => none

/-- The text of a where clause: the time bounds, and the disjunctions that are joined to them. -/
def whereText : Expr Cond → Option Str
  | .and l r =>
    if l = .atom (.atLeast 1) ∧ r = .atom (.atMost 2) then
      some "(timestamp >= ?001 and timestamp <= ?002)".toList
    else do
      let front ← whereText l
      let alts ← altsText r
      some (front ++ (" and (".toList ++ (alts ++ [')'])))
  | _ => none

/-- The text of a statement, if the program writes it. -/
def Select.text (s : Select) : Option Str :=
  (whereText s.cond).map fun w =>
    "select timestamp, ".toList ++ s.agg ++ "(value) as value from METRIC where ".toList ++ w ++
      " group by timestamp".toList

/-- The statement with a text that the program writes. -/
def Select.ofProgram (sql : Str) : Option Select :=
  (Select.ofText sql).filter fun s => s.text = some sql

theorem Select.ofProgram_eq_some_iff {sql : Str} {s : Select} :
    Select.ofProgram sql = some s ↔ Select.ofText sql = some s ∧ s.text = some sql := by
  simp [Select.ofProgram, Option.filter_eq_some_iff]

theorem ne_nil_of_ofProgram {sql : Str} {s : Select} (h : Select.ofProgram sql = some s) :
    sql ≠ [] := by
  rintro rfl
  cases (Select.ofProgram_eq_some_iff.mp h).1

theorem altsText_foldl {e : Expr Cond} {front : Str} (h : altsText e = some front)
    (ps : List Str) : altsText ((ps.map fun p => .atom (.tagsLike p)).foldl .or e) =
      some (front ++
        ps.flatMap fun p => " or ".toList ++ ("tags like '".toList ++ (p ++ ['\'']))) := by
  induction ps generalizing e front with
  | nil => simpa using h
  | cons p ps ih =>
    have hor : altsText (.or e (.atom (.tagsLike p))) =
        some (front ++ (" or ".toList ++ ("tags like '".toList ++ (p ++ ['\''])))) := by
      rw [altsText, h]
      rfl
    rw [List.map_cons, List.foldl_cons, ih hor, List.flatMap_cons, List.append_assoc]

theorem whereText_and {l r : Expr Cond} {front alts : Str} (hl : whereText l = some front)
    (hr : altsText r = some alts) :
    whereText (.and l r) = some (front ++ (" and (".toList ++ (alts ++ [')']))) := by
  have hne : ¬(l = .atom (.atLeast 1) ∧ r = .atom (.atMost 2)) := by
    rintro ⟨rfl, -⟩
    cases hl
  rw [whereText, if_neg hne, hl, hr]
  rfl

end SimpleTSDB.Sqlite
