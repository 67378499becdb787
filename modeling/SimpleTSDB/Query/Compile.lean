import SimpleTSDB.Query.Builder
import SimpleTSDB.Utility

/-!
# The query compiler

A query `agg:metric{filters}:downsampler` is compiled to a SELECT statement. The text is cut at its
delimiters, and each filter with exactly one equals sign becomes a condition on the tags; the other
filters are dropped. `query_of_accepted` gives the statement of every query that is not refused.
-/

namespace SimpleTSDB

open Delimited

/-- A compiled query; one that was refused has no text. -/
structure Query where
  query : Str := []
  metric : Str := []
  downsampler : Str := []
deriving DecidableEq

namespace Query

/-- `std::replace`. -/
def replace (s : Str) (old new : Char) : Str := s.map fun c => if c = old then new else c

/-- The condition that a tag occurs in the tags text. -/
def tagLike (key value : Str) : Str :=
  "tags like '%".toList ++ key ++ "=".toList ++ value ++ "%'".toList

/-- The condition of a filter. The second branch is for a value without parts; nothing has been
written before it, so that its ` and ` is not written either. -/
def filterCond (key value : Str) : Str :=
  let orparts := splitString value '|'
  if 0 < orparts.length then
    "and (".toList ++ " or ".toList.intercalate (orparts.map (tagLike key)) ++ ")".toList
  else tagLike key value

/-- One round of the loop over the filters. -/
def addFilter (sql : SelectModel) (filter : Str) : SelectModel :=
  -- replace the wildcard with something we use internally
  match splitString (replace filter '*' '%') '=' with
  | [key, value] => sql.where (filterCond key value)
  | _ => sql

/-- The metric and the filters of `metric{filters}`: the brace is the first one, and the text ends
at the first closing brace behind it. Both searches succeed, so that neither `substr` throws. -/
def braced (elem : Str) : Option (Str × Str) :=
  match find elem '{' 0 with
  | none => none
  | some ob =>
    match find elem '}' ob with
    | none => none
    | some cb => some (elem.take ob, (elem.drop (ob + 1)).take (cb - ob - 1))

/-- The bounds of the time window. -/
def timeBounds : Str := "(timestamp >= ?001 and timestamp <= ?002)".toList

/-- The statement before the filters are added. -/
def baseModel (agg : Str) : SelectModel :=
  let sql : SelectModel :=
    ((SelectModel.from {} "METRIC".toList).groupBy ["timestamp".toList]).where timeBounds
  sql.select ["timestamp".toList, agg ++ "(value) as value".toList]

/-- `Query::Query`. -/
def ofText (q : Str) : Query :=
  match splitString q ':' with
  | agg :: elem :: rest =>
    match braced elem with
    | none => {}    -- a filter is required
    | some (metric, tags) =>
      let filters := splitString tags ','
      if filters.length < 1 then { metric }
      else
        { query := (filters.foldl addFilter (baseModel agg)).str
          metric
          downsampler := rest.head?.getD [] }
  | _ => {}

/-! ## The statement -/

/-- The key and the value of a filter with one equals sign, with `*` replaced. -/
def filterParts (filter : Str) : Option (Str × Str) :=
  match splitString (replace filter '*' '%') '=' with
  | [key, value] => some (key, value)
  | _ => none

/-- The statement up to the conditions of the filters. -/
def headText (agg : Str) : Str :=
  "select timestamp, ".toList ++ agg ++ "(value) as value from METRIC where ".toList ++ timeBounds

def tailText : Str := " group by timestamp".toList

/-- The conditions of the filters, each behind a blank. -/
def condsText (kept : List (Str × Str)) : Str :=
  kept.flatMap fun p => ' ' :: filterCond p.1 p.2

/-- The filters that are kept, in their order. -/
def keptFilters (tags : Str) : List (Str × Str) := (splitString tags ',').filterMap filterParts

theorem addFilter_eq (sql : SelectModel) (filter : Str) :
    addFilter sql filter = { sql with
      whereCondition := sql.whereCondition ++
        ((filterParts filter).map fun p => filterCond p.1 p.2).toList } := by
  rw [addFilter, filterParts]
  split
  · rfl
  · simp

/-- The loop adds the conditions of the filters that are kept. -/
theorem foldl_addFilter (filters : List Str) (sql : SelectModel) :
    filters.foldl addFilter sql = { sql with
      whereCondition := sql.whereCondition ++
        (filters.filterMap filterParts).map fun p => filterCond p.1 p.2 } := by
  induction filters generalizing sql with
  | nil => simp
  | cons filter filters ih =>
    rw [List.foldl_cons, ih, addFilter_eq]
    cases h : filterParts filter <;> simp [h]

theorem intercalate_conds (base : Str) (kept : List (Str × Str)) :
    " ".toList.intercalate (base :: kept.map fun p => filterCond p.1 p.2) =
      base ++ condsText kept := by
  rw [intercalate_cons_eq, List.flatMap_map, condsText]
  rfl

theorem baseModel_eq (agg : Str) : baseModel agg =
    { selectColumns := ["timestamp".toList, agg ++ "(value) as value".toList]
      tableName := "METRIC".toList
      whereCondition := [timeBounds]
      groupbyColumns := ["timestamp".toList] } := rfl

/-- The statement with some conditions behind the first one. -/
theorem str_conds (cols : List Str) (table cond group : Str) (kept : List (Str × Str)) :
    ({ selectColumns := cols
       tableName := table
       whereCondition := cond :: kept.map fun p => filterCond p.1 p.2
       groupbyColumns := [group] } : SelectModel).str =
      "select ".toList ++ ", ".toList.intercalate cols ++ " from ".toList ++ table ++
        " where ".toList ++ cond ++ condsText kept ++ " group by ".toList ++ group := by
  unfold SelectModel.str
  simp only [SelectModel.clause, SelectModel.option, reduceCtorEq, if_false, if_true,
    intercalate_conds, List.intercalate_singleton, List.append_nil, List.append_assoc]

/-- **The text of the statement**: a fixed head, the conditions of the kept filters and a fixed
tail. -/
theorem str_foldl_addFilter (agg tags : Str) :
    ((splitString tags ',').foldl addFilter (baseModel agg)).str =
      headText agg ++ (condsText (keptFilters tags) ++ tailText) := by
  rw [foldl_addFilter, ← keptFilters, baseModel_eq, List.singleton_append, str_conds,
    List.intercalate_cons_cons, List.intercalate_singleton]
  unfold headText tailText
  simp

/-- The aggregator and the filters of a query that is not refused. -/
def header (q : Str) : Option (Str × Str) :=
  match splitString q ':' with
  | agg :: elem :: _ =>
    match braced elem with
    | none => none
    | some (_, tags) => if (splitString tags ',').length < 1 then none else some (agg, tags)
  | _ => none

/-- **The text of a query's statement.** -/
theorem ofText_query (q : Str) : (ofText q).query =
    match header q with
    | none => []
    | some (agg, tags) => headText agg ++ (condsText (keptFilters tags) ++ tailText) := by
  rw [ofText, header]
  generalize splitString q ':' = elems
  rcases elems with _ | ⟨agg, _ | ⟨elem, rest⟩⟩
  · rfl
  · rfl
  · cases hb : braced elem with
    | none => simp only [hb]
    | some p =>
      by_cases h : (splitString p.2 ',').length < 1
      · simp only [hb, if_pos h]
      · simp only [hb, if_neg h, str_foldl_addFilter]

theorem braced_append {name tags : Str} (hn : '{' ∉ name) (ht : '}' ∉ tags) (rest : Str) :
    braced (name ++ '{' :: (tags ++ '}' :: rest)) = some (name, tags) := by
  have hob : find (name ++ '{' :: (tags ++ '}' :: rest)) '{' 0 = some name.length := by
    simpa using find_append (p := []) hn (tags ++ '}' :: rest) rfl
  have hcb : find (name ++ '{' :: (tags ++ '}' :: rest)) '}' name.length =
      some (name.length + (tags.length + 1)) := by
    have h : '}' ∉ '{' :: tags := by simpa using ht
    simpa using find_append h rest (rfl : name.length = name.length)
  rw [braced, hob]
  simp only [hcb, List.take_left, ← List.drop_drop, List.drop_left, List.drop_one, List.tail_cons]
  rw [Nat.add_sub_cancel_left, Nat.add_sub_cancel, List.take_left]

end Query

end SimpleTSDB
