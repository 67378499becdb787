import SimpleTSDB.CString

/-!
# The builder of SELECT statements

The part of the SQL builder library that puts a SELECT statement together from its clauses.
-/

namespace SimpleTSDB.Query

/-- The clauses of `SelectModel`. -/
structure SelectModel where
  selectColumns : List Str := []
  tableName : Str := []
  whereCondition : List Str := []
  groupbyColumns : List Str := []
  havingCondition : List Str := []
  orderBy : Str := []
  limit : Str := []
  offset : Str := []

namespace SelectModel

def select (m : SelectModel) (columns : List Str) : SelectModel :=
  { m with selectColumns := m.selectColumns ++ columns }

def «from» (m : SelectModel) (tableName : Str) : SelectModel :=
  { m with
    tableName := if m.tableName = [] then tableName else m.tableName ++ ", ".toList ++ tableName }

def «where» (m : SelectModel) (condition : Str) : SelectModel :=
  { m with whereCondition := m.whereCondition ++ [condition] }

def groupBy (m : SelectModel) (columns : List Str) : SelectModel :=
  { m with groupbyColumns := m.groupbyColumns ++ columns }

/-- A clause that is left out when it has no items; `sep` stands between two items. -/
def clause (keyword sep : Str) (items : List Str) : Str :=
  if items = [] then [] else keyword ++ sep.intercalate items

/-- A clause that is left out when its text is empty. -/
def option (keyword text : Str) : Str := if text = [] then [] else keyword ++ text

/-- `str`, the text of the statement. -/
def str (m : SelectModel) : Str :=
  "select ".toList ++ ", ".toList.intercalate m.selectColumns ++
    " from ".toList ++ m.tableName ++
    clause " where ".toList " ".toList m.whereCondition ++
    clause " group by ".toList ", ".toList m.groupbyColumns ++
    clause " having ".toList " ".toList m.havingCondition ++
    option " order by ".toList m.orderBy ++
    option " limit ".toList m.limit ++
    option " offset ".toList m.offset

end SelectModel

end SimpleTSDB.Query
