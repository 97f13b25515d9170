import Congelado.Lib.Lexical

/-!
# The SQL text of the `sql_postgres` format

`SqlPostgresPlugin::encode` turns a request, in which the connector has reduced a model
type to names and texts, into the text of one PostgreSQL statement. The builders are
translated one by one; each loop over columns or keys that puts a separator before all
but the first entry is `join`.
-/

namespace Congelado.Sql

/-- The kind tags of `serde::ValueKind`. -/
inductive ValueKind
  | string
  | boolean
  | int64
  | uint64
  | int32
  | uint32
  | double
  | float
  | timestamp
  | uuid
  | other
  deriving DecidableEq, Repr

structure SqlColumnDesc where
  name : String
  kind : ValueKind := .other
  primaryKey : Bool := false
  nullable : Bool := true
  unique : Bool := false
  skipUpdate : Bool := false
  refTable : String := ""
  refColumn : String := ""
  deriving DecidableEq, Repr

structure SqlQueryOptions where
  joins : List String := []
  whereConditions : List String := []
  orderByClauses : List (String × Bool) := []
  limit : Option ℕ := none
  deriving DecidableEq, Repr

/-- What crosses from the connector to the format. -/
structure SqlRequest where
  op : String
  tableName : String
  columns : List SqlColumnDesc := []
  pkColumn : String := ""
  key : String := ""
  keys : List String := []
  jsonPayload : String := ""
  jsonArrayPayload : String := ""
  setColumns : List String := []
  updateColumns : List String := []
  options : SqlQueryOptions := {}
  deriving DecidableEq, Repr

/-- `postgres_type_of`. -/
def postgresTypeOf : ValueKind → String
  | .string => "TEXT"
  | .boolean => "BOOLEAN"
  | .int64 | .uint64 | .timestamp => "BIGINT"
  | .int32 | .uint32 => "INTEGER"
  | .double => "DOUBLE PRECISION"
  | .float => "REAL"
  | .uuid => "UUID"
  | .other => "JSONB"

/-- Texts one after the other with a separator between them. -/
def join (sep : String) : List String → String
  | [] => ""
  | [text] => text
  | text :: texts => text ++ sep ++ join sep texts

/-- The inner loop of `quoted_list`: a quote is pushed twice. -/
def escaped (value : String) : String :=
  String.ofList <| value.toList.foldl
    (fun out c => (if c = '\'' then out ++ ['\''] else out) ++ [c]) []

/-- `quoted_list`. -/
def quotedList (values : List String) : String :=
  join "," (values.map fun value => "'" ++ escaped value ++ "'")

/-- `build_inner_query`. -/
def buildInnerQuery (tableName : String) (options : SqlQueryOptions) : String :=
  let joins := String.join (options.joins.map (" " ++ ·))
  let conditions :=
    if options.whereConditions.isEmpty then ""
    else " WHERE " ++ join " AND " options.whereConditions
  let orders := options.orderByClauses.map fun (column, ascending) =>
    column ++ if ascending then " ASC" else " DESC"
  let ordering := if orders.isEmpty then "" else " ORDER BY " ++ join ", " orders
  let limit := (options.limit.map fun n => " LIMIT " ++ toString n).getD ""
  "SELECT " ++ tableName ++ ".* FROM " ++ tableName ++ joins ++ conditions ++ ordering ++ limit

/-! ### One builder per operation -/

variable (request : SqlRequest)

def buildCreateSql : String :=
  let column := fun (c : SqlColumnDesc) =>
    c.name ++ " " ++ postgresTypeOf c.kind ++
      (if c.primaryKey then " PRIMARY KEY" else if !c.nullable then " NOT NULL" else "") ++
      (if c.unique && !c.primaryKey then " UNIQUE" else "") ++
      (if c.refTable ≠ "" then " REFERENCES " ++ c.refTable ++ "(" ++ c.refColumn ++ ")" else "")
  "CREATE TABLE IF NOT EXISTS " ++ request.tableName ++ " (" ++
    join ", " (request.columns.map column) ++ ")"

def buildSelectSql : String :=
  "SELECT row_to_json(row) FROM (SELECT * FROM " ++ request.tableName ++ " WHERE " ++
    request.pkColumn ++ " = '" ++ request.key ++ "') row"

def buildSelectManySql : String :=
  "SELECT json_agg(row_to_json(row)) FROM (SELECT * FROM " ++ request.tableName ++ " WHERE " ++
    request.pkColumn ++ " IN (" ++ quotedList request.keys ++ ")) row"

def buildSelectAllSql : String :=
  "SELECT json_agg(row_to_json(row)) FROM " ++ request.tableName ++ " row"

def buildInsertSql : String :=
  "INSERT INTO " ++ request.tableName ++ " SELECT * FROM json_populate_record(NULL::" ++
    request.tableName ++ ", '" ++ request.jsonPayload ++ "')"

def buildInsertManySql : String :=
  "INSERT INTO " ++ request.tableName ++ " SELECT * FROM json_populate_recordset(NULL::" ++
    request.tableName ++ ", '" ++ request.jsonArrayPayload ++ "')"

def buildUpdateSql : String :=
  let setList := join ", " (request.setColumns.map fun column => column ++ " = src." ++ column)
  "UPDATE " ++ request.tableName ++ " AS target SET " ++ setList ++
    " FROM json_populate_record(NULL::" ++ request.tableName ++ ", '" ++ request.jsonPayload ++
    "') AS src WHERE target." ++ request.pkColumn ++ " = src." ++ request.pkColumn

def buildUpsertSql : String :=
  let updateList := join ", "
    (request.updateColumns.map fun column => column ++ " = EXCLUDED." ++ column)
  "INSERT INTO " ++ request.tableName ++ " SELECT * FROM json_populate_record(NULL::" ++
    request.tableName ++ ", '" ++ request.jsonPayload ++ "') ON CONFLICT (" ++
    request.pkColumn ++ ") DO UPDATE SET " ++ updateList

def buildDeleteSql : String :=
  "DELETE FROM " ++ request.tableName ++ " WHERE " ++ request.pkColumn ++ " = '" ++
    request.key ++ "'"

def buildDeleteManySql : String :=
  "DELETE FROM " ++ request.tableName ++ " WHERE " ++ request.pkColumn ++ " IN (" ++
    quotedList request.keys ++ ")"

def buildQuerySql : String :=
  "SELECT json_agg(row_to_json(row)) FROM (" ++
    buildInnerQuery request.tableName request.options ++ ") row"

def buildQueryFirstSql : String :=
  "SELECT row_to_json(row) FROM (" ++
    buildInnerQuery request.tableName request.options ++ " LIMIT 1) row"

/-- `SqlPostgresPlugin::encode`, for a value that has the shape of a request. -/
def encode : Except String String :=
  if request.op = "create_table" then .ok (buildCreateSql request)
  else if request.op = "select" then .ok (buildSelectSql request)
  else if request.op = "select_many" then .ok (buildSelectManySql request)
  else if request.op = "select_all" then .ok (buildSelectAllSql request)
  else if request.op = "insert" then .ok (buildInsertSql request)
  else if request.op = "insert_many" then .ok (buildInsertManySql request)
  else if request.op = "update" then .ok (buildUpdateSql request)
  else if request.op = "upsert" then .ok (buildUpsertSql request)
  else if request.op = "delete" then .ok (buildDeleteSql request)
  else if request.op = "delete_many" then .ok (buildDeleteManySql request)
  else if request.op = "query" then .ok (buildQuerySql request)
  else if request.op = "query_first" then .ok (buildQueryFirstSql request)
  else .error ("sql_postgres: unrecognized op '" ++ request.op ++ "'")

end Congelado.Sql
