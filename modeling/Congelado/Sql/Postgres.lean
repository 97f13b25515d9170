import Congelado.Lib.Json
import Congelado.Connector.Model
import Congelado.Sql.Text

/-!
# From the connector to PostgreSQL and back

A read of the connector crosses three layers: `connector::Sql` reduces it to a request,
the `sql_postgres` format renders the request, and `PostgresPlugin::exec` runs the text
and marshals the result into one JSON text (`rowsToJson`), which the connector decodes.

`parse_rowsToJson` is what the marshalling achieves: whatever the cells hold, its text
is read as an array with one object per row, the cells as strings or null under the
names of their columns.
-/

namespace Congelado.Sql

open List

open Keyed (Table)

/-! ### The requests of `connector::Sql` -/

/-- What the connector reads off a field of a model type. -/
structure Field where
  name : String
  primaryKey : Bool := false
  skipUpdate : Bool := false

/-- `serde::pk_column_name`: the last field that is flagged. -/
def pkColumnName (fields : List Field) : String :=
  fields.foldl (fun result field => if field.primaryKey then field.name else result) ""

/-- The request that `connector::Sql` makes of a statement. -/
def request {T : Type} (m : Model T) (fields : List Field) : Statement T → SqlRequest
  | .select key =>
    { op := "select", tableName := m.tableName, pkColumn := pkColumnName fields, key := key }
  | .selectMany keys =>
    { op := "select_many", tableName := m.tableName, pkColumn := pkColumnName fields, keys := keys }
  | .selectAll => { op := "select_all", tableName := m.tableName }
  | .insert value => { op := "insert", tableName := m.tableName, jsonPayload := m.write value }
  | .insertMany values =>
    { op := "insert_many", tableName := m.tableName
      jsonArrayPayload := "[" ++ join "," (values.map m.write) ++ "]" }
  | .update value =>
    { op := "update", tableName := m.tableName, pkColumn := pkColumnName fields
      jsonPayload := m.write value
      setColumns := (fields.filter fun f => !f.primaryKey && !f.skipUpdate).map Field.name }
  | .upsert value =>
    { op := "upsert", tableName := m.tableName, pkColumn := pkColumnName fields
      jsonPayload := m.write value
      updateColumns := (fields.filter fun f => !f.primaryKey).map Field.name }
  | .delete key =>
    { op := "delete", tableName := m.tableName, pkColumn := pkColumnName fields, key := key }
  | .deleteMany keys =>
    { op := "delete_many", tableName := m.tableName, pkColumn := pkColumnName fields, keys := keys }

/-- `Sql::dispatch`: the text of a request, or the payload with which `serde` reports an
error. -/
def dispatch (r : SqlRequest) : String :=
  match encode r with
  | .ok sql => sql
  | .error message => "\x7b\"error\":\"" ++ message ++ "\"\x7d"

/-! ### Results and their JSON text -/

/-- The outcomes of `PQexec`: rows of cells with the names of their columns, a command
without rows, or a failure. A cell is null or a text. -/
inductive QueryResult
  | tuples (columns : List String) (rows : List (List (Option String)))
  | command
  | failure

/-- A hexadecimal digit, as `std::format` writes it with `x`. -/
def hexDigit (n : ℕ) : Char :=
  if n < 10 then Char.ofNat ('0'.toNat + n) else Char.ofNat ('a'.toNat + n - 10)

/-- One character in `escape_json`. -/
def escapeJsonChar (c : Char) : List Char :=
  if c = '"' then ['\\', '"']
  else if c = '\\' then ['\\', '\\']
  else if c = '\n' then ['\\', 'n']
  else if c = '\r' then ['\\', 'r']
  else if c = '\t' then ['\\', 't']
  else if c.toNat < 0x20 then
    ['\\', 'u', '0', '0', hexDigit (c.toNat / 16), hexDigit (c.toNat % 16)]
  else [c]

/-- `escape_json`. -/
def escapeJson (value : String) : String :=
  String.ofList (value.toList.flatMap escapeJsonChar)

variable (column : String) (cell : Option String)

/-- One cell in `rows_to_json`. -/
def cellText : String :=
  "\"" ++ escapeJson column ++ "\":" ++
    match cell with
    | none => "null"
    | some value => "\"" ++ escapeJson value ++ "\""

/-- `rows_to_json`. -/
def rowsToJson (columns : List String) (rows : List (List (Option String))) : String :=
  "[" ++ join "," (rows.map fun row =>
    "\x7b" ++ join "," (List.zipWith cellText columns row) ++ "\x7d") ++ "]"

/-- A connection to a server that runs the text of a statement on its tables. -/
structure Server (σ : Type) where
  run : String → σ → σ × QueryResult

/-- `PostgresPlugin::exec`; without a connection nothing is run. -/
def exec {σ : Type} (conn : Option (Server σ)) (sql : String) (s : σ) : σ × String :=
  match conn with
  | none => (s, "")
  | some server =>
    let (s, result) := server.run sql s
    match result with
    | .tuples columns rows => (s, rowsToJson columns rows)
    | .command => (s, "ok")
    | .failure => (s, "")

/-- `PostgresPlugin` behind the SQL text of the connector's statements. -/
def postgres {T σ : Type} (m : Model T) (fields : List Field) (conn : Option (Server σ)) :
    Database σ T where
  query := fun statement => exec conn (dispatch (request m fields statement))
  remove := fun statement => exec conn (dispatch (request m fields statement))

/-! ### Reading the JSON text of a result -/

theorem hexValue_hexDigit : ∀ n < 16, Json.hexValue (hexDigit n) = some n := by decide

theorem escapes_escapeJsonChar : Json.Escapes escapeJsonChar := by
  intro c rest
  unfold escapeJsonChar
  split_ifs with hquote hback hnl hcr htab hctl
  · subst hquote; rfl
  · subst hback; rfl
  · subst hnl; rfl
  · subst hcr; rfl
  · subst htab; rfl
  · -- the only escape with digits: the two low ones are those of the character's code
    have hzero : Json.hexValue '0' = some 0 := by decide
    have hhigh := hexValue_hexDigit (c.toNat / 16) (by omega)
    have hlow := hexValue_hexDigit (c.toNat % 16) (by omega)
    have hcode : ((0 * 16 + 0) * 16 + c.toNat / 16) * 16 + c.toNat % 16 = c.toNat := by omega
    simp only [cons_append, nil_append, Json.readChar, hzero, hhigh, hlow,
      Option.bind_eq_bind, Option.bind_some, hcode, Char.ofNat_toNat]
  · rw [singleton_append, Json.readChar, if_neg (by simp [hctl, hback, hquote])]
    · intro _ _ _ _ _ h
      exact absurd h hback
    · intro _ _ h
      exact absurd h hback

theorem toList_join (texts : List String) :
    (join "," texts).toList = Json.commas (texts.map String.toList) := by
  induction texts with
  | nil => rfl
  | cons text texts ih =>
    cases texts with
    | nil => rfl
    | cons text' texts =>
      rw [map_cons, map_cons, Json.commas, ← map_cons, ← ih, join]
      · simp
      · simp
      · simp

/-- The value of a cell. -/
def cellValue : Json.Value :=
  match cell with
  | none => .null
  | some value => .str value.toList

/-- A cell as a member of its row's object. -/
def cellMember : Json.Member where
  name := column.toList
  value := cellValue cell
  text := match cell with
    | none => ['n', 'u', 'l', 'l']
    | some value => '"' :: (value.toList.flatMap escapeJsonChar ++ ['"'])

theorem reads_cellMember :
    Json.Reads (cellMember column cell).text (cellMember column cell).value := by
  cases cell with
  | none => exact Json.reads_null
  | some value => exact Json.reads_str escapes_escapeJsonChar value.toList

theorem toList_cellText :
    (cellText column cell).toList = (cellMember column cell).write escapeJsonChar := by
  cases cell <;> simp [cellText, cellMember, Json.Member.write, escapeJson]

/-- The object of a row. -/
def rowValue (columns : List String) (row : List (Option String)) : Json.Value :=
  .obj (List.zipWith (fun column cell => (column.toList, cellValue cell)) columns row)

/-- The cells of a row with two columns are found under their names. -/
theorem field?_rowValue_pair {a b : String} (hne : a ≠ b) (x y : Option String) :
    (rowValue [a, b] [x, y]).field? a.toList = some (cellValue x) ∧
      (rowValue [a, b] [x, y]).field? b.toList = some (cellValue y) := by
  have htext : a.toList ≠ b.toList := fun h => hne (String.toList_injective h)
  simp [rowValue, Json.Value.field?, htext]

variable (columns : List String)

theorem reads_row (row : List (Option String)) :
    Json.Reads ("\x7b" ++ join "," (List.zipWith cellText columns row) ++ "\x7d").toList
      (rowValue columns row) := by
  have hreads := Json.reads_obj escapes_escapeJsonChar
    (List.zipWith cellMember columns row) (fun f hf => by
      obtain ⟨i, hi, rfl⟩ := getElem_of_mem hf
      rw [getElem_zipWith]
      exact reads_cellMember _ _)
  rw [map_zipWith, map_zipWith] at hreads
  have htext : ("\x7b" ++ join "," (List.zipWith cellText columns row) ++ "\x7d").toList =
      '\x7b' :: (Json.commas (List.zipWith
        (fun column cell => (cellMember column cell).write escapeJsonChar) columns row) ++
          ['\x7d']) := by
    rw [String.toList_append, String.toList_append, toList_join, map_zipWith]
    simp only [toList_cellText]
    rfl
  rwa [htext]

/-- The text of a result is read as an array with an object for every row. -/
theorem parse_rowsToJson (rows : List (List (Option String))) :
    Json.read (rowsToJson columns rows).toList = some (.arr (rows.map (rowValue columns))) := by
  have hreads := Json.reads_arr
    (rows.map fun row =>
      (("\x7b" ++ join "," (List.zipWith cellText columns row) ++ "\x7d").toList,
        rowValue columns row))
    (fun p hp => by
      obtain ⟨row, -, rfl⟩ := mem_map.1 hp
      exact reads_row columns row)
  rw [map_map, map_map] at hreads
  have htext : (rowsToJson columns rows).toList = '[' :: (Json.commas (rows.map fun row =>
      ("\x7b" ++ join "," (List.zipWith cellText columns row) ++ "\x7d").toList) ++ [']']) := by
    rw [rowsToJson, String.toList_append, String.toList_append, toList_join, map_map]
    rfl
  rw [htext]
  exact hreads.read

end Congelado.Sql
