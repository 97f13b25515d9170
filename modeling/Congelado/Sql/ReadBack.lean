import Congelado.Sql.Postgres
import Congelado.Sql.Values

/-!
# Reading rows back through PostgreSQL

`row_to_json` and `json_agg` make PostgreSQL answer with the JSON text of a row, or of
an array of rows, in one cell. `rows_to_json` puts that cell as a string into an object
of its own, under the name of the column, so what reaches the connector is
`[{"row_to_json": "..."}]` or `[{"json_agg": "..."}]`. The connector decodes it as the row
or as the array, and neither has that shape.

`reads_back_iff` draws the consequence for the three reads on a connector whose cache is
empty: each delivers what is stored exactly when no stored row was asked for.
-/

namespace Congelado.Sql

open List

open Lexical (lex Plain Token plain_append_iff)

variable {T σ : Type}

/-- A model type whose values are JSON objects: what the connector and PostgreSQL write
for a row and for a list of rows, and how `rfl::from_generic` reads them. The primary
key is a required field. -/
structure JsonModel (T : Type) where
  tableName : String
  fields : List Field
  pkString : T → String
  toJson : T → Json.Value
  fromJson : Json.Value → Option T
  write : T → String
  writeMany : List T → String
  rowToJson : T → String
  jsonAgg : List T → String
  fromJson_toJson : ∀ v, fromJson (toJson v) = some v
  read_write : ∀ v, Json.read (write v).toList = some (toJson v)
  read_writeMany : ∀ vs, Json.read (writeMany vs).toList = some (.arr (vs.map toJson))
  read_rowToJson : ∀ v, Json.read (rowToJson v).toList = some (toJson v)
  read_jsonAgg : ∀ vs, Json.read (jsonAgg vs).toList = some (.arr (vs.map toJson))
  named_table : isIdentifier tableName
  named_pk : isIdentifier (pkColumnName fields)
  fromJson_pk : ∀ {j v}, fromJson j = some v → j.field? (pkColumnName fields).toList ≠ none
  pk_ne : pkColumnName fields ≠ "json_agg"

namespace JsonModel

variable {r : SqlRequest} {key : String} (M : JsonModel T)

/-- A list of rows is read from an array. -/
def fromJsonMany : Json.Value → Option (List T)
  | .arr elements => elements.mapM M.fromJson
  | _ => none

/-- The model type as the connector sees it. -/
def model : Model T where
  tableName := M.tableName
  pkString := M.pkString
  write := M.write
  writeMany := M.writeMany
  decode := fun text => (Json.read text.toList).bind M.fromJson
  decodeMany := fun text => (Json.read text.toList).bind M.fromJsonMany

/-- The text of a statement of the connector. -/
def sql (statement : Statement T) : String :=
  dispatch (request M.model M.fields statement)

/-- The cell of `json_agg`: null for no rows. -/
def aggregate (vs : List T) : Option String :=
  if vs.isEmpty then none else some (M.jsonAgg vs)

/-- What PostgreSQL is assumed to do with the three select statements on tables that
hold `rows`: a cell with the JSON text of each row that has the key, or one cell with the
JSON text of the array of the rows. A list of no keys is not valid SQL. -/
structure Evaluates (M : JsonModel T) (server : Server σ) (rows : σ → List T) : Prop where
  select : ∀ s key, '\'' ∉ key.toList → server.run (M.sql (.select key)) s =
    (s, .tuples ["row_to_json"]
      (((rows s).filter fun v => M.pkString v = key).map fun v => [some (M.rowToJson v)]))
  selectMany : ∀ s keys, keys ≠ [] → (∀ key ∈ keys, '\'' ∉ key.toList) →
    server.run (M.sql (.selectMany keys)) s =
      (s, .tuples ["json_agg"] [[M.aggregate ((rows s).filter fun v => M.pkString v ∈ keys)]])
  selectNone : ∀ s, server.run (M.sql (.selectMany [])) s = (s, .failure)
  selectAll : ∀ s, server.run (M.sql .selectAll) s =
    (s, .tuples ["json_agg"] [[M.aggregate (rows s)]])

variable {M : JsonModel T} {server : Server σ} {rows : σ → List T}

/-! ### What the connector decodes -/

/-- The text of a result is an array, so it is not read as a row. -/
theorem decode_rowsToJson (columns : List String) (cells : List (List (Option String))) :
    M.model.decode (rowsToJson columns cells) = none := by
  show (Json.read (rowsToJson columns cells).toList).bind M.fromJson = none
  rw [parse_rowsToJson, Option.bind_some]
  cases h : M.fromJson (.arr (cells.map (rowValue columns))) with
  | none => rfl
  | some v => exact absurd rfl (M.fromJson_pk h)

theorem field?_rowValue_singleton {column : String} {name : List Char}
    (hne : column.toList ≠ name) (cell : Option String) :
    (rowValue [column] [cell]).field? name = none := by
  simp [rowValue, Json.Value.field?, hne]

variable (cell : Option String)

/-- The object around an aggregate lacks the key column, so it is not read as a row. -/
theorem decodeMany_aggregate :
    M.model.decodeMany (rowsToJson ["json_agg"] [[cell]]) = none := by
  have hfield : (rowValue ["json_agg"] [cell]).field? (pkColumnName M.fields).toList = none :=
    field?_rowValue_singleton (fun h => M.pk_ne (String.toList_injective h).symm) cell
  have hrow : M.fromJson (rowValue ["json_agg"] [cell]) = none := by
    cases h : M.fromJson (rowValue ["json_agg"] [cell]) with
    | none => rfl
    | some v => exact absurd hfield (M.fromJson_pk h)
  show (Json.read (rowsToJson ["json_agg"] [[cell]]).toList).bind M.fromJsonMany = none
  rw [parse_rowsToJson, Option.bind_some]
  show [rowValue ["json_agg"] [cell]].mapM M.fromJson = none
  simp [hrow]

theorem readMany_aggregate :
    M.model.readMany (rowsToJson ["json_agg"] [[cell]]) = [] := by
  unfold Model.readMany
  split
  · rfl
  · rw [decodeMany_aggregate]
    rfl

/-! ### The three reads -/

section Reads

variable {c : Connector M.model σ} {s : σ}

section

variable (heval : M.Evaluates server rows)

include heval

section

variable (hdb : c.database = some s)

include hdb

theorem find_eq_none
    (hcache : ∀ key, c.cache key = none) (hkey : '\'' ∉ key.toList) :
    (c.find (postgres M.model M.fields (some server)) key).2 = none := by
  have hquery : (postgres M.model M.fields (some server)).query (.select key) s =
      (s, rowsToJson ["row_to_json"]
        (((rows s).filter fun v => M.pkString v = key).map fun v => [some (M.rowToJson v)])) := by
    show exec (some server) (M.sql (.select key)) s = _
    rw [exec, heval.select s key hkey]
  have hread : ∀ cells, M.model.read (rowsToJson ["row_to_json"] cells) = none := by
    intro cells
    unfold Model.read
    split
    · rfl
    · exact decode_rowsToJson _ _
  unfold Connector.find
  rw [hcache, Option.getD_none, Model.read_empty, hdb]
  simp only [hquery, hread]

theorem findMany_eq_nil
    {keys : List String} (hkeys : ∀ key ∈ keys, '\'' ∉ key.toList) :
    (c.findMany (postgres M.model M.fields (some server)) keys).2 = [] := by
  unfold Connector.findMany
  rw [hdb]
  show M.model.readMany (exec (some server) (M.sql (.selectMany keys)) s).2 = []
  by_cases hnil : keys = []
  · rw [hnil, exec, heval.selectNone]
    rfl
  · rw [exec, heval.selectMany s keys hnil hkeys]
    exact readMany_aggregate _

theorem findAll_eq_nil :
    (c.findAll (postgres M.model M.fields (some server))).2 = [] := by
  unfold Connector.findAll
  rw [hdb]
  show M.model.readMany (exec (some server) (M.sql .selectAll) s).2 = []
  rw [exec, heval.selectAll]
  exact readMany_aggregate _

end

end

end Reads

/-- **Reading back.** On a connector with an empty cache in front of PostgreSQL, and for
keys without quotes, each of the three reads delivers exactly the stored rows it asks for
if and only if it asks for no stored row. -/
theorem reads_back_iff (heval : M.Evaluates server rows) {c : Connector M.model σ} {s : σ}
    (hdb : c.database = some s) (hcache : ∀ key, c.cache key = none) :
    let db := postgres M.model M.fields (some server)
    (∀ key, '\'' ∉ key.toList →
      ((c.find db key).2 = (rows s).find? (fun v => M.pkString v = key) ↔
        ∀ v ∈ rows s, M.pkString v ≠ key)) ∧
    (∀ keys : List String, (∀ key ∈ keys, '\'' ∉ key.toList) →
      ((c.findMany db keys).2 = (rows s).filter (fun v => M.pkString v ∈ keys) ↔
        ∀ v ∈ rows s, M.pkString v ∉ keys)) ∧
    ((c.findAll db).2 = rows s ↔ rows s = []) := by
  refine ⟨fun key hkey => ?_, fun keys hkeys => ?_, ?_⟩
  · rw [find_eq_none heval hdb hcache hkey, eq_comm, find?_eq_none]
    simp
  · rw [findMany_eq_nil heval hdb hkeys, eq_comm, filter_eq_nil_iff]
    simp
  · rw [findAll_eq_nil heval hdb]
    exact eq_comm

/-! ### A server that evaluates the statements -/

/-- The string literals of a text. -/
def literals (text : String) : List String :=
  (((lex text).getD []).filterMap Token.value?).map String.ofList

variable (M)

/-- A server on a list of rows that knows the three statements by their text. -/
def reference : Server (List T) where
  run := fun text rows =>
    let keys := literals text
    (rows,
      if text = M.sql (.select (keys.headD "")) then
        .tuples ["row_to_json"]
          ((rows.filter fun v => M.pkString v = keys.headD "").map fun v => [some (M.rowToJson v)])
      else if text = M.sql .selectAll then .tuples ["json_agg"] [[M.aggregate rows]]
      else if keys ≠ [] ∧ text = M.sql (.selectMany keys) then
        .tuples ["json_agg"] [[M.aggregate (rows.filter fun v => M.pkString v ∈ keys)]]
      else .failure)

theorem literals_of_faithful (h : r.Faithful) {text : String}
    (htext : encode r = .ok text) : literals text = r.values := by
  obtain ⟨text', tokens, htext', hlex, -, hvalues, -⟩ := h
  obtain rfl : text = text' := Except.ok.inj (htext.symm.trans htext')
  rw [literals, hlex, Option.getD_some, hvalues, map_map]
  exact (map_congr_left fun key _ => String.ofList_toList).trans (map_id _)

theorem named_request (htable : r.tableName = M.tableName)
    (hpk : r.pkColumn = pkColumnName M.fields) (hset : r.setColumns = [])
    (hupdate : r.updateColumns = []) : r.Named where
  tableName := htable ▸ M.named_table
  pkColumn := fun _ => hpk ▸ M.named_pk
  setColumns := by simp [hset]
  updateColumns := by simp [hupdate]

theorem encode_select (key : String) :
    encode (request M.model M.fields (.select key)) = .ok (M.sql (.select key)) := by
  simp [encode, request]
  rfl

variable (keys : List String)

theorem encode_selectMany :
    encode (request M.model M.fields (.selectMany keys)) = .ok (M.sql (.selectMany keys)) := by
  simp [encode, request]
  rfl

theorem literals_select (hkey : '\'' ∉ key.toList) :
    literals (M.sql (.select key)) = [key] := by
  have hnamed := named_request M (r := request M.model M.fields (.select key)) rfl rfl rfl rfl
  exact literals_of_faithful ((faithful_select hnamed rfl).2 hkey) (M.encode_select key)

theorem literals_selectMany :
    literals (M.sql (.selectMany keys)) = keys := by
  have hnamed := named_request M (r := request M.model M.fields (.selectMany keys)) rfl rfl rfl rfl
  exact literals_of_faithful (faithful_select_many hnamed rfl) (M.encode_selectMany keys)

/-! The three statements differ in their second word, or in what follows `FROM`. -/

theorem append_ne_append {a b : String} (hlen : a.toList.length = b.toList.length) (hne : a ≠ b)
    (x y : String) : a ++ x ≠ b ++ y := by
  intro h
  have htext := congrArg String.toList h
  rw [String.toList_append, String.toList_append] at htext
  exact hne (String.toList_injective (append_inj_left htext hlen))

theorem append_front {front a b : String} (hfront : front = a ++ b) (u v w x y z : String) :
    front ++ u ++ v ++ w ++ x ++ y ++ z = a ++ (b ++ u ++ v ++ w ++ x ++ y ++ z) := by
  simp only [hfront, String.append_assoc]

theorem exists_sql_select (key : String) :
    ∃ rest, M.sql (.select key) = "SELECT row_to_json" ++ rest := by
  have hfront : "SELECT row_to_json(row) FROM (SELECT * FROM " =
      "SELECT row_to_json" ++ "(row) FROM (SELECT * FROM " := rfl
  exact ⟨_, append_front hfront ..⟩

theorem exists_sql_selectMany :
    ∃ rest, M.sql (.selectMany keys) = "SELECT json_agg(row_to_json(row)) FROM (" ++ rest := by
  have hfront : "SELECT json_agg(row_to_json(row)) FROM (SELECT * FROM " =
      "SELECT json_agg(row_to_json(row)) FROM (" ++ "SELECT * FROM " := rfl
  exact ⟨_, append_front hfront ..⟩

theorem sql_selectAll :
    M.sql .selectAll = "SELECT json_agg(row_to_json(row)) FROM " ++ M.tableName ++ " row" := rfl

theorem aggregate_ne_row (x y : String) :
    "SELECT json_agg(row_to_json(row)) FROM " ++ x ≠ "SELECT row_to_json" ++ y := by
  have hfront : "SELECT json_agg(row_to_json(row)) FROM " =
      "SELECT json_agg(ro" ++ "w_to_json(row)) FROM " := rfl
  rw [hfront, String.append_assoc]
  exact append_ne_append (a := "SELECT json_agg(ro") (b := "SELECT row_to_json") (by decide)
    (by decide) _ _

theorem sql_selectMany_ne_select (key : String) :
    M.sql (.selectMany keys) ≠ M.sql (.select key) := by
  have hfront : "SELECT json_agg(row_to_json(row)) FROM (" =
      "SELECT json_agg(row_to_json(row)) FROM " ++ "(" := rfl
  obtain ⟨rest, hrest⟩ := M.exists_sql_select key
  obtain ⟨rest', hrest'⟩ := M.exists_sql_selectMany keys
  rw [hrest, hrest', hfront, String.append_assoc]
  exact aggregate_ne_row _ _

theorem sql_selectAll_ne_select (key : String) :
    M.sql .selectAll ≠ M.sql (.select key) := by
  obtain ⟨rest, hrest⟩ := M.exists_sql_select key
  rw [hrest, M.sql_selectAll, String.append_assoc]
  exact aggregate_ne_row _ _

/-- A table's name does not start with the parenthesis of the inner query. -/
theorem sql_selectMany_ne_selectAll :
    M.sql (.selectMany keys) ≠ M.sql .selectAll := by
  have hfront : "SELECT json_agg(row_to_json(row)) FROM (" =
      "SELECT json_agg(row_to_json(row)) FROM " ++ "(" := rfl
  obtain ⟨rest, hrest⟩ := M.exists_sql_selectMany keys
  rw [hrest, M.sql_selectAll, hfront, String.append_assoc, String.append_assoc]
  intro h
  obtain ⟨hne, hword⟩ := M.named_table
  have htext := congrArg String.toList h
  rw [String.toList_append, @String.toList_append _ (M.tableName ++ " row")] at htext
  have htail := append_cancel_left htext
  cases hname : M.tableName.toList with
  | nil => exact hne (String.toList_injective hname)
  | cons c cs =>
    rw [String.toList_append, String.toList_append, hname] at htail
    have hc : '(' = c := (List.cons.inj htail).1
    exact absurd (hword c (hname ▸ (.head _))) (by rw [← hc]; decide)

/-- The assumption on PostgreSQL can be met. -/
theorem evaluates_reference : M.Evaluates M.reference id where
  select := by
    intro rows key hkey
    simp only [reference, literals_select M hkey, headD_cons, if_true, id]
  selectMany := by
    intro rows keys hne hkeys
    simp only [reference, literals_selectMany, if_neg (sql_selectMany_ne_select M _ _),
      if_neg (sql_selectMany_ne_selectAll M _), and_true, if_pos hne, id]
  selectNone := by
    intro rows
    simp only [reference, literals_selectMany, if_neg (sql_selectMany_ne_select M _ _),
      if_neg (sql_selectMany_ne_selectAll M _), ne_eq, not_true, false_and, if_false]
  selectAll := by
    intro rows
    simp only [reference, if_neg (sql_selectAll_ne_select M _), if_true, id]

variable {M}

end JsonModel

/-! ### A table of names -/

/-- A row with an id and a name, as JSON text. -/
def nameCells (v : String × String) : List (Option String) := [some v.1, some v.2]

/-- Rows with an id and a name. -/
def names : JsonModel (String × String) where
  tableName := "names"
  fields := [{ name := "id", primaryKey := true }, { name := "name" }]
  pkString := Prod.fst
  toJson := fun v => rowValue ["id", "name"] (nameCells v)
  fromJson := fun j =>
    match j.field? "id".toList, j.field? "name".toList with
    | some (.str id), some (.str name) => some (String.ofList id, String.ofList name)
    | _, _ => none
  write :=
    fun v => "\x7b" ++ join "," (List.zipWith cellText ["id", "name"] (nameCells v)) ++ "\x7d"
  writeMany := fun vs => rowsToJson ["id", "name"] (vs.map nameCells)
  rowToJson := fun v =>
    "\x7b" ++ join "," (List.zipWith cellText ["id", "name"] (nameCells v)) ++ "\x7d"
  jsonAgg := fun vs => rowsToJson ["id", "name"] (vs.map nameCells)
  fromJson_toJson := fun v => by
    simp [rowValue, nameCells, cellValue, Json.Value.field?]
  read_write := fun v => (reads_row _ _).read
  read_writeMany := fun vs => by rw [parse_rowsToJson, map_map]; rfl
  read_rowToJson := fun v => (reads_row _ _).read
  read_jsonAgg := fun vs => by rw [parse_rowsToJson, map_map]; rfl
  named_table := ⟨by decide, by simp; decide⟩
  named_pk := ⟨by decide, by simp [pkColumnName]; decide⟩
  fromJson_pk := by
    intro j v h hnone
    replace hnone : j.field? "id".toList = none := hnone
    simp only [hnone] at h
    cases h
  pk_ne := by decide

/-- A connector in front of a table, with nothing cached. -/
def uncached (rows : List (String × String)) : Connector names.model (List (String × String)) where
  cache := fun _ => none
  database := some rows
  localStore := .empty

/-- A table with one row, and keys that it does not have. -/
theorem reads_back_iff_absent :
    let db := postgres names.model names.fields (some names.reference)
    ((uncached [("1", "Ann")]).find db "2").2 = none ∧
      ((uncached [("1", "Ann")]).findMany db ["2", "3"]).2 = [] ∧
      ((uncached []).findAll db).2 = [] := by
  have hone := JsonModel.reads_back_iff names.evaluates_reference
    (c := uncached [("1", "Ann")]) rfl (fun _ => rfl)
  have hnone := JsonModel.reads_back_iff names.evaluates_reference
    (c := uncached []) rfl (fun _ => rfl)
  refine ⟨(hone.1 "2" (by simp)).2 ?_, (hone.2.1 ["2", "3"] (by simp)).2 ?_,
    hnone.2.2.2 rfl⟩
  · simp [names]
  · simp [names]

/-- A table with one row: none of the reads finds it. -/
theorem stored_row_is_not_read :
    let db := postgres names.model names.fields (some names.reference)
    let c := uncached [("1", "Ann")]
    names.Evaluates names.reference id ∧ (c.find db "1").2 ≠ some ("1", "Ann") ∧
      (c.findMany db ["1"]).2 ≠ [("1", "Ann")] ∧ (c.findAll db).2 ≠ [("1", "Ann")] := by
  have heval := names.evaluates_reference
  refine ⟨heval, ?_, ?_, ?_⟩
  · rw [JsonModel.find_eq_none heval rfl (fun _ => rfl) (by simp)]
    simp
  · rw [JsonModel.findMany_eq_nil heval rfl (by simp)]
    simp
  · rw [JsonModel.findAll_eq_nil heval rfl]
    simp

end Congelado.Sql
