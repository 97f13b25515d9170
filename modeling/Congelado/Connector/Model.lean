import Congelado.Lib.Keyed

/-!
# The connector

`connector::Connector` keeps the rows of a model type in a database, or in a store of
its own when none is configured, and in a cache in front of either. The operations here
are the bodies that `enqueue` runs, one per public method, each with its callback's
argument as its answer: they change the connector and the backends behind it.

* A `Model` is what the code reads off `Serializable<T>` and the JSON format: the table
  name, the primary key, and how a value is written and decoded.
* A `Statement` is a request of `connector::Sql`, and a `Database` answers the text of
  it with a string, empty for a failure.
* The cache maps cache keys to texts; what it has no entry for reads as the empty text.

`keyValue` is the database that stores every value it is given under its primary key.
-/

namespace Congelado

open Keyed (Table)

/-- What the connector knows of a model type. -/
structure Model (T : Type) where
  /-- `Serializable<T>::table_name()`. -/
  tableName : String
  /-- `serde::Cache::pk_string`. -/
  pkString : T → String
  /-- `rfl::json::write`, also for a list of rows. -/
  write : T → String
  writeMany : List T → String
  /-- `serde::Ser::deserialize` of `application/json`. -/
  decode : String → Option T
  decodeMany : String → Option (List T)

namespace Model

variable {T : Type} (m : Model T)

/-- `serde::Cache::cache_key<T>(pk_value)`. -/
def cacheKey (pk : String) : String := m.tableName ++ ":" ++ pk

/-- How a caller of a backend reads an answer that holds one value. -/
def read (answer : String) : Option T :=
  if answer = "" then none else m.decode answer

/-- How a caller of a backend reads an answer that holds a list of values. -/
def readMany (answer : String) : List T :=
  if answer = "" then [] else (m.decodeMany answer).getD []

/-- The JSON format is loaded: what is written can be read again. -/
structure Lawful : Prop where
  decode_write : ∀ v, m.decode (m.write v) = some v
  write_ne_empty : ∀ v, m.write v ≠ ""
  readMany_writeMany : ∀ vs, m.readMany (m.writeMany vs) = vs

variable {m}

theorem cacheKey_injective : Function.Injective m.cacheKey := by
  intro a b h
  have htext : a.toList = b.toList := by
    simpa [cacheKey] using congrArg String.toList h
  exact String.toList_injective htext

theorem Lawful.read_write (hm : m.Lawful) (v : T) : m.read (m.write v) = some v := by
  rw [read, if_neg (hm.write_ne_empty v), hm.decode_write]

theorem read_empty : m.read "" = none := if_pos rfl

end Model

/-- The statements of `connector::Sql`. -/
inductive Statement (T : Type)
  | select (key : String)
  | selectMany (keys : List String)
  | selectAll
  | insert (value : T)
  | insertMany (values : List T)
  | update (value : T)
  | upsert (value : T)
  | delete (key : String)
  | deleteMany (keys : List String)

/-- A database backend with states `σ`: `IDatabase::query` and `IDatabase::remove`. -/
structure Database (σ T : Type) where
  query : Statement T → σ → σ × String
  remove : Statement T → σ → σ × String

/-- A connector with the contents of its backends. -/
structure Connector {T : Type} (m : Model T) (σ : Type) where
  /-- `m_cache`. -/
  cache : String → Option String
  /-- `m_database`. -/
  database : Option σ
  /-- `get_local_store<T>()`. -/
  localStore : Table m.pkString

namespace Connector

variable {T σ : Type} {m : Model T} (db : Database σ T)

/-! ### Reads -/

/-- `find`: the cache first, then the database or the local store; what the database
finds is cached. An entry of the cache that cannot be decoded is a miss. -/
def find (key : String) (c : Connector m σ) : Connector m σ × Option T :=
  match m.read ((c.cache (m.cacheKey key)).getD "") with
  | some v => (c, some v)
  | none =>
    match c.database with
    | none => (c, c.localStore.find? key)
    | some s =>
      let (s, result) := db.query (.select key) s
      match m.read result with
      | none => ({ c with database := some s }, none)
      | some v =>
        ({ c with
            database := some s
            cache := Function.update c.cache (m.cacheKey key) (some (m.write v)) }, some v)

variable (keys : List String) (c : Connector m σ)

/-- `find_many`, which passes the cache by. -/
def findMany : Connector m σ × List T :=
  match c.database with
  | none => (c, keys.filterMap c.localStore.find?)
  | some s =>
    let (s, result) := db.query (.selectMany keys) s
    ({ c with database := some s }, m.readMany result)

/-- `find_all`, which passes the cache by. -/
def findAll : Connector m σ × List T :=
  match c.database with
  | none => (c, c.localStore.rows)
  | some s =>
    let (s, result) := db.query .selectAll s
    ({ c with database := some s }, m.readMany result)

/-! ### Writes -/

variable (value : T) (sql : Statement T)

/-- `write_through`: the cache first and unconditionally, then the database or the local
store. -/
def writeThrough (c : Connector m σ) : Connector m σ × Bool :=
  let c := { c with
    cache := Function.update c.cache (m.cacheKey (m.pkString value)) (some (m.write value)) }
  match c.database with
  | none => ({ c with localStore := c.localStore.put value }, true)
  | some s =>
    let (s, result) := db.query sql s
    ({ c with database := some s }, result ≠ "")

/-- `insert`. -/
def insert : Connector m σ → Connector m σ × Bool :=
  writeThrough db value (.insert value)

/-- `update`. -/
def update : Connector m σ → Connector m σ × Bool :=
  writeThrough db value (.update value)

/-- `upsert`. -/
def upsert : Connector m σ → Connector m σ × Bool :=
  writeThrough db value (.upsert value)

/-- `insert_many`, which does not write the cache. -/
def insertMany (values : List T) (c : Connector m σ) : Connector m σ × Bool :=
  match c.database with
  | none => ({ c with localStore := values.foldl Table.put c.localStore }, true)
  | some s =>
    let (s, result) := db.query (.insertMany values) s
    ({ c with database := some s }, result ≠ "")

/-- Drop the cache entries of some keys. -/
def uncache (c : Connector m σ) : Connector m σ :=
  { c with
    cache := keys.foldl (fun cache key => Function.update cache (m.cacheKey key) none) c.cache }

/-- The second half of `remove` and `remove_many`, after the cache entries are dropped. -/
def removeStored (c : Connector m σ) : Connector m σ × Bool :=
  match c.database with
  | none => ({ c with localStore := keys.foldl Table.erase c.localStore }, true)
  | some s =>
    let (s, result) := db.remove sql s
    ({ c with database := some s }, result ≠ "")

/-- `remove`. -/
def remove (key : String) (c : Connector m σ) : Connector m σ × Bool :=
  removeStored db [key] (.delete key) (c.uncache [key])

/-- `remove_many`. -/
def removeMany (c : Connector m σ) : Connector m σ × Bool :=
  removeStored db keys (.deleteMany keys) (c.uncache keys)

end Connector

/-- The database that is a key-value store of the model's values and never fails. -/
def keyValue {T : Type} (m : Model T) : Database (Table m.pkString) T where
  query
    | .select key, t => (t, ((t.find? key).map m.write).getD "")
    | .selectMany keys, t => (t, m.writeMany (t.rows.filter (m.pkString · ∈ keys)))
    | .selectAll, t => (t, m.writeMany t.rows)
    | .insert value, t | .update value, t | .upsert value, t => (t.put value, "ok")
    | .insertMany values, t => (values.foldl Table.put t, "ok")
    | .delete key, t => (t.erase key, "ok")
    | .deleteMany keys, t => (keys.foldl Table.erase t, "ok")
  remove
    | .delete key, t => (t.erase key, "ok")
    | .deleteMany keys, t => (keys.foldl Table.erase t, "ok")
    | _, t => (t, "")

end Congelado
