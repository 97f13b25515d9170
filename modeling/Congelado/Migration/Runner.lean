import Congelado.Lib.Dialogue
import Congelado.Lib.Transition
import Congelado.Sql.Postgres

/-!
# The migration runner

`migration::Runner::run_all` is written in continuation-passing style: every query gets a
callback that goes on with the run, and `done` is handed from one function to the next.
Here a run is a `Dialogue.Program` whose questions are the queries and whose reports are
the calls of `done`.

The callbacks of the two self-referencing step functions hold the function by a strong
pointer, so the weak pointer inside it can always be locked; a step is the recursive call.

A `Database` keeps the table `schema_migrations` and, as a ghost, the migrations that took
effect, in order. A query either takes effect and answers with a text, or has no effect
and answers with the empty text; which of the two is decided by the environment, one query
at a time.
-/

namespace Congelado.Migration

open Dialogue (Program)

/-! ### Migration files -/

/-- An entry of the migrations directory; the contents of a file that cannot be opened
are missing. -/
structure Entry where
  filename : String
  isRegularFile : Bool := true
  contents : Option String

structure MigrationFile where
  version : String
  contents : String
  checksum : String
  deriving DecidableEq, Repr

/-- `std::string::rfind`. -/
def rfind (c : Char) (text : List Char) : Option ℕ :=
  (text.reverse.idxOf? c).map fun i => text.length - 1 - i

/-- The width of `YYYYMMDDHHMMSS`. -/
def timestampWidth : ℕ := 14

variable (hashHex : String → String)

/-- One entry in the loop of `scan_migrations`. -/
def scanEntry (entry : Entry) : Option MigrationFile :=
  if !entry.isRegularFile then none
  else
    let filename := entry.filename.toList
    match filename.idxOf? '_', rfind '.' filename with
    | some underscore, some dot =>
      if dot ≤ underscore then none
      else if filename.drop dot ≠ ['.', 's', 'q', 'l'] then none
      else
        let timestamp := filename.take underscore
        if timestamp.length ≠ timestampWidth || !timestamp.all Char.isDigit then none
        else
          match entry.contents with
          | none => none
          | some contents =>
            if contents = "" then none
            else some
              { version := String.ofList (filename.take dot)
                contents := contents
                checksum := hashHex contents }
    | _, _ => none

/-- `scan_migrations`; a directory that does not exist has no entries. -/
def scanMigrations (dir : List Entry) : List MigrationFile :=
  (dir.filterMap (scanEntry hashHex)).insertionSort fun a b => a.version ≤ b.version

/-! ### The run -/

/-- What the runner asks for. A baseline is the callback that was registered at its
index; a file is the statement `BEGIN; contents COMMIT;`; a record is the statement
`INSERT INTO schema_migrations (version, checksum) VALUES ('version', 'checksum')`, whose
text is not read again here: what it does is `Database.perform`. -/
inductive Query
  | ensureSchemaMigrations
  | selectApplied
  | recordApplied (version checksum : String)
  | baseline (index : ℕ)
  | sqlFile (file : MigrationFile)
  deriving DecidableEq, Repr

/-- A run, whose reports are the calls of `done`. -/
abbrev Run := Program Query String Bool

/-- `AppliedMap`: `emplace` keeps the first entry of a version. -/
abbrev AppliedMap := List (String × String)

/-- A `VersionRow` of the result. -/
def versionRow (row : Json.Value) : Option (String × String) :=
  match row.field? "version".toList, row.field? "checksum".toList with
  | some (.str version), some (.str checksum) =>
    some (String.ofList version, String.ofList checksum)
  | _, _ => none

/-- The callback of `load_applied`: an empty result and one that cannot be parsed are an
empty map. -/
def appliedOf (result : String) : AppliedMap :=
  if result = "" then []
  else
    match Json.read result.toList with
    | some (.arr rows) => (rows.mapM versionRow).getD []
    | _ => []

/-- `ensure_schema_migrations`. -/
def ensureSchemaMigrations (done : Bool → Run) : Run :=
  .ask .ensureSchemaMigrations fun result => done (result ≠ "")

/-- `load_applied`. -/
def loadApplied (done : AppliedMap → Run) : Run :=
  .ask .selectApplied fun result => done (appliedOf result)

/-- `record_applied`. -/
def recordApplied (version checksum : String) (done : Bool → Run) : Run :=
  .ask (.recordApplied version checksum) fun result => done (result ≠ "")

/-- The version under which a baseline is recorded. -/
def baselineVersion (name : String) : String := "baseline-" ++ name

/-- The step function of `run_baselines`, with the baselines from the index on. -/
def runBaselines (applied : AppliedMap) (done : Bool → Run) : ℕ → List String → Run
  | _, [] => done true
  | index, name :: rest =>
    if (applied.lookup (baselineVersion name)).isSome then
      runBaselines applied done (index + 1) rest
    else
      .ask (.baseline index) fun result =>
        if result = "" then done false
        else recordApplied (baselineVersion name) "" fun ok =>
          if !ok then done false else runBaselines applied done (index + 1) rest

/-- `run_sql_file`. -/
def runSqlFile (file : MigrationFile) (done : Bool → Run) : Run :=
  .ask (.sqlFile file) fun result =>
    if result = "" then done false else recordApplied file.version file.checksum done

/-- The first loop of `run_sql_files`; nothing for a file that was changed after it was
applied. -/
def pendingFiles (applied : AppliedMap) : List MigrationFile → Option (List MigrationFile)
  | [] => some []
  | file :: files =>
    match applied.lookup file.version with
    | none => (pendingFiles applied files).map (file :: ·)
    | some stored =>
      if stored = "" ∨ stored = file.checksum then pendingFiles applied files else none

/-- The step function of `run_sql_files`, with the pending files from the index on. -/
def runPending (done : Bool → Run) : List MigrationFile → Run
  | [] => done true
  | file :: rest => runSqlFile file fun ok => if !ok then done false else runPending done rest

/-- `run_sql_files`. -/
def runSqlFiles (applied : AppliedMap) (files : List MigrationFile) (done : Bool → Run) : Run :=
  match pendingFiles applied files with
  | none => done false
  | some [] => done true
  | some pending => runPending done pending

variable (baselines : List String) (given connected : Bool)

/-- `run_all` up to its `done`: the baselines that are registered, whether a database and
a connector are given, whether the database is connected, and the directory. -/
def runAllTo
    (dir : List Entry) (done : Bool → Run) : Run :=
  if !given then done true
  else if !connected then done true
  else
    ensureSchemaMigrations fun ok =>
      if !ok then done false
      else loadApplied fun applied =>
        runBaselines applied
          (fun ok =>
            if !ok then done false else runSqlFiles applied (scanMigrations hashHex dir) done)
          0 baselines

/-- `run_all`, with a `done` that does nothing else. -/
def runAll
    (dir : List Entry) : Run :=
  runAllTo hashHex baselines given connected dir fun ok => .report ok .halt

/-! ### The database -/

/-- What takes effect: the baseline at an index, or the file of a version. -/
inductive Effect
  | baseline (index : ℕ)
  | file (version : String)
  deriving DecidableEq, Repr

/-- The table `schema_migrations`, if it was created, and the migrations that took
effect. -/
structure Database where
  applied : Option (List (String × String)) := none
  effects : List Effect := []
  deriving DecidableEq, Repr

namespace Database

/-- The versions that are recorded. -/
def versions (db : Database) : List String := (db.applied.getD []).map Prod.fst

/-- A query that takes effect. The version is the primary key, so a second record of it
is refused; the order of the selected rows does not matter to a map. -/
def perform : Query → Database → Database × String
  | .ensureSchemaMigrations, db => ({ db with applied := some (db.applied.getD []) }, "ok")
  | .selectApplied, db =>
    match db.applied with
    | none => (db, "")
    | some rows =>
      (db, Sql.rowsToJson ["version", "checksum"] (rows.map fun row => [some row.1, some row.2]))
  | .recordApplied version checksum, db =>
    match db.applied with
    | none => (db, "")
    | some rows =>
      if version ∈ rows.map Prod.fst then (db, "")
      else ({ db with applied := some (rows ++ [(version, checksum)]) }, "ok")
  | .baseline index, db => ({ db with effects := db.effects ++ [.baseline index] }, "ok")
  | .sqlFile file, db => ({ db with effects := db.effects ++ [.file file.version] }, "ok")

/-- The answer to a query, which takes effect if the environment grants it. -/
def answer (grants : ℕ → Query → Bool) (n : ℕ) (q : Query) (db : Database) : Database × String :=
  if grants n q then db.perform q else (db, "")

end Database

/-! ### Starts of the process -/

/-- A start: what the host passes to `run_all`, and which queries are granted. -/
structure Start where
  given : Bool := true
  connected : Bool := true
  dir : List Entry
  grants : ℕ → Query → Bool

/-- The host between two starts: the database, and the directory of the last start. -/
structure Host where
  db : Database := {}
  dir : List Entry := []

section

variable (hashHex : String → String) (baselines : List String)

/-- One start on the database. -/
def Start.outcome (start : Start) (db : Database) : Dialogue.Outcome Database Query String Bool :=
  (runAll hashHex baselines start.given start.connected start.dir).exec
    (Database.answer start.grants) 0 db

/-- The histories of starts with the same baselines. -/
def starts : Transition.System Host Start where
  next := fun start host =>
    some { db := (start.outcome hashHex baselines host.db).world, dir := start.dir }

end

end Congelado.Migration
