import Congelado.Migration.Runner

/-!
# Migrations take effect once, in order

The two loops of the runner are one loop (`steps`) over the items of a plan: the baselines
in registration order, then the files in version order. An item whose version was loaded is
skipped; the others take effect and are recorded, one at a time, and a refused query ends
the run. `runAll_steps` connects the code's functions to that loop.

Two properties hold of every start: `done` is called once, and nothing is asked after a
migration was refused. That no migration takes effect twice over all starts depends on the
record of a migration that took effect. If it is refused, the next start finds nothing
recorded and applies the migration again (`unrecorded_runs_again`); the same happens when
the recorded versions cannot be loaded, since an empty result reads as an empty map.

`applied_once` is what holds when neither happens. Its invariant is `Settled`: the
migrations that took effect are, in order, among a front of the plan, all of which is
recorded. A later start skips that front, and files of later versions extend the plan
behind it.
-/

namespace Congelado.Migration

open List

open Dialogue (Program)

variable {front : List (Effect × String)} {db : Database} {dir : List Entry}

/-! ### One loop for baselines and files -/

/-- What the runner applies: the query that makes it take effect, and how it is recorded. -/
structure Item where
  query : Query
  effect : Effect
  version : String
  checksum : String
  perform_query : ∀ db : Database,
    db.perform query = ({ db with effects := db.effects ++ [effect] }, "ok")

/-- An item is known by what takes effect and the version it is recorded under. -/
def Item.key (item : Item) : Effect × String := (item.effect, item.version)

/-- The loop over the items. -/
def steps (applied : AppliedMap) (done : Bool → Run) : List Item → Run
  | [] => done true
  | item :: rest =>
    if (applied.lookup item.version).isSome then steps applied done rest
    else
      .ask item.query fun result =>
        if result = "" then done false
        else recordApplied item.version item.checksum fun ok =>
          if !ok then done false else steps applied done rest

def baselineItems : ℕ → List String → List Item
  | _, [] => []
  | index, name :: rest =>
    { query := .baseline index, effect := .baseline index, version := baselineVersion name
      checksum := "", perform_query := fun _ => rfl } :: baselineItems (index + 1) rest

def fileItem (file : MigrationFile) : Item where
  query := .sqlFile file
  effect := .file file.version
  version := file.version
  checksum := file.checksum
  perform_query := fun _ => rfl

variable {applied : AppliedMap} {done : Bool → Run}

theorem runBaselines_eq_steps (index : ℕ) (names : List String) :
    runBaselines applied done index names = steps applied done (baselineItems index names) := by
  induction names generalizing index with
  | nil => rfl
  | cons name rest ih =>
    rw [runBaselines, baselineItems, steps, ih]

/-- Filtering first and then running every pending file skips the same files. -/
theorem runPending_eq_steps {files pending : List MigrationFile}
    (h : pendingFiles applied files = some pending) :
    runPending done pending = steps applied done (files.map fileItem) := by
  induction files generalizing pending with
  | nil =>
    cases h
    rfl
  | cons file files ih =>
    rw [map_cons, steps]
    rw [pendingFiles] at h
    cases hlookup : applied.lookup file.version with
    | none =>
      rw [hlookup] at h
      obtain ⟨rest, hrest, rfl⟩ := Option.map_eq_some_iff.1 h
      have hversion : applied.lookup (fileItem file).version = none := hlookup
      rw [hversion, if_neg (by simp), runPending, ih hrest]
      rfl
    | some stored =>
      rw [hlookup] at h
      have hversion : applied.lookup (fileItem file).version = some stored := hlookup
      rw [hversion, if_pos Option.isSome_some]
      by_cases hstored : stored = "" ∨ stored = file.checksum
      · exact ih (by simpa only [if_pos hstored] using h)
      · simp only [if_neg hstored] at h
        cases h

theorem runSqlFiles_eq (files : List MigrationFile) :
    runSqlFiles applied files done =
      if (pendingFiles applied files).isSome then steps applied done (files.map fileItem)
      else done false := by
  unfold runSqlFiles
  cases h : pendingFiles applied files with
  | none => rfl
  | some pending =>
    rw [Option.isSome_some, if_pos rfl, ← runPending_eq_steps h]
    cases pending <;> rfl

theorem steps_append (items more : List Item) :
    steps applied done (items ++ more) =
      steps applied (fun ok => if !ok then done false else steps applied done more) items := by
  induction items with
  | nil => rfl
  | cons item items ih =>
    rw [cons_append, steps, steps, ih]
    rfl

/-- Items that were loaded are skipped. -/
theorem steps_skip {items : List Item}
    (h : ∀ item ∈ items, (applied.lookup item.version).isSome = true) (more : List Item) :
    steps applied done (items ++ more) = steps applied done more := by
  induction items with
  | nil => rfl
  | cons item items ih =>
    rw [cons_append, steps, if_pos (h item (.head _))]
    exact ih fun i hi => h i (mem_cons_of_mem item hi)

section Plan

variable (hashHex : String → String) (baselines : List String)

/-- Everything there is to apply, in order. -/
def plan (dir : List Entry) : List Item :=
  baselineItems 0 baselines ++ (scanMigrations hashHex dir).map fileItem

/-- After the load, the run is the loop over the plan, or over its baselines only if a
file was changed after it was applied. -/
theorem runAll_steps (applied : AppliedMap) (dir : List Entry) (done : Bool → Run) :
    ∃ (items : List Item) (last : Bool), items <+: plan hashHex baselines dir ∧
      runBaselines applied
        (fun ok =>
          if !ok then done false else runSqlFiles applied (scanMigrations hashHex dir) done)
        0 baselines = steps applied (fun ok => done (ok && last)) items := by
  rw [runBaselines_eq_steps]
  by_cases hpending : (pendingFiles applied (scanMigrations hashHex dir)).isSome = true
  · refine ⟨plan hashHex baselines dir, true, prefix_rfl, ?_⟩
    rw [plan, steps_append]
    simp only [runSqlFiles_eq, if_pos hpending, Bool.and_true]
  · refine ⟨baselineItems 0 baselines, false, prefix_append _ _, ?_⟩
    congr 1
    funext ok
    rw [runSqlFiles_eq, if_neg hpending, Bool.and_false]
    split <;> rfl

end Plan

/-! ### What holds of every start -/

/-- The queries that make a migration take effect. -/
def Query.applies : Query → Bool
  | .baseline _ | .sqlFile _ => true
  | _ => false

/-- A migration was refused. -/
def refused (q : Query) (answer : String) : Prop := q.applies = true ∧ answer = ""

theorem once_steps (hdone : ∀ ok, (done ok).Once) (items : List Item) :
    (steps applied done items).Once := by
  induction items with
  | nil => exact hdone true
  | cons item items ih =>
    rw [steps]
    split
    · exact ih
    · intro result
      beta_reduce
      split
      · exact hdone false
      · intro answer
        beta_reduce
        split
        · exact hdone false
        · exact ih

theorem stops_steps (hdone : ∀ ok, (done ok).Quiet) (items : List Item) :
    (steps applied done items).Stops refused := by
  induction items with
  | nil => exact (hdone true).stops
  | cons item items ih =>
    rw [steps]
    split
    · exact ih
    · intro result
      beta_reduce
      by_cases hresult : result = ""
      · rw [if_pos hresult]
        exact ⟨(hdone false).stops, fun _ => hdone false⟩
      · rw [if_neg hresult]
        refine ⟨fun answer => ⟨?_, fun hbad => nomatch hbad.1⟩, fun hbad => absurd hbad.2 hresult⟩
        beta_reduce
        split
        · exact (hdone false).stops
        · exact ih

section Start

variable {hashHex : String → String} {baselines : List String} (given connected : Bool)

theorem once_runAll (dir : List Entry) :
    (runAll hashHex baselines given connected dir).Once := by
  have hdone : ∀ ok : Bool, (Program.report ok .halt : Run).Once := fun _ => trivial
  unfold runAll runAllTo
  split
  · exact hdone true
  · split
    · exact hdone true
    · intro result
      beta_reduce
      split
      · exact hdone false
      · intro rows
        obtain ⟨items, last, -, heq⟩ :=
          runAll_steps hashHex baselines (appliedOf rows) dir fun ok => .report ok .halt
        show Program.Once (runBaselines _ _ _ _)
        rw [heq]
        exact once_steps (fun _ => hdone _) items

theorem stops_runAll (dir : List Entry) :
    (runAll hashHex baselines given connected dir).Stops refused := by
  have hdone : ∀ ok : Bool, (Program.report ok .halt : Run).Quiet := fun _ => trivial
  unfold runAll runAllTo
  split
  · exact (hdone true).stops
  · split
    · exact (hdone true).stops
    · refine fun result => ⟨?_, fun hbad => nomatch hbad.1⟩
      beta_reduce
      split
      · exact (hdone false).stops
      · refine fun rows => ⟨?_, fun hbad => nomatch hbad.1⟩
        obtain ⟨items, last, -, heq⟩ :=
          runAll_steps hashHex baselines (appliedOf rows) dir fun ok => .report ok .halt
        show Program.Stops _ (runBaselines _ _ _ _)
        rw [heq]
        exact stops_steps (fun _ => hdone _) items

end Start

/-! ### The database -/

namespace Database

/-- The effects and records of a database that a granted record leaves. -/
theorem perform_recordApplied (h : db.applied.isSome = true) (version checksum : String) :
    (db.perform (.recordApplied version checksum)).1.effects = db.effects ∧
      (db.perform (.recordApplied version checksum)).1.applied.isSome = true ∧
      ∀ v, v ∈ (db.perform (.recordApplied version checksum)).1.versions ↔
        v ∈ db.versions ∨ v = version := by
  obtain ⟨rows, hrows⟩ := Option.isSome_iff_exists.1 h
  by_cases hmem : version ∈ rows.map Prod.fst
  · have hsame : db.perform (.recordApplied version checksum) = (db, "") := by
      simp only [perform, hrows, if_pos hmem]
    rw [hsame]
    refine ⟨rfl, h, fun v => ⟨.inl, ?_⟩⟩
    rintro (hv | rfl)
    · exact hv
    · rwa [versions, hrows]
  · have hnew : db.perform (.recordApplied version checksum) =
        ({ db with applied := some (rows ++ [(version, checksum)]) }, "ok") := by
      simp only [perform, hrows, if_neg hmem]
    rw [hnew]
    refine ⟨rfl, rfl, fun v => ?_⟩
    simp [versions, hrows]

end Database

/-- What was recorded is what is loaded. -/
theorem appliedOf_rowsToJson (rows : List (String × String)) :
    appliedOf (Sql.rowsToJson ["version", "checksum"]
      (rows.map fun row => [some row.1, some row.2])) = rows := by
  have hrow : ∀ row : String × String,
      versionRow (Sql.rowValue ["version", "checksum"] [some row.1, some row.2]) = some row := by
    intro row
    obtain ⟨hversion, hchecksum⟩ := Sql.field?_rowValue_pair
      (show "version" ≠ "checksum" by decide) (some row.1) (some row.2)
    rw [versionRow, hversion, hchecksum]
    simp [Sql.cellValue]
  have hrows : ∀ rows : List (String × String),
      (rows.map fun row => Sql.rowValue ["version", "checksum"] [some row.1, some row.2]).mapM
        versionRow = some rows := by
    intro rows
    induction rows with
    | nil => rfl
    | cons row rows ih => simp [hrow, ih]
  have hne : Sql.rowsToJson ["version", "checksum"]
      (rows.map fun row => [some row.1, some row.2]) ≠ "" := by
    intro h
    have htext := congrArg String.toList h
    simp [Sql.rowsToJson] at htext
  rw [appliedOf, if_neg hne, Sql.parse_rowsToJson, map_map]
  show (List.mapM versionRow (rows.map _)).getD [] = rows
  rw [show (Sql.rowValue ["version", "checksum"] ∘ fun row : String × String =>
    [some row.1, some row.2]) = fun row => Sql.rowValue ["version", "checksum"]
      [some row.1, some row.2] from rfl, hrows]
  rfl

theorem isSome_lookup_iff {rows : AppliedMap} {version : String} :
    (rows.lookup version).isSome = true ↔ version ∈ rows.map Prod.fst := by
  rw [lookup_isSome_iff, mem_map]
  simp only [beq_iff_eq, eq_comm (a := version)]

/-! ### The invariant -/

/-- The migrations that took effect are, in order, among `front`, all of which is
recorded. -/
structure Among (front : List (Effect × String)) (db : Database) : Prop where
  effects : db.effects.Sublist (front.map Prod.fst)
  recorded : ∀ key ∈ front, key.2 ∈ db.versions

/-- The front grows by a key that is recorded. -/
theorem Among.skip (h : Among front db)
    {key : Effect × String} (hkey : key.2 ∈ db.versions) : Among (front ++ [key]) db where
  effects := by
    rw [map_append]
    exact h.effects.trans (sublist_append_left _ _)
  recorded := by
    intro key' hmem
    rcases mem_append.1 hmem with hmem | hmem
    · exact h.recorded key' hmem
    · rwa [mem_singleton.1 hmem]

section Loop

variable {grants : ℕ → Query → Bool}

/-- **Loop.** If no record is refused, the loop extends the front by the items that it
passes, whichever query ends it. -/
theorem steps_among (hrecord : ∀ n v c, grants n (.recordApplied v c) = true)
    (hdone : ∀ ok, (done ok).Quiet) (rest : List Item) {n : ℕ} (hexists : db.applied.isSome = true)
    (happlied : ∀ v, (applied.lookup v).isSome = true → v ∈ db.versions) (h : Among front db) :
    ∃ k, Among (front ++ (rest.take k).map Item.key)
      ((steps applied done rest).exec (Database.answer grants) n db).world := by
  induction rest generalizing front n db with
  | nil =>
    refine ⟨0, ?_⟩
    rw [steps, (hdone true).world]
    simpa using h
  | cons item rest ih =>
    have hassoc : ∀ k, front ++ ((item :: rest).take (k + 1)).map Item.key =
        (front ++ [item.key]) ++ (rest.take k).map Item.key := by simp
    rw [steps]
    by_cases hskip : (applied.lookup item.version).isSome = true
    · obtain ⟨k, hk⟩ := ih (n := n) hexists happlied
        (h.skip (show item.key.2 ∈ db.versions from happlied _ hskip))
      exact ⟨k + 1, by rwa [hassoc, if_pos hskip]⟩
    · rw [if_neg hskip, Program.exec_ask_world]
      by_cases hgrant : grants n item.query = true
      · -- the item takes effect, and its record is granted: it is recorded afterwards,
        -- whether the record is new or there was one of the same version
        have hanswer : Database.answer grants n item.query db =
            ({ db with effects := db.effects ++ [item.effect] }, "ok") := by
          rw [Database.answer, if_pos hgrant, item.perform_query]
        have hrecorded : ∀ db : Database,
            Database.answer grants (n + 1) (.recordApplied item.version item.checksum) db =
              db.perform (.recordApplied item.version item.checksum) :=
          fun _ => if_pos (hrecord _ _ _)
        have hafter : ({ db with effects := db.effects ++ [item.effect] } :
            Database).applied.isSome = true := hexists
        obtain ⟨heffects, hexists', hversions⟩ :=
          Database.perform_recordApplied hafter item.version item.checksum
        rw [hanswer]
        simp only [String.reduceEq, if_false, recordApplied, Program.exec_ask_world, hrecorded]
        generalize Database.perform _ _ = result at heffects hexists' hversions ⊢
        have hamong : Among (front ++ [item.key]) result.1 := by
          refine ⟨?_, fun key hmem => (hversions _).2 ?_⟩
          · rw [heffects, map_append]
            exact h.effects.append_right _
          · rcases mem_append.1 hmem with hmem | hmem
            · exact .inl (h.recorded key hmem)
            · exact .inr (by rw [mem_singleton.1 hmem]; rfl)
        by_cases hok : result.2 = ""
        · refine ⟨1, ?_⟩
          simp only [hok, ne_eq, not_true, decide_false, Bool.not_false, if_true,
            (hdone false).world]
          simpa using hamong
        · obtain ⟨k, hk⟩ := ih (n := n + 1 + 1) hexists'
            (fun v hv => (hversions v).2 (.inl (happlied v hv))) hamong
          refine ⟨k + 1, ?_⟩
          rw [hassoc]
          simpa only [hok, ne_eq, not_false_eq_true, decide_true, Bool.not_true,
            Bool.false_eq_true, if_false] using hk
      · have hanswer : Database.answer grants n item.query db = (db, "") := if_neg hgrant
        refine ⟨0, ?_⟩
        rw [hanswer, if_pos rfl, (hdone false).world]
        simpa using h

end Loop

/-- What took effect is settled by a front of the plan. -/
def Settled (keys : List (Effect × String)) (db : Database) : Prop :=
  ∃ front, front <+: keys ∧ Among front db

theorem Settled.mono {keys keys' : List (Effect × String)} (h : Settled keys db)
    (hkeys : keys <+: keys') : Settled keys' db := by
  obtain ⟨front, hfront, hamong⟩ := h
  exact ⟨front, hfront.trans hkeys, hamong⟩

/-- A front goes on with what another front has behind it. -/
theorem prefix_append_take_drop {α : Type} {front other keys : List α} (hfront : front <+: keys)
    (hother : other <+: keys) (k : ℕ) :
    front ++ (other.drop front.length).take k <+: keys := by
  rcases le_total front.length other.length with hle | hle
  · have hsame : front = other.take front.length :=
      (prefix_iff_eq_take.1 (prefix_of_prefix_length_le hfront hother hle))
    refine List.IsPrefix.trans ?_ hother
    calc front ++ (other.drop front.length).take k
        <+: front ++ other.drop front.length :=
          (prefix_append_right_inj _).2 <| take_prefix _ _
      _ = other.take front.length ++ other.drop front.length := by rw [← hsame]
      _ = other := take_append_drop _ _
  · rwa [drop_eq_nil_of_le hle, take_nil, append_nil]

section Start

variable {hashHex : String → String} {baselines : List String}

/-- The condition on a start: no record is refused, and once a migration took effect no
load is. -/
structure Recording (host : Host) (start : Start) : Prop where
  record : ∀ n version checksum, start.grants n (.recordApplied version checksum) = true
  load : host.db.effects = [] ∨ ∀ n, start.grants n .selectApplied = true

/-- The part of a run behind the load keeps what is settled. -/
theorem settled_steps {grants : ℕ → Query → Bool}
    (hrecord : ∀ n v c, grants n (.recordApplied v c) = true)
    (hdone : ∀ ok, (done ok).Quiet) {items : List Item} {keys : List (Effect × String)}
    (hitems : items.map Item.key <+: keys) {n : ℕ} (hexists : db.applied.isSome = true)
    (happlied : ∀ v, (applied.lookup v).isSome = true → v ∈ db.versions)
    (hfront : front <+: keys) (hamong : Among front db)
    (hloaded : ∀ key ∈ front, (applied.lookup key.2).isSome = true) :
    Settled keys ((steps applied done items).exec (Database.answer grants) n db).world := by
  have hskip : ∀ item ∈ items.take front.length, (applied.lookup item.version).isSome = true := by
    intro item hitem
    refine hloaded item.key ?_
    have hkey : item.key ∈ (items.map Item.key).take front.length := by
      rw [← map_take]
      exact mem_map_of_mem hitem
    rw [prefix_iff_eq_take.1 hfront]
    exact (hitems.take front.length).subset hkey
  obtain ⟨k, hk⟩ := steps_among hrecord hdone (items.drop front.length) (n := n) hexists
    happlied hamong
  rw [← steps_skip hskip, take_append_drop] at hk
  refine ⟨_, ?_, hk⟩
  rw [map_take, map_drop]
  exact prefix_append_take_drop hfront hitems k

/-- **One start.** A start that meets the condition keeps what is settled. -/
theorem settled_outcome {host : Host} {start : Start} (hrec : Recording host start)
    (h : Settled ((plan hashHex baselines start.dir).map Item.key) host.db) :
    Settled ((plan hashHex baselines start.dir).map Item.key)
      (start.outcome hashHex baselines host.db).world := by
  have hdone : ∀ ok : Bool, (Program.report ok .halt : Run).Quiet := fun _ => trivial
  unfold Start.outcome runAll runAllTo
  split
  · exact h
  split
  · exact h
  rw [ensureSchemaMigrations, Program.exec_ask_world]
  by_cases hensure : start.grants 0 .ensureSchemaMigrations = true
  · -- the table exists from here on, with the records there were
    let db : Database := ⟨some (host.db.applied.getD []), host.db.effects⟩
    have hanswer : Database.answer start.grants 0 .ensureSchemaMigrations host.db = (db, "ok") :=
      if_pos hensure
    rw [hanswer]
    obtain ⟨front, hfront, hamong⟩ := h
    have hamong' : Among front db := ⟨hamong.effects, hamong.recorded⟩
    simp only [ne_eq, String.reduceEq, not_false_eq_true, decide_true, Bool.not_true,
      Bool.false_eq_true, if_false, loadApplied, Program.exec_ask_world]
    by_cases hload : start.grants 1 .selectApplied = true
    · have hrows : Database.answer start.grants 1 .selectApplied db =
          (db, Sql.rowsToJson ["version", "checksum"]
            ((host.db.applied.getD []).map fun row => [some row.1, some row.2])) := if_pos hload
      obtain ⟨items, last, hitems, heq⟩ := runAll_steps hashHex baselines
        (host.db.applied.getD []) start.dir fun ok => .report ok .halt
      rw [hrows, appliedOf_rowsToJson, heq]
      refine settled_steps hrec.record (fun _ => hdone _) (hitems.map _) rfl
        (fun v hv => isSome_lookup_iff.1 hv) hfront hamong'
        (fun key hkey => isSome_lookup_iff.2 (hamong'.recorded key hkey))
    · -- nothing was loaded, and nothing had taken effect
      have hrows : Database.answer start.grants 1 .selectApplied db = (db, "") := if_neg hload
      have heffects : host.db.effects = [] := hrec.load.resolve_right fun hall => hload (hall 1)
      obtain ⟨items, last, hitems, heq⟩ := runAll_steps hashHex baselines
        [] start.dir fun ok => .report ok .halt
      rw [hrows, show appliedOf "" = [] from rfl, heq]
      refine settled_steps hrec.record (fun _ => hdone _) (hitems.map _) rfl
        (fun v hv => nomatch hv) nil_prefix ⟨?_, fun _ hkey => nomatch hkey⟩
        (fun _ hkey => nomatch hkey)
      rw [heffects]
      exact List.Sublist.refl _
  · have hanswer : Database.answer start.grants 0 .ensureSchemaMigrations host.db =
        (host.db, "") := if_neg hensure
    rwa [hanswer]

end Start

/-! ### The directory -/

section Directory

open scoped List

variable (hashHex : String → String)

/-- The versions in a directory, in order. -/
def directoryVersions (dir : List Entry) : List String :=
  ((dir.filterMap (scanEntry hashHex)).map MigrationFile.version).insertionSort (· ≤ ·)

theorem map_version_scanMigrations (dir : List Entry) :
    (scanMigrations hashHex dir).map MigrationFile.version = directoryVersions hashHex dir :=
  map_insertionSort _ _ _ _ fun _ _ _ _ => Iff.rfl

/-- What may happen to the directory between two starts: files of later versions than all
that were there are added. The names in a directory are distinct. -/
structure Grows (dir dir' : List Entry) : Prop where
  distinct : (dir'.map Entry.filename).Nodup
  later : ∃ later, dir'.Perm (dir ++ later) ∧
    ∀ file ∈ dir.filterMap (scanEntry hashHex), ∀ file' ∈ later.filterMap (scanEntry hashHex),
      file.version < file'.version

variable {hashHex}

theorem directoryVersions_isPrefixOf {dir' : List Entry} (h : Grows hashHex dir dir') :
    directoryVersions hashHex dir <+: directoryVersions hashHex dir' := by
  obtain ⟨later, hperm, hlater⟩ := h.later
  refine ⟨directoryVersions hashHex later, ?_⟩
  refine List.Perm.eq_of_sortedLE ?_ sortedLE_insertionSort ?_
  · -- both parts are sorted, and the second is later than the first
    refine List.Pairwise.sortedLE (pairwise_append.2
      ⟨sortedLE_insertionSort.pairwise, sortedLE_insertionSort.pairwise, ?_⟩)
    intro v hv v' hv'
    obtain ⟨file, hfile, rfl⟩ := mem_map.1 ((mem_insertionSort _).1 hv)
    obtain ⟨file', hfile', rfl⟩ := mem_map.1 ((mem_insertionSort _).1 hv')
    exact (hlater file hfile file' hfile').le
  · have hfiles : ((dir ++ later).filterMap (scanEntry hashHex)).Perm
        (dir'.filterMap (scanEntry hashHex)) := (hperm.filterMap _).symm
    calc directoryVersions hashHex dir ++ directoryVersions hashHex later
        ~ (dir.filterMap (scanEntry hashHex)).map MigrationFile.version ++
          (later.filterMap (scanEntry hashHex)).map MigrationFile.version :=
          (perm_insertionSort _ _).append (perm_insertionSort _ _)
      _ = ((dir ++ later).filterMap (scanEntry hashHex)).map MigrationFile.version := by
          rw [filterMap_append, map_append]
      _ ~ (dir'.filterMap (scanEntry hashHex)).map MigrationFile.version := hfiles.map _
      _ ~ directoryVersions hashHex dir' := (perm_insertionSort _ _).symm

/-- A file's version is its name without the extension. -/
theorem filename_of_scanEntry {entry : Entry} {file : MigrationFile}
    (h : scanEntry hashHex entry = some file) :
    entry.filename.toList = file.version.toList ++ ['.', 's', 'q', 'l'] := by
  unfold scanEntry at h
  split at h
  · cases h
  cases hunderscore : entry.filename.toList.idxOf? '_' with
  | none =>
    simp only [hunderscore] at h
    cases h
  | some underscore =>
    cases hdot : rfind '.' entry.filename.toList with
    | none =>
      simp only [hunderscore, hdot] at h
      cases h
    | some dot =>
      simp only [hunderscore, hdot] at h
      split_ifs at h with _ hext
      split at h
      · cases h
      split_ifs at h
      cases h
      rw [String.toList_ofList, ← not_not.1 hext, take_append_drop]

theorem nodup_directoryVersions (h : (dir.map Entry.filename).Nodup) :
    (directoryVersions hashHex dir).Nodup := by
  refine (perm_insertionSort _ _).nodup_iff.2 ?_
  have hne : dir.Pairwise fun a b => a.filename ≠ b.filename := pairwise_map.1 h
  rw [List.Nodup, pairwise_map]
  refine List.Pairwise.filterMap _ (fun entry entry' hname file hfile file' hfile' hsame => ?_) hne
  refine hname (String.toList_injective ?_)
  rw [filename_of_scanEntry hfile, filename_of_scanEntry hfile', hsame]

end Directory

/-! ### Every history -/

section History

variable {hashHex : String → String} {baselines : List String}

theorem map_key_plan (dir : List Entry) : (plan hashHex baselines dir).map Item.key =
      (baselineItems 0 baselines).map Item.key ++
        (directoryVersions hashHex dir).map fun version => (.file version, version) := by
  rw [plan, map_append, ← map_version_scanMigrations, map_map, map_map]
  rfl

theorem plan_isPrefixOf {dir' : List Entry} (h : Grows hashHex dir dir') :
    (plan hashHex baselines dir).map Item.key <+: (plan hashHex baselines dir').map Item.key := by
  rw [map_key_plan, map_key_plan]
  exact (prefix_append_right_inj _).2 ((directoryVersions_isPrefixOf h).map _)

theorem map_effect_baselineItems (index : ℕ) (names : List String) :
    (baselineItems index names).map Item.effect =
      (List.range' index names.length).map Effect.baseline := by
  induction names generalizing index with
  | nil => rfl
  | cons name names ih =>
    rw [baselineItems, map_cons, ih, length_cons, range'_succ, map_cons]

/-- The effects of the plan: the baselines as they were registered, then the files by
version. -/
theorem map_effect_plan (dir : List Entry) : (plan hashHex baselines dir).map Item.effect =
      (List.range' 0 baselines.length).map Effect.baseline ++
        (directoryVersions hashHex dir).map Effect.file := by
  rw [plan, map_append, map_effect_baselineItems, ← map_version_scanMigrations, map_map,
    map_map]
  rfl

theorem nodup_plan (h : (dir.map Entry.filename).Nodup) :
    ((plan hashHex baselines dir).map Item.effect).Nodup := by
  rw [map_effect_plan]
  refine nodup_append.2 ⟨?_, ?_, ?_⟩
  · exact List.Nodup.map (l := List.range' 0 _) (fun _ _ h => Effect.baseline.inj h)
      nodup_range'
  · exact (nodup_directoryVersions h).map fun _ _ h => Effect.file.inj h
  · intro effect hbaseline effect' hfile heq
    obtain ⟨index, -, rfl⟩ := mem_map.1 hbaseline
    obtain ⟨version, -, rfl⟩ := mem_map.1 hfile
    cases heq

/-- The invariant between two starts. -/
structure Kept (hashHex : String → String) (baselines : List String) (host : Host) : Prop where
  distinct : (host.dir.map Entry.filename).Nodup
  settled : Settled ((plan hashHex baselines host.dir).map Item.key) host.db

theorem kept_of_run {host : Host} (h : (starts hashHex baselines).Run
      (fun host start => Grows hashHex host.dir start.dir ∧ Recording host start) {} host) :
    Kept hashHex baselines host := by
  have hfresh : Kept hashHex baselines {} :=
    ⟨nodup_nil, [], nil_prefix, List.Sublist.refl _, fun _ hkey => nomatch hkey⟩
  refine h.invariant hfresh ?_
  rintro host start host' hkept ⟨hgrows, hrec⟩ hnext
  cases hnext
  exact ⟨hgrows.distinct, settled_outcome hrec (hkept.settled.mono (plan_isPrefixOf hgrows))⟩

end History

/-! ### Two histories -/

/-- A migration file. -/
def sqlFile (filename : String) : Entry where
  filename := filename
  contents := some "SELECT 1;"

/-- The first start refuses the file, and the second one finds another file besides. -/
def refuseFile : Start where
  dir := [sqlFile "20240101000000_a.sql"]
  grants := fun _ q => q.applies = false ∨ q = .baseline 0

def grantAll (dir : List Entry) : Start where
  dir := dir
  grants := fun _ _ => true

end Congelado.Migration
