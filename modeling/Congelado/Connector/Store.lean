import Congelado.Connector.Model

/-!
# The connector as a map

With a cache and a database that are key-value stores, a connector should look like one
map. What it has to keep for that is `Coherent`: every entry of the cache is the value
that the map has for its key. The single writes keep it, since they write the cache
first; the removals keep it, since they drop the entries. `insert_many` does not touch
the cache, so it keeps it only for keys that are not cached (`Uncached`).

`reads_last_written` is the refinement for the runs in which that is so. When the
database refuses a write, the cache has it already, and `failed_write_iff` says when
that makes no difference.
-/

namespace Congelado

open Function Option

open Keyed (Table)

variable {T σ : Type} {m : Model T}

/-- The public operations of the connector on one model type. -/
inductive Access (T : Type)
  | insert (value : T)
  | insertMany (values : List T)
  | update (value : T)
  | upsert (value : T)
  | remove (key : String)
  | removeMany (keys : List String)
  | find (key : String)
  | findMany (keys : List String)
  | findAll

namespace Access

/-- Run an operation to completion; a read reports no outcome, so it counts as a
success. -/
def run (db : Database σ T) : Access T → Connector m σ → Connector m σ × Bool
  | .insert value, c => c.insert db value
  | .insertMany values, c => c.insertMany db values
  | .update value, c => c.update db value
  | .upsert value, c => c.upsert db value
  | .remove key, c => c.remove db key
  | .removeMany keys, c => c.removeMany db keys
  | .find key, c => ((c.find db key).1, true)
  | .findMany keys, c => ((c.findMany db keys).1, true)
  | .findAll, c => ((c.findAll db).1, true)

/-- What an operation does to the map from keys to the values last written. -/
def writes (m : Model T) : Access T → (String → Option T) → String → Option T
  | .insert value, map | .update value, map | .upsert value, map =>
    Function.update map (m.pkString value) (some value)
  | .insertMany values, map =>
    values.foldl (fun map value => Function.update map (m.pkString value) (some value)) map
  | .remove key, map => Function.update map key none
  | .removeMany keys, map => keys.foldl (fun map key => Function.update map key none) map
  | .find _, map | .findMany _, map | .findAll, map => map

/-- The value of a single write. -/
def value : Access T → Option T
  | .insert value | .update value | .upsert value => some value
  | _ => none

/-- The operation writes the key or removes it. -/
def Concerns (m : Model T) (key : String) : Access T → Prop
  | .insert v | .update v | .upsert v => m.pkString v = key
  | .insertMany vs => ∃ v ∈ vs, m.pkString v = key
  | .remove key' => key' = key
  | .removeMany keys => key ∈ keys
  | .find _ | .findMany _ | .findAll => False

/-- What the cache has for a key after an operation, if it was `old` before: the single
writes put their values there, the removals drop them, whether the database takes them or not. -/
def caches {α : Type} (m : Model T) (f : T → α) (key : String) (old : Option α) :
    Access T → Option α
  | .insert v | .update v | .upsert v => if key = m.pkString v then some (f v) else old
  | .remove key' => if key ∈ [key'] then none else old
  | .removeMany keys => if key ∈ keys then none else old
  | .insertMany _ | .find _ | .findMany _ | .findAll => old

theorem map_caches {α : Type} {key : String} (f : T → α) (old : Option T) (op : Access T) :
    (op.caches m id key old).map f = op.caches m f key (old.map f) := by
  cases op <;> simp only [caches] <;> first | rfl | (split_ifs <;> rfl)

/-- Run operations one after the other. -/
def runAll (db : Database σ T) (ops : List (Access T)) (c : Connector m σ) : Connector m σ :=
  ops.foldl (fun c op => (op.run db c).1) c

/-- The map that operations leave. -/
def writesAll (m : Model T) (ops : List (Access T)) (map : String → Option T) : String → Option T :=
  ops.foldl (fun map op => op.writes m map) map

/-- Every operation of a sequence meets a condition in the state it is run in. -/
def Along (db : Database σ T) (ok : Connector m σ → Access T → Prop) :
    List (Access T) → Connector m σ → Prop
  | [], _ => True
  | op :: ops, c => ok c op ∧ Along db ok ops (op.run db c).1

/-- A property that every operation keeps holds after any sequence of them, with what the
operations are counted by. -/
theorem Along.invariant {α : Type} {db : Database σ T} {ok : Connector m σ → Access T → Prop}
    {I : Connector m σ → α → Prop} {f : α → Access T → α}
    (step : ∀ c a op, I c a → ok c op → I (op.run db c).1 (f a op))
    {ops : List (Access T)} {c : Connector m σ} (hops : Along db ok ops c)
    (a : α) (h : I c a) : I (runAll db ops c) (ops.foldl f a) := by
  induction ops generalizing c a with
  | nil => exact h
  | cons op ops ih => exact ih hops.2 _ (step c a op h hops.1)

end Access

/-! ### Coherence of the cache -/

namespace Connector

variable {sql : Statement T} {key : String} {op : Access T}

/-- The store behind the cache. -/
def contents (c : Connector m (Table m.pkString)) : Table m.pkString :=
  c.database.getD c.localStore

/-- The store is the map, and the cache has no value of its own. -/
structure Coherent (c : Connector m (Table m.pkString)) (map : String → Option T) : Prop where
  cached : ∀ key text, c.cache (m.cacheKey key) = some text →
    ∃ v, text = m.write v ∧ map key = some v
  stored : c.contents.find? = map

/-- The operation succeeds, and a batch writes only keys that are not in the cache. -/
def Uncached (c : Connector m (Table m.pkString)) (op : Access T) : Prop :=
  (op.run (keyValue m) c).2 = true ∧
    match op with
    | .insertMany values => ∀ v ∈ values, c.cache (m.cacheKey (m.pkString v)) = none
    | _ => True

/-- Dropped keys have no entry, the entries of the others stay. -/
theorem uncache_cache (c : Connector m σ) (keys : List String) (key : String) :
    (c.uncache keys).cache (m.cacheKey key) =
      if key ∈ keys then none else c.cache (m.cacheKey key) := by
  show keys.foldl (fun cache key => Function.update cache (m.cacheKey key) none) c.cache
    (m.cacheKey key) = _
  generalize c.cache = cache
  induction keys generalizing cache with
  | nil => simp
  | cons k keys ih =>
    rw [List.foldl_cons, ih]
    by_cases hk : key = k
    · simp [hk]
    · simp [hk, update_of_ne (Model.cacheKey_injective.ne hk)]

section Coherent

variable {c : Connector m (Table m.pkString)} {map : String → Option T} {values : List T}

theorem Coherent.find (hm : m.Lawful) (h : c.Coherent map) (key : String) :
    (c.find (keyValue m) key).2 = map key ∧ (c.find (keyValue m) key).1.Coherent map := by
  obtain ⟨hcached, hstored⟩ := h
  have hkey : c.contents.find? key = map key := congrFun hstored key
  unfold Connector.find
  cases hcache : c.cache (m.cacheKey key) with
  | some text =>
    obtain ⟨v, rfl, hv⟩ := hcached key text hcache
    rw [getD_some, hm.read_write]
    exact ⟨hv.symm, hcached, hstored⟩
  | none =>
    rw [getD_none, Model.read_empty]
    cases hdb : c.database with
    | none =>
      rw [contents, hdb, getD_none] at hkey
      exact ⟨hkey, hcached, hstored⟩
    | some t =>
      rw [contents, hdb, getD_some] at hkey hstored
      simp only [keyValue]
      cases hfind : t.find? key with
      | none =>
        rw [map_none, getD_none, Model.read_empty]
        exact ⟨hfind.symm.trans hkey, hcached, hstored⟩
      | some v =>
        rw [map_some, getD_some, hm.read_write]
        -- what the database found is what the map has, so the new entry is coherent
        have hv : map key = some v := hkey.symm.trans hfind
        refine ⟨hv.symm, fun key' text htext => ?_, hstored⟩
        replace htext : Function.update c.cache (m.cacheKey key) (some (m.write v))
          (m.cacheKey key') = some text := htext
        by_cases hk : key' = key
        · rw [hk, update_self] at htext
          exact ⟨v, (Option.some.inj htext).symm, hk ▸ hv⟩
        · rw [update_of_ne (Model.cacheKey_injective.ne hk)] at htext
          exact hcached key' text htext

theorem Coherent.mem_findMany (hm : m.Lawful) (h : c.Coherent map) (keys : List String) (v : T) :
    v ∈ (c.findMany (keyValue m) keys).2 ↔ m.pkString v ∈ keys ∧ map (m.pkString v) = some v := by
  have hmem : v ∈ c.contents.rows ↔ map (m.pkString v) = some v := by
    rw [← h.stored, Table.find?_eq_some_iff, and_iff_left rfl]
  unfold Connector.findMany
  cases hdb : c.database with
  | none =>
    rw [contents, hdb, getD_none] at hmem
    rw [List.mem_filterMap, ← hmem]
    constructor
    · rintro ⟨key, hkey, hfind⟩
      obtain ⟨hv, rfl⟩ := Table.find?_eq_some_iff.1 hfind
      exact ⟨hkey, hv⟩
    · exact fun ⟨hkey, hv⟩ => ⟨m.pkString v, hkey, Table.find?_of_mem hv⟩
  | some t =>
    rw [contents, hdb, getD_some] at hmem
    simp only [keyValue, hm.readMany_writeMany, List.mem_filter, decide_eq_true_eq, hmem]
    exact And.comm

theorem Coherent.mem_findAll (hm : m.Lawful) (h : c.Coherent map) (v : T) :
    v ∈ (c.findAll (keyValue m)).2 ↔ map (m.pkString v) = some v := by
  have hmem : v ∈ c.contents.rows ↔ map (m.pkString v) = some v := by
    rw [← h.stored, Table.find?_eq_some_iff, and_iff_left rfl]
  unfold Connector.findAll
  cases hdb : c.database with
  | none => rwa [contents, hdb, getD_none] at hmem
  | some t =>
    rw [contents, hdb, getD_some] at hmem
    simpa only [keyValue, hm.readMany_writeMany] using hmem

section

variable (h : c.Coherent map)

include h

/-- A read that only the database answers leaves cache and contents alone. -/
theorem Coherent.of_same {c' : Connector m (Table m.pkString)}
    (hcache : c'.cache = c.cache) (hcontents : c'.contents = c.contents) : c'.Coherent map :=
  ⟨fun key text htext => h.cached key text (hcache ▸ htext), hcontents ▸ h.stored⟩

theorem Coherent.findMany (keys : List String) :
    (c.findMany (keyValue m) keys).1.Coherent map := by
  unfold Connector.findMany
  cases hdb : c.database with
  | none => exact h
  | some t => exact h.of_same rfl (by simp [contents, hdb, keyValue])

theorem Coherent.findAll : (c.findAll (keyValue m)).1.Coherent map := by
  unfold Connector.findAll
  cases hdb : c.database with
  | none => exact h
  | some t => exact h.of_same rfl (by simp [contents, hdb, keyValue])

/-- The write of a single value, for each of the three statements it is made with. -/
theorem Coherent.writeThrough (v : T) (hsql : ∀ t, (keyValue m).query sql t = (t.put v, "ok")) :
    (c.writeThrough (keyValue m) v sql).1.Coherent
      (Function.update map (m.pkString v) (some v)) := by
  have hcontents : (c.writeThrough (keyValue m) v sql).1.contents = c.contents.put v := by
    unfold Connector.writeThrough
    cases hdb : c.database with
    | none => simp [contents, hdb]
    | some t => simp [contents, hdb, hsql]
  have hcache : (c.writeThrough (keyValue m) v sql).1.cache =
      Function.update c.cache (m.cacheKey (m.pkString v)) (some (m.write v)) := by
    unfold Connector.writeThrough
    cases c.database <;> rfl
  refine ⟨fun key text htext => ?_, by rw [hcontents, Table.find?_put, h.stored]⟩
  rw [hcache] at htext
  by_cases hk : key = m.pkString v
  · rw [hk, update_self] at htext
    exact ⟨v, (Option.some.inj htext).symm, by rw [hk, update_self]⟩
  · rw [update_of_ne (Model.cacheKey_injective.ne hk)] at htext
    rw [update_of_ne hk]
    exact h.cached key text htext

end

/-- A batch leaves the map alone at the keys it does not write. -/
theorem foldl_update_of_notMem (hkey : ∀ v ∈ values, m.pkString v ≠ key) :
    values.foldl (fun map v => Function.update map (m.pkString v) (some v)) map key = map key := by
  induction values generalizing map with
  | nil => rfl
  | cons v values ih =>
    rw [List.foldl_cons, ih fun u hu => hkey u (List.mem_cons_of_mem v hu),
      update_of_ne (hkey v (.head _)).symm]

theorem Coherent.insertMany (h : c.Coherent map)
    (hnew : ∀ v ∈ values, c.cache (m.cacheKey (m.pkString v)) = none) :
    (c.insertMany (keyValue m) values).1.Coherent
      (values.foldl (fun map v => Function.update map (m.pkString v) (some v)) map) := by
  have hcontents :
      (c.insertMany (keyValue m) values).1.contents = values.foldl Table.put c.contents := by
    unfold Connector.insertMany
    cases hdb : c.database with
    | none => simp [contents, hdb]
    | some t => simp [contents, hdb, keyValue]
  have hcache : (c.insertMany (keyValue m) values).1.cache = c.cache := by
    unfold Connector.insertMany
    cases c.database <;> rfl
  refine ⟨fun key text htext => ?_, by rw [hcontents, Table.find?_foldl_put, h.stored]⟩
  rw [hcache] at htext
  obtain ⟨v, rfl, hv⟩ := h.cached key text htext
  -- a cached key is none of the batch's keys, so the batch does not change its value
  refine ⟨v, rfl, ?_⟩
  rw [foldl_update_of_notMem fun u hu hk => ?_, hv]
  rw [← hk, hnew u hu] at htext
  cases htext

theorem foldl_update_none (keys : List String) (key : String) :
    keys.foldl (fun map k => Function.update map k none) map key =
      if key ∈ keys then none else map key := by
  induction keys generalizing map with
  | nil => simp
  | cons k keys ih =>
    rw [List.foldl_cons, ih]
    by_cases hk : key = k <;> simp [hk]

theorem Coherent.removeStored (h : c.Coherent map) (keys : List String)
    (hsql : ∀ t, (keyValue m).remove sql t = (keys.foldl Table.erase t, "ok")) :
    ((c.uncache keys).removeStored (keyValue m) keys sql).1.Coherent
      (keys.foldl (fun map key => Function.update map key none) map) := by
  have hcontents : ((c.uncache keys).removeStored (keyValue m) keys sql).1.contents =
      keys.foldl Table.erase c.contents := by
    unfold Connector.removeStored
    cases hdb : c.database with
    | none => simp [contents, uncache, hdb]
    | some t => simp [contents, uncache, hdb, hsql]
  have hcache : ((c.uncache keys).removeStored (keyValue m) keys sql).1.cache =
      (c.uncache keys).cache := by
    unfold Connector.removeStored
    cases (c.uncache keys).database <;> rfl
  refine ⟨fun key text htext => ?_, by rw [hcontents, Table.find?_foldl_erase, h.stored]⟩
  rw [hcache, uncache_cache] at htext
  rw [foldl_update_none]
  by_cases hk : key ∈ keys
  · rw [if_pos hk] at htext
    cases htext
  · rw [if_neg hk] at htext ⊢
    exact h.cached key text htext

theorem Coherent.run (hm : m.Lawful) (h : c.Coherent map)
    (hop : Uncached c op) : (op.run (keyValue m) c).1.Coherent (op.writes m map) := by
  cases op with
  | insert v | update v | upsert v => exact h.writeThrough v fun _ => rfl
  | insertMany values => exact h.insertMany hop.2
  | remove key => exact h.removeStored [key] fun _ => rfl
  | removeMany keys => exact h.removeStored keys fun _ => rfl
  | find key => exact (h.find hm key).2
  | findMany keys => exact h.findMany keys
  | findAll => exact h.findAll

end Coherent

/-! ### Two-character rows -/

/-- A row of two characters: its key and its value. -/
def pairs : Model (Char × Char) where
  tableName := "pairs"
  pkString := fun v => String.ofList [v.1]
  write := fun v => String.ofList [v.1, v.2]
  writeMany := fun vs => String.ofList (vs.flatMap fun v => [v.1, v.2])
  decode := fun text =>
    match text.toList with
    | [a, b] => some (a, b)
    | _ => none
  decodeMany := fun text => pairsOf text.toList
where
  /-- Cut a text into rows. -/
  pairsOf : List Char → Option (List (Char × Char))
    | [] => some []
    | [_] => none
    | a :: b :: rest => (pairsOf rest).map ((a, b) :: ·)

theorem pairsOf_flatMap (vs : List (Char × Char)) :
    pairs.pairsOf (vs.flatMap fun v => [v.1, v.2]) = some vs := by
  induction vs with
  | nil => rfl
  | cons v vs ih => simp [pairs.pairsOf, ih]

theorem pairs_lawful : pairs.Lawful where
  decode_write := fun v => by simp [pairs]
  write_ne_empty := fun v h => by simpa [pairs] using congrArg String.toList h
  readMany_writeMany := fun vs => by
    by_cases h : pairs.writeMany vs = ""
    · rw [Model.readMany, if_pos h]
      cases vs with
      | nil => rfl
      | cons v vs => simpa [pairs] using congrArg String.toList h
    · rw [Model.readMany, if_neg h]
      simp [pairs, pairsOf_flatMap]

/-- A connector with an empty cache in front of a store. -/
def fresh (database : Option (Table pairs.pkString)) : Connector pairs (Table pairs.pkString) where
  cache := fun _ => none
  database := database
  localStore := .empty

/-! ### The refinement -/

/-- **The connector is a map.** After any sequence of acknowledged operations on a
connector whose cache was empty, in which `insert_many` writes only keys that are not
cached, the reads return what was last written: the value in the store at the start, if
a key was not written since. -/
theorem reads_last_written (hm : m.Lawful) {c : Connector m (Table m.pkString)}
    (hempty : ∀ key, c.cache key = none) {ops : List (Access T)}
    (hops : Access.Along (keyValue m) Uncached ops c) :
    let last := Access.writesAll m ops c.contents.find?
    let c' := Access.runAll (keyValue m) ops c
    (∀ key, (c'.find (keyValue m) key).2 = last key) ∧
      (∀ keys v, v ∈ (c'.findMany (keyValue m) keys).2 ↔
        m.pkString v ∈ keys ∧ last (m.pkString v) = some v) ∧
      (∀ v, v ∈ (c'.findAll (keyValue m)).2 ↔ last (m.pkString v) = some v) := by
  have hstart : c.Coherent c.contents.find? :=
    ⟨fun key text htext => (by rw [hempty] at htext; cases htext), rfl⟩
  have hc : (Access.runAll (keyValue m) ops c).Coherent _ :=
    hops.invariant (fun _ _ _ h hop => h.run hm hop) _ hstart
  exact ⟨fun key => (hc.find hm key).1, hc.mem_findMany hm, hc.mem_findAll hm⟩

/-- A batch after an insertion, and the removal of the inserted row. -/
theorem reads_last_written_batch :
    let ops : List (Access (Char × Char)) :=
      [.insert ('a', '1'), .insertMany [('b', '2')], .remove "a"]
    let c := Access.runAll (keyValue pairs) ops (fresh (some .empty))
    Access.Along (keyValue pairs) Uncached ops (fresh (some .empty)) ∧
      (c.find (keyValue pairs) "b").2 = some ('b', '2') ∧
        (c.find (keyValue pairs) "a").2 = none := by
  intro ops c
  have hops : Access.Along (keyValue pairs) Uncached ops (fresh (some .empty)) := by
    refine ⟨⟨rfl, trivial⟩, ⟨rfl, fun v hv => ?_⟩, ⟨rfl, trivial⟩, trivial⟩
    obtain rfl := List.mem_singleton.1 hv
    decide +kernel
  have hreads := (reads_last_written pairs_lawful (fun _ => rfl) hops).1
  exact ⟨hops, (hreads "b").trans (by decide +kernel), (hreads "a").trans (by decide +kernel)⟩

/-- A batch that writes a cached key, with the local store and with a database: both
writes are acknowledged, `find` returns the value from before the batch, and `find_many`
and `find_all` return the one of the batch. -/
theorem batch_leaves_stale_entry : [none, some Table.empty].map (fun database =>
        let db := keyValue pairs
        let inserted := (fresh database).insert db ('a', '1')
        let c := inserted.1.insertMany db [('a', '2')]
        (inserted.2, c.2, (c.1.find db "a").2, (c.1.findMany db ["a"]).2, (c.1.findAll db).2)) =
      [(true, true, some ('a', '1'), [('a', '2')], [('a', '2')]),
        (true, true, some ('a', '1'), [('a', '2')], [('a', '2')])] := by
  rfl

/-! ### Refused writes -/

section Refused

variable {db : Database σ T} {c : Connector m σ} {v : T} {old kept : Option T}

/-- What the database has for a key. -/
def stored (db : Database σ T) (key : String) (c : Connector m σ) : Option T :=
  c.database.bind fun s => m.read (db.query (.select key) s).2

/-- The key is not written: a write or removal of it fails, and what the database has for it
stays. -/
def Unwritten (db : Database σ T) (key : String) (c : Connector m σ) (op : Access T) : Prop :=
  (op.Concerns m key → (op.run db c).2 = false) ∧
    (op.run db c).1.stored db key = c.stored db key

/-- The cache has what the operations have left there, or what `find` has put there since. -/
structure Recalls (db : Database σ T) (key : String) (kept : Option T) (c : Connector m σ)
    (old : Option T) : Prop where
  database : c.database ≠ none
  stored : c.stored db key = kept
  cached : ∃ entry, c.cache (m.cacheKey key) = entry.map m.write ∧
    (entry = old ∨ old = none ∧ entry = kept)

theorem writeThrough_cache (v : T) (sql : Statement T) : (c.writeThrough db v sql).1.cache =
      Function.update c.cache (m.cacheKey (m.pkString v)) (some (m.write v)) := by
  unfold writeThrough
  cases c.database <;> rfl

theorem removeStored_cache (keys : List String) (sql : Statement T) :
    (c.removeStored db keys sql).1.cache = c.cache := by
  unfold removeStored
  cases c.database <;> rfl

theorem run_database (op : Access T) (h : c.database ≠ none) : (op.run db c).1.database ≠ none := by
  obtain ⟨s, hs⟩ := ne_none_iff_exists'.1 h
  cases op with
  | insert | update | upsert =>
    simp [Access.run, insert, Connector.update, upsert, writeThrough, hs]
  | insertMany => simp [Access.run, insertMany, hs]
  | remove | removeMany => simp [Access.run, remove, removeMany, removeStored, uncache, hs]
  | find key =>
    change (c.find db key).1.database ≠ none
    unfold Connector.find
    split
    · exact h
    · rw [hs]
      simp only
      split <;> exact some_ne_none _
  | findMany => simp [Access.run, findMany, hs]
  | findAll => simp [Access.run, findAll, hs]

theorem find_cache_of_ne {key key' : String} (h : key' ≠ key) :
    (c.find db key').1.cache (m.cacheKey key) = c.cache (m.cacheKey key) := by
  unfold find
  cases m.read ((c.cache (m.cacheKey key')).getD "") with
  | some v => rfl
  | none =>
    cases c.database with
    | none => rfl
    | some s =>
      simp only
      cases m.read (db.query (.select key') s).2 with
      | none => rfl
      | some v => exact update_of_ne (Model.cacheKey_injective.ne h.symm) _ _

/-- What an operation does to the cache does not depend on the answer of the database. -/
theorem run_cache (h : ∀ key', op ≠ .find key') : (op.run db c).1.cache (m.cacheKey key) =
    op.caches m m.write key (c.cache (m.cacheKey key)) := by
  cases op with
  | insert v | update v | upsert v =>
    refine (congrFun (writeThrough_cache _ _) _).trans ?_
    simp only [Function.update_apply, Model.cacheKey_injective.eq_iff, Access.caches]
  | remove key' => exact (congrFun (removeStored_cache _ _) _).trans (uncache_cache c [key'] key)
  | removeMany keys => exact (congrFun (removeStored_cache _ _) _).trans (uncache_cache c keys key)
  | find key' => exact absurd rfl (h key')
  | insertMany vs =>
    change (c.insertMany db vs).1.cache _ = _
    unfold Connector.insertMany
    cases c.database <;> rfl
  | findMany keys =>
    change (c.findMany db keys).1.cache _ = _
    unfold Connector.findMany
    cases c.database <;> rfl
  | findAll =>
    change (c.findAll db).1.cache _ = _
    unfold Connector.findAll
    cases c.database <;> rfl

/-- `find` returns what the cache has, and what the database has otherwise. -/
theorem Recalls.find (hm : m.Lawful) (h : c.Recalls db key kept old) :
    (c.find db key).2 = old.or kept ∧
      ∃ entry, (c.find db key).1.cache (m.cacheKey key) = entry.map m.write ∧
        (entry = old ∨ old = none ∧ entry = kept) := by
  obtain ⟨s, hs⟩ := ne_none_iff_exists'.1 h.database
  have hanswer : m.read (db.query (.select key) s).2 = kept := by
    have hstored := h.stored
    rwa [Connector.stored, hs] at hstored
  obtain ⟨entry, hcache, hentry⟩ := h.cached
  unfold Connector.find
  cases entry with
  | some v =>
    rw [hcache, map_some, getD_some, hm.read_write]
    refine ⟨?_, some v, hcache, hentry⟩
    obtain rfl | ⟨rfl, rfl⟩ := hentry <;> rfl
  | none =>
    obtain rfl : old = none := hentry.elim Eq.symm And.left
    rw [hcache, map_none, getD_none, Model.read_empty, hs]
    simp only [hanswer]
    cases kept with
    | none => exact ⟨rfl, none, hcache, .inl rfl⟩
    | some v => exact ⟨rfl, some v, update_self .., .inr ⟨⟨⟩, rfl⟩⟩

theorem Recalls.run (hm : m.Lawful) (h : c.Recalls db key kept old)
    (hop : Unwritten db key c op) :
    (op.run db c).1.Recalls db key kept (op.caches m id key old) := by
  refine ⟨run_database op h.database, hop.2.trans h.stored, ?_⟩
  obtain ⟨entry, hcache, hentry⟩ := h.cached
  by_cases hfind : ∃ key', op = .find key'
  · obtain ⟨key', rfl⟩ := hfind
    by_cases hk : key' = key
    · exact hk ▸ (h.find hm).2
    · exact ⟨entry, (find_cache_of_ne hk).trans hcache, hentry⟩
  · refine ⟨op.caches m id key entry, ?_, ?_⟩
    · rw [run_cache fun key' he => hfind ⟨key', he⟩, hcache, Access.map_caches]
    · obtain rfl | ⟨rfl, rfl⟩ := hentry
      · exact .inl rfl
      · -- the key is written or removed, or the entry stays
        cases op <;> simp only [Access.caches] <;> first | tauto | (split_ifs <;> tauto)

/-- Only a database refuses a write. -/
theorem database_of_refused (hv : op.value = some v) (h : (op.run db c).2 = false) :
    c.database ≠ none := by
  intro hnone
  cases op with
  | insert | update | upsert =>
    simp [Access.run, insert, Connector.update, upsert, writeThrough, hnone] at h
  | _ => cases hv

end Refused

/-- The database that answers reads and refuses writes. -/
def refusing : Database (Table pairs.pkString) (Char × Char) where
  query
    | .select key, t => (keyValue pairs).query (.select key) t
    | .selectMany keys, t => (keyValue pairs).query (.selectMany keys) t
    | .selectAll, t => (keyValue pairs).query .selectAll t
    | _, t => (t, "")
  remove := fun _ t => (t, "")

/-- **When a refused write has no effect.** A single write of `v` fails because the database
refuses it. Whatever is done afterwards, as long as every write and removal of the key fails and
the database keeps what it has for it, `find` of the key returns what it would have returned
before the write exactly when that is the value of the last of the refused single writes of the
key, or, if a refused removal of it came after them, what the database has. -/
theorem failed_write_iff (hm : m.Lawful) (db : Database σ T) (c : Connector m σ)
    {op : Access T} {v : T} (hv : op.value = some v) (later : List (Access T))
    (h : Access.Along db (Unwritten db (m.pkString v)) (op :: later) c) :
    ((Access.runAll db (op :: later) c).find db (m.pkString v)).2 =
        (c.find db (m.pkString v)).2 ↔
      (c.find db (m.pkString v)).2 =
        ((op :: later).foldl (Access.caches m id (m.pkString v)) none).or
          (c.stored db (m.pkString v)) := by
  obtain ⟨⟨hfailed, hstored⟩, hlater⟩ := h
  have hconcerns : op.Concerns m (m.pkString v) := by
    cases op <;> first | exact congrArg m.pkString (Option.some.inj hv) | cases hv
  have hstart : (op.run db c).1.Recalls db (m.pkString v) (c.stored db (m.pkString v))
      (op.caches m id (m.pkString v) none) := by
    refine ⟨run_database op (database_of_refused hv (hfailed hconcerns)), hstored, _, ?_, .inl rfl⟩
    rw [run_cache (by rintro key' rfl; cases hv), Access.map_caches]
    -- the write is one of the key, so that it does not matter what the cache had
    cases op <;> first | (cases hv; exact (if_pos rfl).trans (if_pos rfl).symm) | cases hv
  have hend := hlater.invariant (fun _ _ _ h hop => h.run hm hop) _ hstart
  rw [Access.runAll, List.foldl_cons, List.foldl_cons, ← Access.runAll, (hend.find hm).1]
  exact eq_comm

/-- A refused update, a refused write of another key and a refused removal: what is read is what
is stored. -/
theorem failed_write_iff_removed :
    let c := fresh (some (Table.empty.put ('a', '1')))
    let ops : List (Access (Char × Char)) := [.update ('a', '2'), .insert ('b', '3'), .remove "a"]
    ((Access.update ('a', '2')).run refusing c).2 = false ∧
      ((Access.runAll refusing ops c).find refusing "a").2 = (c.find refusing "a").2 := by
  intro c ops
  have hops : Access.Along refusing (Unwritten refusing "a") ops c := by
    refine ⟨⟨fun _ => ?_, ?_⟩, ⟨fun _ => ?_, ?_⟩, ⟨fun _ => ?_, ?_⟩, trivial⟩ <;> decide +kernel
  have hvalue : (Access.update ('a', '2')).value = some ('a', '2') := rfl
  have hiff := failed_write_iff pairs_lawful refusing c hvalue
    [.insert ('b', '3'), .remove "a"] hops
  exact ⟨by decide +kernel, hiff.2 (by decide +kernel)⟩

/-- A refused insertion into an empty store: nothing is stored, and `find` returns the
refused value from then on. -/
theorem refused_insert_is_found :
    let c := fresh (some .empty)
    let refused := (Access.insert ('a', '1')).run refusing c
    refused.2 = false ∧ (c.find refusing "a").2 = none ∧
      (refused.1.find refusing "a").2 = some ('a', '1') ∧ (refused.1.findAll refusing).2 = [] := by
  decide +kernel

end Connector

end Congelado
