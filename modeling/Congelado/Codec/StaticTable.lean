import Congelado.Codec.Hpack
import Congelado.Codec.Search
import Congelado.Hashmap.Swiss

/-!
# The index of a static table

`StaticTable` finds the entries of its table, which is HPACK's or QPACK's, through a `SwissHashMap`.
The map has two keys for each entry, with the name as the entry has it, which is a `Token`. `search`
looks up strings. `HeaderEqual` takes a `Token` and its string for the same, but `HeaderHasher`
starts from the number of the one and from the hash of the other.

So the string is looked up in a group, and under a fingerprint, of its own, and the search is
complete exactly if these happen to lead to every key (`Comes`).
-/

namespace Congelado.Codec

open List SwissHashMap

/-- `HeaderHasher::hash_combine`. -/
def hashCombine (seed value : UInt64) : UInt64 :=
  seed ^^^ (value + 0x9E3779B9 + seed <<< (6 : UInt64) + seed >>> (2 : UInt64))

/-- `HeaderHasher`, over `std::hash` of a string and of the number of a `Token`. -/
def HeaderKey.hash (ofText : Text → UInt64) (ofToken : Token → UInt64) (key : HeaderKey) : ℕ :=
  let seed := match key.name with
    | .token token => ofToken token
    | .text name => ofText name
  match key with
  | nameOnly _ => (hashCombine seed 0).toNat
  | fullMatch _ value => (hashCombine (hashCombine seed (ofText value)) 1).toNat

namespace StaticTable

section Calls

variable (hash : HeaderKey → ℕ)

/-- One entry in the loop of `get_map`. -/
def store (built : SwissHashMap HeaderKey ℕ) (row : HeaderEntry × ℕ) :
    Option (SwissHashMap HeaderKey ℕ) := do
  let built ← built.upsert hash (.fullMatch row.1.name row.1.value) row.2
  built.upsert hash (.nameOnly row.1.name) row.2

def getMap (table : List HeaderEntry) : Option (SwissHashMap HeaderKey ℕ) :=
  table.zipIdx.foldlM (store hash) {}

/-- The first index of HPACK is one. -/
def offset : IndexCalculation → ℕ
  | .hPack => 1
  | .qPack => 0

variable (mode : IndexCalculation) (map : SwissHashMap HeaderKey ℕ) (name value : Text)

/-- What is found for a string. -/
def position (query : HeaderKey) : Option ℕ :=
  (map.find (hash query) (·.plain = query)).map (· + offset mode)

def searchFullMatch : SearchResult :=
  match position hash mode map (.fullMatch (.text name) value) with
  | some position => .make position true true
  | none => .none

def searchNameOnly : SearchResult :=
  match position hash mode map (.nameOnly (.text name)) with
  | some position => .make position true false
  | none => .none

def search : SearchResult :=
  if (searchFullMatch hash mode map name value).found then
    searchFullMatch hash mode map name value
  else if (searchNameOnly hash mode map name).found then searchNameOnly hash mode map name
  else .none

end Calls

variable {hash : HeaderKey → ℕ} {table : List HeaderEntry} {map : SwissHashMap HeaderKey ℕ}

/-- Every entry is found with its value, and its name with any. -/
def Complete (hash : HeaderKey → ℕ) (mode : IndexCalculation) (table : List HeaderEntry)
    (map : SwissHashMap HeaderKey ℕ) : Prop :=
  ∀ entry ∈ table, (search hash mode map entry.name.wire entry.value).isFullMatch = true ∧
    ∀ value, (search hash mode map entry.name.wire value).found = true

/-- A group has the key, its fingerprint is the one of the string, and the probe from the group of
the string gets there: no group before has an `EMPTY` byte. -/
def Comes (hash : HeaderKey → ℕ) (map : SwissHashMap HeaderKey ℕ) (key : HeaderKey) : Prop :=
  ∃ cur < map.groups, ∃ other position,
    .full (h2 (hash other)) other position ∈ map.group cur ∧ other.plain = key.plain ∧
      h2 (hash other) = h2 (hash key.plain) ∧ map.Reaches (hash key.plain) cur

/-- The keys are those of the entries, with their positions. -/
def Indexes (table : List HeaderEntry) (key : HeaderKey) (position : ℕ) : Prop :=
  position < table.length ∧ ∃ entry ∈ table, key.Covers entry

theorem exists_getMap (hash : HeaderKey → ℕ) (table : List HeaderEntry) :
    ∃ map, getMap hash table = some map ∧ Kept hash (Indexes table) map := by
  have hfold : ∀ (rows : List (HeaderEntry × ℕ)) (built : SwissHashMap HeaderKey ℕ),
      (∀ row ∈ rows, row.2 < table.length ∧ row.1 ∈ table) → Kept hash (Indexes table) built →
        ∃ map, rows.foldlM (store hash) built = some map ∧ Kept hash (Indexes table) map := by
    intro rows
    induction rows with
    | nil => exact fun built _ h => ⟨built, rfl, h⟩
    | cons row rows ih =>
      intro built hrows h
      obtain ⟨⟨hlt, hmem⟩, hrest⟩ := forall_mem_cons.1 hrows
      have hfull : Indexes table (.fullMatch row.1.name row.1.value) row.2 :=
        ⟨hlt, row.1, hmem, rfl, rfl⟩
      have hname : Indexes table (.nameOnly row.1.name) row.2 := ⟨hlt, row.1, hmem, rfl⟩
      obtain ⟨first, hfirst, hkept⟩ := h.upsert hfull
      obtain ⟨second, hsecond, hkept'⟩ := hkept.upsert hname
      rw [foldlM_cons, store, hfirst, Option.bind_eq_bind, Option.bind_some, hsecond]
      exact ih second hrest hkept'
  refine hfold _ _ (fun row hrow => ?_) (.empty (dvd_zero 16))
  obtain ⟨hlt, hget⟩ := mem_zipIdx' hrow
  exact ⟨hlt, hget ▸ getElem_mem _⟩

section Searches

variable (mode : IndexCalculation) (h : Kept hash (Indexes table) map)
  (hsize : table.length < 2 ^ 62 - 2)

include h

theorem isSome_position (key : HeaderKey) :
    (position hash mode map key.plain).isSome = true ↔ Comes hash map key := by
  rw [position, Option.isSome_map, (h.find _ _).1, h.locate_isSome_iff]
  simp only [decide_eq_true_eq]
  rfl

include hsize

theorem search_flags (name value : Text) :
    (search hash mode map name value).isFullMatch =
        (position hash mode map (.fullMatch (.text name) value)).isSome ∧
      (search hash mode map name value).found =
        ((position hash mode map (.fullMatch (.text name) value)).isSome ||
          (position hash mode map (.nameOnly (.text name))).isSome) := by
  have hlt : ∀ query, ∀ idx ∈ position hash mode map query, idx < 2 ^ 62 - 1 := by
    intro query idx hidx
    obtain ⟨pos, hpos, rfl⟩ := Option.map_eq_some_iff.1 hidx
    obtain ⟨key, -, hindexes, -⟩ := (h.find _ _).2 pos hpos
    have : offset mode ≤ 1 := by cases mode <;> decide
    omega
  unfold search searchFullMatch searchNameOnly
  cases hfull : position hash mode map (.fullMatch (.text name) value) with
  | some idx =>
    simp [SearchResult.found_make (hlt _ idx hfull), SearchResult.isFullMatch_make
      (hlt _ idx hfull)]
  | none =>
    have hnone : SearchResult.none.found = false := rfl
    cases hname : position hash mode map (.nameOnly (.text name)) with
    | some idx =>
      simp [hnone, SearchResult.found_make (hlt _ idx hname),
        SearchResult.isFullMatch_make (hlt _ idx hname)]
    | none => exact ⟨rfl, rfl⟩

/-- A value that no entry has is found by its name only. -/
theorem complete_iff : Complete hash mode table map ↔
    ∀ entry ∈ table, ∀ key, key.Covers entry → Comes hash map key := by
  refine forall₂_congr fun entry hentry => ?_
  simp only [HeaderKey.covers_iff, forall_eq_or_imp, forall_eq, ← isSome_position mode h,
    (search_flags mode h hsize _ _).1, (search_flags mode h hsize _ _).2, Bool.or_eq_true]
  refine (and_congr_right fun hfull => ⟨fun hname => ?_, fun hname value => .inr hname⟩).trans
    and_comm
  obtain ⟨value, hvalue⟩ := Infinite.exists_notMem_finset (table.map HeaderEntry.value).toFinset
  refine (hname value).resolve_left fun hsome => hvalue ?_
  obtain ⟨idx, hidx⟩ := Option.isSome_iff_exists.1 hsome
  obtain ⟨pos, hpos, -⟩ := Option.map_eq_some_iff.1 hidx
  obtain ⟨key, hequal, -, other, hother, hcovers⟩ := (h.find _ _).2 pos hpos
  have hplain := of_decide_eq_true hequal ▸ hcovers.plain
  exact mem_toFinset.2 (mem_map.2 ⟨other, hother, hplain.2⟩)

end Searches

end StaticTable

open StaticTable

/-- `std::hash` of the number of a `Token`. -/
def numberOf (token : Token) : UInt64 := token.ctorIdx.toUInt64

/-- A hash that gives the names of HPACK's table the numbers of their `Token`s. -/
def agreeing (name : Text) : UInt64 :=
  (staticEntries.find? fun entry => text (tokenToString entry.1) = name).elim 0 fun entry =>
    numberOf entry.1

end Congelado.Codec
