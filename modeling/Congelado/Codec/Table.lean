import Congelado.Codec.Header
import Congelado.Lib.Keyed
import Congelado.Lib.Transition

/-!
# The dynamic table

`DynamicTable` keeps header fields, newest first, with a budget of bytes and an index from names,
and from names with values, to generation numbers. Sizes and generations are 64-bit words.

The index hashes the name of a key as it is stored, as a `Token` or as a string, and `search` and
`evict_oldest` look up strings. A key with a `Token` is in the place of another hash then, and is
found only if that place happens to be on the way: `hit` says in which maps, and of which keys,
this is so. What is proved here holds for every `hit`; the probing itself is in `Hashmap.Swiss`,
and `Codec.StaticTable` searches by it.

Here is what the table is about: its size (`Accounted`), which is kept as long as no name is a
`Token`, since the size of a `Token` is not that of the name it stands for. `Codec.Search` is
about the index.
-/

namespace Congelado.Codec

open List Transition

/-! ### The index -/

/-- A key of the index. A key for the name alone ignores the value. -/
inductive HeaderKey
  | nameOnly (name : FieldName)
  | fullMatch (name : FieldName) (value : Text)
  deriving DecidableEq

namespace HeaderKey

def name : HeaderKey → FieldName
  | nameOnly name => name
  | fullMatch name _ => name

/-- The key with its name as a string. -/
def plain : HeaderKey → HeaderKey
  | nameOnly name => nameOnly name.plain
  | fullMatch name value => fullMatch name.plain value

end HeaderKey

/-- The map of the index, to generations or to positions. -/
abbrev Index := Keyed.Table (Prod.fst : HeaderKey × ℕ → HeaderKey)

/-- Which keys of a map the lookups of strings come by. -/
abbrev Layout := Index → HeaderKey → Bool

namespace Index

def upsert (index : Index) (key : HeaderKey) (value : ℕ) : Index := index.put (key, value)

/-- The lookup of a key with a string as its name leads to a key. -/
def Leads (hit : Layout) (index : Index) (query key : HeaderKey) : Prop :=
  key.plain = query ∧ (key = query ∨ hit index key = true)

instance (hit : Layout) (index : Index) (query key : HeaderKey) :
    Decidable (Leads hit index query key) :=
  inferInstanceAs (Decidable (_ ∧ _))

variable (hit : Layout) (index : Index) (query : HeaderKey)

def lookup : Option (HeaderKey × ℕ) :=
  index.rows.find? fun row => Leads hit index query row.1

def find : Option ℕ :=
  (lookup hit index query).map Prod.snd

def erase : Index :=
  match lookup hit index query with
  | none => index
  | some row => Keyed.Table.erase index row.1

end Index

/-! ### Search results -/

/-- A position with two flags, packed in a word. -/
structure SearchResult where
  value : ℕ
  deriving DecidableEq

namespace SearchResult

def npos : ℕ := 2 ^ 64 - 1

def none : SearchResult := ⟨npos⟩

def make (idx : ℕ) (isStatic isFull : Bool) : SearchResult :=
  ⟨(if isStatic then 2 ^ 63 else 0) ||| (if isFull then 2 ^ 62 else 0) ||| (idx &&& (2 ^ 62 - 1))⟩

variable (result : SearchResult)

def found : Bool := result.value ≠ npos

def isFullMatch : Bool := result.value.testBit 62 && result.value ≠ npos

def index : ℕ := result.value &&& (2 ^ 62 - 1)

end SearchResult

inductive IndexCalculation
  | qPack
  | hPack

/-! ### The table -/

structure DynamicTable where
  maxSize : ℕ := 4096
  currentSize : ℕ := 0
  generation : ℕ := 0
  /-- The newest entry first. -/
  deque : List HeaderEntry := []
  map : Index := Keyed.Table.empty

namespace DynamicTable

/-- Subtraction of words. -/
def sub64 (a b : ℕ) : ℕ := (a + (2 ^ 64 - b % 2 ^ 64)) % 2 ^ 64

variable (table : DynamicTable)

/-- The generation of the oldest entry. -/
def oldestGen : ℕ := sub64 table.generation (table.deque.length - 1)

def generationToPosition (gen : ℕ) : ℕ :=
  if gen = 0 ∨ table.generation < gen ∨ table.deque = [] then SearchResult.npos
  else if gen < table.oldestGen then SearchResult.npos
  else table.generation - gen

def atPosition (pos : ℕ) : Option HeaderEntry := table.deque[pos]?

def atGeneration (gen : ℕ) : Option HeaderEntry :=
  let pos := table.generationToPosition gen
  if pos ≠ SearchResult.npos then table.deque[pos]? else none

variable (hit : Layout)

def evictOldest (table : DynamicTable) : DynamicTable :=
  match table.deque.getLast? with
  | none => table
  | some field =>
    let name := field.name.wire
    let map := Index.erase hit table.map (.fullMatch (.text name) field.value)
    let map :=
      if Index.find hit map (.nameOnly (.text name)) = some table.oldestGen then
        Index.erase hit map (.nameOnly (.text name))
      else map
    { table with
      map
      currentSize := sub64 table.currentSize
        (name.length + field.value.length + HeaderEntry.entryOverhead)
      deque := table.deque.dropLast }

/-- The loops that evict while there is something to evict. Each round takes an entry out, so the
number of entries bounds it. -/
def evictWhile (full : DynamicTable → Bool) : ℕ → DynamicTable → DynamicTable
  | 0, table => table
  | fuel + 1, table =>
    if table.deque ≠ [] ∧ full table then evictWhile full fuel (evictOldest hit table) else table

def evictAll (table : DynamicTable) : DynamicTable :=
  { table with map := Keyed.Table.empty, deque := [], currentSize := 0 }

/-- Eviction until there is room for an entry. -/
def makeRoom (size : ℕ) (table : DynamicTable) : DynamicTable :=
  evictWhile hit (fun table => decide (table.maxSize < (table.currentSize + size) % 2 ^ 64))
    table.deque.length table

def setMaxSize (newMax : ℕ) (table : DynamicTable) : DynamicTable :=
  evictWhile hit (fun table => decide (table.maxSize < table.currentSize)) table.deque.length
    { table with maxSize := newMax }

variable (mode : IndexCalculation)

/-- An empty name is refused when the keys are made, after the counters are raised. -/
def insert (field : HeaderEntry) (table : DynamicTable) : Except CodecError ℕ × DynamicTable :=
  if table.maxSize < field.size then (.ok 0, table.evictAll)
  else
    let table := makeRoom hit field.size table
    let table := { table with
      generation := (table.generation + 1) % 2 ^ 64
      currentSize := (table.currentSize + field.size) % 2 ^ 64 }
    if field.name = .text [] then (.error (.runtime "Header name cannot be empty"), table)
    else
      let map := Index.upsert table.map (.fullMatch field.name field.value) table.generation
      let map := Index.upsert map (.nameOnly field.name) table.generation
      let table := { table with map, deque := field :: table.deque }
      match mode with
      | .qPack => (.ok table.generation, table)
      | .hPack => (.ok (table.generationToPosition table.generation), table)

/-- The overload for a string makes the field first, which refuses an empty name. -/
def insertText (name value : Text) (table : DynamicTable) : Except CodecError ℕ × DynamicTable :=
  if name = [] then (.error (.runtime "Empty name"), table)
  else insert hit mode ⟨.text name, value⟩ table

def insertToken (token : Token) (value : Text) (table : DynamicTable) :
    Except CodecError ℕ × DynamicTable :=
  insert hit mode ⟨.token token, value⟩ table

/-- The index that is reported for a generation. -/
def reported (table : DynamicTable) (gen : ℕ) : ℕ :=
  match mode with
  | .qPack => gen
  | .hPack => table.generationToPosition gen

def searchFullMatch (name value : Text) (table : DynamicTable) : SearchResult :=
  match Index.find hit table.map (.fullMatch (.text name) value) with
  | some gen => .make (table.reported mode gen) true true
  | none => .none

def searchNameOnly (name : Text) (table : DynamicTable) : SearchResult :=
  match Index.find hit table.map (.nameOnly (.text name)) with
  | some gen => .make (table.reported mode gen) true false
  | none => .none

def search (name value : Text) (table : DynamicTable) : SearchResult :=
  if (searchFullMatch hit mode name value table).found then
    searchFullMatch hit mode name value table
  else if (searchNameOnly hit mode name table).found then searchNameOnly hit mode name table
  else .none

/-! ### Runs -/

inductive Op
  | insert (mode : IndexCalculation) (field : HeaderEntry)
  | setMaxSize (newMax : ℕ)
  | evictAll

/-- The table as a system whose transitions are the calls. -/
def system : System DynamicTable Op where
  next
    | .insert mode field, table => some (insert hit mode field table).2
    | .setMaxSize newMax, table => some (setMaxSize hit newMax table)
    | .evictAll, table => some table.evictAll

/-! ### What a loop of evictions keeps -/

section Loop

variable {hit} (table : DynamicTable)

@[simp] theorem maxSize_evictOldest :
    (evictOldest hit table).maxSize = table.maxSize := by
  rw [evictOldest]
  split <;> rfl

@[simp] theorem generation_evictOldest :
    (evictOldest hit table).generation = table.generation := by
  rw [evictOldest]
  split <;> rfl

@[simp] theorem deque_evictOldest :
    (evictOldest hit table).deque = table.deque.dropLast := by
  rw [evictOldest]
  split
  · case h_1 h => rw [getLast?_eq_none_iff.1 h, dropLast_nil]
  · rfl

variable {table}

theorem currentSize_evictOldest {front : List HeaderEntry}
    {last : HeaderEntry} (h : table.deque = front ++ [last]) :
    (evictOldest hit table).currentSize = sub64 table.currentSize last.cost := by
  rw [evictOldest, h, getLast?_concat]
  rfl

/-- **Loop rule.** A property of the tables that an eviction keeps, where the loop goes on, holds
after the loop, which has ended then. -/
theorem evictWhile_induction {full : DynamicTable → Bool} {P : DynamicTable → Prop}
    (hstep : ∀ table, table.deque ≠ [] → full table = true → P table → P (evictOldest hit table))
    {fuel : ℕ} (hfuel : table.deque.length ≤ fuel) (h : P table) :
    P (evictWhile hit full fuel table) ∧
      ((evictWhile hit full fuel table).deque = [] ∨
        full (evictWhile hit full fuel table) = false) := by
  induction fuel generalizing table with
  | zero => exact ⟨h, .inl (length_eq_zero_iff.mp (Nat.le_zero.mp hfuel))⟩
  | succ fuel ih =>
    rw [evictWhile]
    split_ifs with hgo
    · refine ih ?_ (hstep table hgo.1 hgo.2 h)
      rw [deque_evictOldest, length_dropLast]
      omega
    · refine ⟨h, ?_⟩
      by_cases hempty : table.deque = []
      · exact .inl hempty
      · right
        simpa using fun hfull => hgo ⟨hempty, hfull⟩

/-- A loop of evictions takes the oldest entries. -/
theorem evictWhile_kept (full : DynamicTable → Bool) (fuel : ℕ) (table : DynamicTable) :
    (evictWhile hit full fuel table).deque <+: table.deque ∧
      (evictWhile hit full fuel table).generation = table.generation := by
  induction fuel generalizing table with
  | zero => exact ⟨prefix_refl _, rfl⟩
  | succ fuel ih =>
    rw [evictWhile]
    split_ifs
    · obtain ⟨hdeque, hgen⟩ := ih (evictOldest hit table)
      rw [deque_evictOldest] at hdeque
      exact ⟨hdeque.trans <| dropLast_prefix _, hgen.trans (generation_evictOldest table)⟩
    · exact ⟨prefix_refl _, rfl⟩

end Loop

/-! ### The size -/

section Size

variable {hit} {table : DynamicTable} {field : HeaderEntry}

/-- The size of the entries. -/
def liveCost (deque : List HeaderEntry) : ℕ := (deque.map HeaderEntry.cost).sum

@[simp] theorem liveCost_nil : liveCost [] = 0 := rfl

@[simp] theorem liveCost_cons (entry : HeaderEntry) (deque : List HeaderEntry) :
    liveCost (entry :: deque) = entry.cost + liveCost deque := sum_cons

theorem liveCost_append (a b : List HeaderEntry) : liveCost (a ++ b) = liveCost a + liveCost b := by
  rw [liveCost, map_append, sum_append]
  rfl

theorem liveCost_concat (front : List HeaderEntry) (last : HeaderEntry) :
    liveCost (front ++ [last]) = liveCost front + last.cost := by
  rw [liveCost_append, liveCost_cons, liveCost_nil, add_zero]

/-- The recorded size is the size of the live entries, and within the budget. -/
structure Accounted (table : DynamicTable) : Prop where
  size : table.currentSize = liveCost table.deque
  le : table.currentSize ≤ table.maxSize

/-- The recorded size is right, and what is live fits in the address space. -/
structure Tallied (table : DynamicTable) : Prop where
  size : table.currentSize = liveCost table.deque
  small : liveCost table.deque < 2 ^ 64

theorem sub64_add_right {a b : ℕ} (h : a + b < 2 ^ 64) : sub64 (a + b) b = a := by
  rw [sub64, Nat.mod_eq_of_lt (show b < 2 ^ 64 by omega)]
  omega

theorem Tallied.evictOldest (h : Tallied table) :
    Tallied (evictOldest hit table) := by
  obtain hempty | ⟨front, last, hdeque⟩ := eq_nil_or_concat' table.deque
  · have hsame : DynamicTable.evictOldest hit table = table := by
      rw [DynamicTable.evictOldest, hempty]
      rfl
    rwa [hsame]
  · have hcost := hdeque ▸ liveCost_concat front last
    have hdrop : (DynamicTable.evictOldest hit table).deque = front := by
      rw [deque_evictOldest, hdeque, dropLast_concat]
    have hsmall := h.small
    constructor
    · rw [currentSize_evictOldest hdeque, hdrop, h.size, hcost, sub64_add_right (by omega)]
    · rw [hdrop]
      omega

/-- A loop of evictions keeps the count right. -/
theorem Tallied.evictWhile (hit : Layout) (h : Tallied table) (full : DynamicTable → Bool) :
    let after := DynamicTable.evictWhile hit full table.deque.length table
    (Tallied after ∧ after.maxSize = table.maxSize ∧ liveCost after.deque ≤ liveCost table.deque) ∧
      (after.deque = [] ∨ full after = false) := by
  refine evictWhile_induction (P := fun t => Tallied t ∧ t.maxSize = table.maxSize ∧
    liveCost t.deque ≤ liveCost table.deque) ?_ le_rfl ⟨h, rfl, le_rfl⟩
  rintro t hne - ⟨ht, hmax, hle⟩
  refine ⟨ht.evictOldest, by rw [maxSize_evictOldest, hmax], ?_⟩
  have hcost := dropLast_append_getLast hne ▸
    liveCost_concat t.deque.dropLast (t.deque.getLast hne)
  rw [deque_evictOldest]
  omega

/-- The loop that makes room ends with room for the entry. -/
theorem Tallied.makeRoom (hit : Layout) (h : Tallied table) {size : ℕ}
    (hsmall : liveCost table.deque + size < 2 ^ 64) (hsize : size ≤ table.maxSize) :
    Tallied (makeRoom hit size table) ∧
      (DynamicTable.makeRoom hit size table).maxSize = table.maxSize ∧
      liveCost (DynamicTable.makeRoom hit size table).deque + size < 2 ^ 64 ∧
      (DynamicTable.makeRoom hit size table).currentSize + size ≤ table.maxSize := by
  have hloop := h.evictWhile hit fun t => decide (t.maxSize < (t.currentSize + size) % 2 ^ 64)
  unfold DynamicTable.makeRoom
  generalize DynamicTable.evictWhile hit _ _ _ = after at hloop ⊢
  obtain ⟨⟨htallied, hmax, hcost⟩, hend⟩ := hloop
  refine ⟨htallied, hmax, by omega, ?_⟩
  have hcurrent := htallied.size
  obtain hempty | hnot := hend
  · rw [hempty, liveCost_nil] at hcurrent
    omega
  · have hle := of_decide_eq_false hnot
    rw [Nat.mod_eq_of_lt (by omega)] at hle
    omega

theorem Tallied.setMaxSize (hit : Layout) (h : Tallied table) (newMax : ℕ) :
    Tallied (setMaxSize hit newMax table) ∧
      (DynamicTable.setMaxSize hit newMax table).maxSize = newMax ∧
      (DynamicTable.setMaxSize hit newMax table).currentSize ≤ newMax := by
  have hsame : Tallied { table with maxSize := newMax } := ⟨h.size, h.small⟩
  have hloop := hsame.evictWhile hit fun t => decide (t.maxSize < t.currentSize)
  unfold DynamicTable.setMaxSize
  generalize DynamicTable.evictWhile hit _ _ _ = after at hloop ⊢
  obtain ⟨⟨htallied, hmax, -⟩, hend⟩ := hloop
  refine ⟨htallied, hmax, ?_⟩
  obtain hempty | hnot := hend
  · rw [htallied.size, hempty, liveCost_nil]
    exact Nat.zero_le _
  · exact (not_lt.1 (of_decide_eq_false hnot)).trans_eq hmax

/-- The table that a field is inserted in. -/
theorem insert_of_le (mode : IndexCalculation)
    (hle : field.size ≤ table.maxSize) (hname : field.name ≠ .text []) :
    (insert hit mode field table).2 =
      { maxSize := (makeRoom hit field.size table).maxSize
        currentSize := ((makeRoom hit field.size table).currentSize + field.size) % 2 ^ 64
        generation := ((makeRoom hit field.size table).generation + 1) % 2 ^ 64
        deque := field :: (makeRoom hit field.size table).deque
        map := Index.upsert
          (Index.upsert (makeRoom hit field.size table).map (.fullMatch field.name field.value)
            (((makeRoom hit field.size table).generation + 1) % 2 ^ 64))
          (.nameOnly field.name) (((makeRoom hit field.size table).generation + 1) % 2 ^ 64) } := by
  rw [insert, if_neg (not_lt.2 hle), if_neg hname]
  cases mode <;> rfl

/-- The position of what was inserted. -/
theorem insert_position (hle : field.size ≤ table.maxSize) (hname : field.name ≠ .text []) :
    (insert hit .hPack field table).1 =
      .ok ((insert hit .hPack field table).2.generationToPosition
        (insert hit .hPack field table).2.generation) := by
  rw [insert, if_neg (not_lt.2 hle), if_neg hname]

/-- The entry is a string's, and what is live, with the entry, fits in the address space. An entry
over the budget may be any: it is not stored. -/
def Storable (field : HeaderEntry) (table : DynamicTable) : Prop :=
  table.maxSize < field.size ∨
    (∃ name, name ≠ [] ∧ field.name = .text name) ∧ liveCost table.deque + field.size < 2 ^ 64

instance (field : HeaderEntry) (table : DynamicTable) : Decidable (Storable field table) :=
  haveI : Decidable (∃ name, name ≠ [] ∧ field.name = .text name) :=
    match h : field.name with
    | .text name => decidable_of_iff (name ≠ []) (by simp)
    | .token _ => isFalse (by simp)
  inferInstanceAs (Decidable (_ ∨ _))

def Counted (table : DynamicTable) : Op → Prop
  | .insert _ field => Storable field table
  | _ => True

end Size

/-! ### Runs of the table -/

section Runs

variable {hit}

theorem Tallied.evictAll (table : DynamicTable) : Tallied table.evictAll :=
  ⟨rfl, Nat.two_pow_pos 64⟩

/-- What each call keeps. -/
theorem step_tallied {table table' : DynamicTable} {op : Op} (hop : Counted table op)
    (h : Tallied table) (hnext : (system hit).next op table = some table') :
    Tallied table' ∧ table'.currentSize ≤ table'.maxSize := by
  cases op with
  | evictAll =>
    cases hnext
    exact ⟨.evictAll table, Nat.zero_le _⟩
  | setMaxSize newMax =>
    cases hnext
    obtain ⟨htallied, hmax, hle⟩ := h.setMaxSize hit newMax
    exact ⟨htallied, hle.trans_eq hmax.symm⟩
  | insert mode field =>
    cases hnext
    obtain hover | ⟨⟨name, hname, hfield⟩, hsmall⟩ := hop
    · rw [insert, if_pos hover]
      exact ⟨.evictAll table, Nat.zero_le _⟩
    · by_cases hover : table.maxSize < field.size
      · rw [insert, if_pos hover]
        exact ⟨.evictAll table, Nat.zero_le _⟩
      · have hle := not_lt.1 hover
        obtain ⟨htallied, hmax, hroom, hfits⟩ := h.makeRoom hit hsmall hle
        have hcost := field.size_eq_cost hfield
        have hcurrent := htallied.size
        rw [insert_of_le mode hle (by simpa [hfield] using hname)]
        refine ⟨⟨?_, ?_⟩, ?_⟩
        · show (_ + _) % 2 ^ 64 = _
          rw [Nat.mod_eq_of_lt (by omega), liveCost_cons]
          omega
        · show liveCost (field :: _) < _
          rw [liveCost_cons]
          omega
        · show (_ + _) % 2 ^ 64 ≤ (makeRoom hit field.size table).maxSize
          rwa [Nat.mod_eq_of_lt (by omega), hmax]

/-- In every run of a new table whose inserts are of strings, the recorded size is that of the live
entries and within the budget. -/
theorem accounted_of_counted (hit : Layout) (budget : ℕ) (table : DynamicTable)
    (hrun : (system hit).Run Counted { maxSize := budget } table) : Accounted table := by
  have hall : Tallied table ∧ table.currentSize ≤ table.maxSize :=
    hrun.invariant (I := fun table => Tallied table ∧ table.currentSize ≤ table.maxSize)
      ⟨⟨rfl, Nat.two_pow_pos 64⟩, Nat.zero_le _⟩
      fun _ _ _ h hop hnext => step_tallied hop h.1 hnext
  exact ⟨hall.1.size, hall.2⟩

/-- Room for one of two entries. -/
theorem accounted_of_counted_two :
    Accounted (insert (fun _ _ => false) .hPack ⟨.text (text "c"), text "d"⟩
      (insert (fun _ _ => false) .hPack ⟨.text (text "a"), text "b"⟩ { maxSize := 40 }).2).2 :=
  accounted_of_counted (fun _ _ => false) 40 _ <|
    ((System.Run.refl).tail (l := .insert .hPack ⟨.text (text "a"), text "b"⟩)
      (.inr ⟨⟨text "a", by decide, rfl⟩, by decide⟩) rfl).tail
      (l := .insert .hPack ⟨.text (text "c"), text "d"⟩)
      (.inr ⟨⟨text "c", by decide, rfl⟩, by decide +kernel⟩) rfl

/-- A cookie whose name is a `Token` takes 39 bytes, and 34 are recorded. -/
theorem token_miscounted :
    ¬∃ hit : Layout, ∀ table, (system hit).Run System.Any {} table →
      Accounted table := by
  rintro ⟨hit, h⟩
  have hrun : (system hit).Run System.Any {}
      (insert hit .hPack ⟨.token .cookie, text "v"⟩ {}).2 :=
    System.Run.refl.tail (l := .insert .hPack ⟨.token .cookie, text "v"⟩) trivial rfl
  have hsize : 34 = 39 := (h _ hrun).size
  exact absurd hsize (by decide)

end Runs

end DynamicTable

end Congelado.Codec
