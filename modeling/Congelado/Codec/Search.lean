import Congelado.Codec.Table

/-!
# The index of the dynamic table

`search` goes through the index, not through the entries. Here is when it finds what is there: the
index takes each name, and each name with a value, to the generation of the newest entry that has
it (`Indexed`).

An eviction takes the name and value of the evicted entry out of the index, even if a newer entry
has the same. The key of a name is the one its first entry was stored with and refers to the
storage of that entry, which may go while a newer entry of the name is live. So the entries that an
eviction takes must have names that no newer entry has (`Unshadowed`); `lost_duplicate` is what
happens otherwise.
-/

namespace Congelado.Codec

open List Function Option HeaderKey

/-! ### What a search result holds -/

namespace SearchResult

variable {idx : ℕ}

/-- The flags are above the index, and an index that reaches them is cut off. -/
theorem index_make_mod (idx : ℕ) (isStatic isFull : Bool) :
    (make idx isStatic isFull).index = idx % 2 ^ 62 := by
  have hstatic : (if isStatic then 2 ^ 63 else 0) &&& (2 ^ 62 - 1) = 0 := by
    cases isStatic <;> decide
  have hfull : (if isFull then 2 ^ 62 else 0) &&& (2 ^ 62 - 1) = 0 := by cases isFull <;> decide
  rw [index, make, Nat.and_or_distrib_right, Nat.and_or_distrib_right, hstatic, hfull,
    Nat.zero_or, Nat.zero_or, Nat.and_assoc, Nat.and_self, Nat.and_two_pow_sub_one_eq_mod]

theorem index_make (h : idx < 2 ^ 62) (isStatic isFull : Bool) :
    (make idx isStatic isFull).index = idx := by
  rw [index_make_mod, Nat.mod_eq_of_lt h]

/-- The largest index would not be told from no result. -/
theorem found_make (h : idx < 2 ^ 62 - 1) (isStatic isFull : Bool) :
    (make idx isStatic isFull).found = true := by
  have hindex := index_make (h.trans (by decide)) isStatic isFull
  refine decide_eq_true fun hnpos => ?_
  rw [index, hnpos] at hindex
  exact h.ne (hindex.symm.trans (by decide))

theorem isFullMatch_make (h : idx < 2 ^ 62 - 1) (isStatic isFull : Bool) :
    (make idx isStatic isFull).isFullMatch = isFull := by
  have hfound : decide ((make idx isStatic isFull).value ≠ npos) = true :=
    found_make h isStatic isFull
  have hlow : idx &&& (2 ^ 62 - 1) < 2 ^ 62 := Nat.and_lt_two_pow _ (by decide)
  rw [isFullMatch, hfound, Bool.and_true, make, Nat.testBit_or, Nat.testBit_or,
    Nat.testBit_lt_two_pow hlow, Bool.or_false]
  cases isStatic <;> cases isFull <;> decide

end SearchResult

/-! ### Lookups of strings in an index of strings -/

namespace Index

variable {hit : Layout} {index : Index}

theorem leads_of_lookup {query : HeaderKey} {row : HeaderKey × ℕ}
    (h : lookup hit index query = some row) : row ∈ index.rows ∧ Leads hit index query row.1 := by
  rw [lookup] at h
  exact ⟨mem_of_find?_eq_some h, of_decide_eq_true (find?_some h :)⟩

/-- No key has a `Token`. -/
def Plain (index : Index) : Prop := ∀ row ∈ index.rows, row.1.plain = row.1

section

variable (h : index.Plain)

include h

variable (query : HeaderKey)

/-- The lookup of a string comes to its key alone, wherever the others are. -/
theorem lookup_of_plain :
    lookup hit index query = Keyed.Table.find? index query := by
  refine find?_congr fun row hrow => ?_
  rw [decide_eq_decide]
  constructor
  · intro hleads
    exact (h row hrow).symm.trans hleads.1
  · intro heq
    exact ⟨(h row hrow).trans heq, .inl heq⟩

theorem find_of_plain :
    find hit index query = (Keyed.Table.find? index query).map Prod.snd := by
  rw [find, lookup_of_plain h query]

theorem find?_erase_of_plain :
    (erase hit index query).find? = Function.update (Keyed.Table.find? index) query none := by
  rw [erase, lookup_of_plain h query]
  split
  · case h_1 hnone => rw [update_eq_self_iff.2 hnone.symm]
  · case h_2 row hrow => rw [Keyed.Table.find?_erase, Keyed.Table.key_of_find? hrow]

theorem Plain.erase : (erase hit index query).Plain := by
  rw [Index.erase]
  split
  · exact h
  · exact fun row hrow => h row (mem_of_mem_filter hrow)

end

end Index

/-! ### What the index says -/

namespace HeaderKey

variable {key : HeaderKey} {entry : HeaderEntry} {deque : List HeaderEntry}

/-- The entry has the name, and the value if the key has one. -/
def Covers : HeaderKey → HeaderEntry → Prop
  | nameOnly name, entry => entry.name = name
  | fullMatch name value, entry => entry.name = name ∧ entry.value = value

instance : (key : HeaderKey) → (entry : HeaderEntry) → Decidable (key.Covers entry)
  | nameOnly _, _ => inferInstanceAs (Decidable (_ = _))
  | fullMatch _ _, _ => inferInstanceAs (Decidable (_ ∧ _))

theorem Covers.name_eq (h : key.Covers entry) :
    entry.name = key.name := by
  cases key with
  | nameOnly _ => exact h
  | fullMatch _ _ => exact h.1

theorem Covers.plain (h : key.Covers entry) :
    key.plain.Covers entry.plain := by
  cases key with
  | nameOnly _ => exact congrArg FieldName.plain h
  | fullMatch _ _ => exact ⟨congrArg FieldName.plain h.1, h.2⟩

/-- An entry is stored under two keys. -/
theorem covers_iff :
    key.Covers entry ↔ key = .nameOnly entry.name ∨ key = .fullMatch entry.name entry.value := by
  cases key <;> simp [Covers, eq_comm]

theorem plain_eq_iff : key.plain = key ↔ key.name.plain = key.name := by
  cases key <;> simp [plain, name]

variable (key)

/-- The position of the newest entry that has it. -/
def position (deque : List HeaderEntry) : Option ℕ :=
  deque.findIdx? fun entry => key.Covers entry

theorem position_cons (entry : HeaderEntry) (deque : List HeaderEntry) :
    key.position (entry :: deque) =
      if key.Covers entry then some 0 else (key.position deque).map (· + 1) := by
  simp [position, findIdx?_cons]

/-- An older entry is not seen if a newer one has the same. -/
theorem position_concat (front : List HeaderEntry) (last : HeaderEntry) :
    key.position (front ++ [last]) =
      (key.position front).or (if key.Covers last then some front.length else none) := by
  simp [position, findIdx?_append, findIdx?_cons]

variable {key}

theorem position_eq_none_iff :
    key.position deque = none ↔ ∀ entry ∈ deque, ¬key.Covers entry := by
  simp [position]

theorem exists_of_position {pos : ℕ}
    (h : key.position deque = some pos) : ∃ entry, deque[pos]? = some entry ∧ key.Covers entry := by
  obtain ⟨hlt, hcovers, -⟩ := findIdx?_eq_some_iff_getElem.1 h
  exact ⟨deque[pos], getElem?_eq_getElem hlt, of_decide_eq_true hcovers⟩

end HeaderKey

namespace DynamicTable

variable {hit : Layout} {table : DynamicTable} {last : HeaderEntry} {front : List HeaderEntry}

/-- The index has the generations of the newest entries. -/
structure Indexed (table : DynamicTable) : Prop where
  plain : ∀ entry ∈ table.deque, entry.name.plain = entry.name
  newest : ∀ key : HeaderKey, (table.map.find? key).map Prod.snd =
    (key.position table.deque).map (table.generation - ·)
  live : table.deque.length ≤ table.generation
  bound : table.generation < 2 ^ 62 - 1

theorem Indexed.plain_map (h : Indexed table) : table.map.Plain := by
  intro row hrow
  have hfind := congrArg (Option.map Prod.snd) (Keyed.Table.find?_of_mem hrow)
  rw [h.newest, map_some, map_eq_some_iff] at hfind
  obtain ⟨pos, hpos, -⟩ := hfind
  obtain ⟨entry, hentry, hcovers⟩ := exists_of_position hpos
  rw [plain_eq_iff, ← hcovers.name_eq]
  exact h.plain entry (mem_of_getElem? hentry)

/-- What is looked up is the newest entry's. -/
theorem Indexed.find (h : Indexed table) (key : HeaderKey) :
    Index.find hit table.map key = (key.position table.deque).map (table.generation - ·) := by
  rw [Index.find_of_plain h.plain_map, h.newest]

theorem sub64_eq {a b : ℕ} (hle : b ≤ a) (ha : a < 2 ^ 64) : sub64 a b = a - b := by
  obtain ⟨c, rfl⟩ := Nat.exists_eq_add_of_le' hle
  rw [sub64_add_right ha, Nat.add_sub_cancel]

/-- The index that an eviction leaves. The key of the name is taken out too if the entry is the
newest that has it. -/
theorem Indexed.find?_evictOldest (h : Indexed table) (hdeque : table.deque = front ++ [last])
    (hlast : ∀ entry ∈ front, entry.name ≠ last.name) (key : HeaderKey) :
    (evictOldest hit table).map.find? key =
      if key.Covers last then none else table.map.find? key := by
  have hlen : table.deque.length = front.length + 1 := by rw [hdeque, length_append]; rfl
  have hlive := h.live
  have hbound := h.bound
  have holdest : table.oldestGen = table.generation - front.length := by
    rw [oldestGen, hlen, Nat.add_sub_cancel, sub64_eq (by omega) (by omega)]
  have hname : FieldName.text last.name.wire = last.name := h.plain last (by rw [hdeque]; simp)
  have hfront : (nameOnly last.name).position front = none :=
    position_eq_none_iff.2 hlast
  have hplain : (Index.erase hit table.map (.fullMatch last.name last.value)).Plain :=
    h.plain_map.erase _
  have hfind : Index.find hit
      (Index.erase hit table.map (.fullMatch last.name last.value)) (.nameOnly last.name) =
        some table.oldestGen := by
    rw [Index.find_of_plain hplain, Index.find?_erase_of_plain h.plain_map,
      update_of_ne (by simp), h.newest, hdeque, position_concat, hfront,
      if_pos (show (nameOnly last.name).Covers last from rfl), holdest]
    rfl
  rw [evictOldest, hdeque, getLast?_concat]
  simp only [hname]
  rw [if_pos hfind, Index.find?_erase_of_plain hplain, Index.find?_erase_of_plain h.plain_map,
    update_apply, update_apply, ← ite_or]
  exact if_congr covers_iff.symm rfl rfl

/-- An eviction keeps the index right if no newer entry has the name. -/
theorem Indexed.evictOldest (h : Indexed table)
    (hdeque : table.deque = front ++ [last]) (hlast : ∀ entry ∈ front, entry.name ≠ last.name) :
    Indexed (evictOldest hit table) := by
  have hfront : (DynamicTable.evictOldest hit table).deque = front := by
    rw [deque_evictOldest, hdeque, dropLast_concat]
  have hgen : (DynamicTable.evictOldest hit table).generation = table.generation :=
    generation_evictOldest table
  have hlive := h.live
  rw [hdeque, length_append] at hlive
  refine ⟨fun entry hentry => h.plain entry ?_, fun key => ?_, ?_, hgen ▸ h.bound⟩
  · rw [hdeque]
    exact mem_append_left _ (hfront ▸ hentry)
  · rw [h.find?_evictOldest hdeque hlast, hfront, hgen]
    split_ifs with hcovers
    · -- the two keys of the entry are gone, and no newer entry has them
      have hnone : key.position front = none := by
        refine position_eq_none_iff.2 fun entry hentry hkey => ?_
        exact hlast entry hentry (hkey.name_eq.trans hcovers.name_eq.symm)
      rw [hnone]
      rfl
    · rw [h.newest, hdeque, position_concat, if_neg hcovers, or_none]
  · rw [hfront, hgen]
    omega

/-- An entry that is over the room, with all that is newer, has a name that nothing newer has. -/
def Unshadowed (room : ℕ) (deque : List HeaderEntry) : Prop :=
  ∀ i, (h : i < deque.length) → room < liveCost (deque.take (i + 1)) →
    ∀ entry ∈ deque.take i, entry.name ≠ deque[i].name

instance (room : ℕ) (deque : List HeaderEntry) : Decidable (Unshadowed room deque) :=
  inferInstanceAs (Decidable (∀ i, (h : i < deque.length) → _))

theorem Unshadowed.forall_ne {room : ℕ} {rest : List HeaderEntry}
    (h : Unshadowed room (front ++ last :: rest)) (hroom : room < liveCost (front ++ [last])) :
    ∀ entry ∈ front, entry.name ≠ last.name := by
  have htake : (front ++ last :: rest).take (front.length + 1) = front ++ [last] := by
    simp [take_append]
  have hall := h front.length (by simp) (htake ▸ hroom)
  simpa using hall

/-- Evictions of entries whose names no newer entry has. -/
def Evicts (hit : Layout) : DynamicTable → DynamicTable → Prop :=
  Relation.ReflTransGen fun t t' => ∃ front last, t.deque = front ++ [last] ∧
    (∀ entry ∈ front, entry.name ≠ last.name) ∧ t' = evictOldest hit t

theorem Indexed.evicts {after : DynamicTable} (h : Indexed table)
    (hevicts : Evicts hit table after) :
    Indexed after ∧ after.generation = table.generation := by
  induction hevicts with
  | refl => exact ⟨h, rfl⟩
  | tail _ hstep ih =>
    obtain ⟨front, last, hdeque, hlast, rfl⟩ := hstep
    exact ⟨ih.1.evictOldest hdeque hlast, (generation_evictOldest _).trans ih.2⟩

/-- A loop of evictions takes unshadowed entries only. -/
theorem evictWhile_evicts {full : DynamicTable → Bool} {room : ℕ}
    (hfull : ∀ t : DynamicTable, Tallied t → t.maxSize = table.maxSize →
      liveCost t.deque ≤ liveCost table.deque → full t = true → room < liveCost t.deque)
    (htallied : Tallied table) (hshadow : Unshadowed room table.deque) :
    Evicts hit table (evictWhile hit full table.deque.length table) := by
  let P : DynamicTable → Prop := fun t =>
    Evicts hit table t ∧ Tallied t ∧ t.maxSize = table.maxSize ∧ t.deque <+: table.deque
  have hkeep : ∀ t : DynamicTable, t.deque ≠ [] → full t = true → P t →
      P (DynamicTable.evictOldest hit t) := by
    intro t hne hgo ⟨hevicts, ht, hmax, rest, hrest⟩
    obtain ⟨front, last, hdeque⟩ := eq_nil_or_concat' t.deque |>.resolve_left hne
    have hsplit : table.deque = front ++ last :: rest := by
      rw [← hrest, hdeque, append_assoc]
      rfl
    have hcost : liveCost t.deque ≤ liveCost table.deque := by
      rw [← hrest, liveCost_append]
      exact Nat.le_add_right _ _
    have hroom := hdeque ▸ hfull t ht hmax hcost hgo
    have hfront := Unshadowed.forall_ne (hsplit ▸ hshadow) hroom
    refine ⟨hevicts.tail ⟨front, last, hdeque, hfront, rfl⟩, ht.evictOldest, ?_, last :: rest, ?_⟩
    · rw [maxSize_evictOldest, hmax]
    · rw [deque_evictOldest, hdeque, dropLast_concat, hsplit]
  exact (evictWhile_induction (P := P) hkeep le_rfl
    ⟨.refl, htallied, rfl, prefix_refl _⟩).1.1

theorem makeRoom_evicts (htallied : Tallied table) {size : ℕ} (hle : size ≤ table.maxSize)
    (hsmall : liveCost table.deque + size < 2 ^ 64)
    (hshadow : Unshadowed (table.maxSize - size) table.deque) :
    Evicts hit table (makeRoom hit size table) := by
  refine evictWhile_evicts (fun t ht hmax hcost hgo => ?_) htallied hshadow
  have hover := of_decide_eq_true hgo
  have hcurrent := ht.size
  rw [Nat.mod_eq_of_lt (by omega)] at hover
  omega

theorem setMaxSize_evicts (htallied : Tallied table) {newMax : ℕ}
    (hshadow : Unshadowed newMax table.deque) :
    Evicts hit { table with maxSize := newMax } (setMaxSize hit newMax table) := by
  have hresized : Tallied { table with maxSize := newMax } := ⟨htallied.size, htallied.small⟩
  refine evictWhile_evicts (fun t ht hmax _ hgo => ?_) hresized hshadow
  have hover := of_decide_eq_true hgo
  rwa [hmax, ht.size] at hover

theorem Indexed.setMaxSize (h : Indexed table) (htallied : Tallied table) {newMax : ℕ}
    (hshadow : Unshadowed newMax table.deque) : Indexed (setMaxSize hit newMax table) := by
  have hresized : Indexed { table with maxSize := newMax } := ⟨h.plain, h.newest, h.live, h.bound⟩
  exact (hresized.evicts (setMaxSize_evicts htallied hshadow)).1

/-- The index with the two keys of an entry. -/
theorem find?_upserts (key : HeaderKey) (field : HeaderEntry) (index : Index) (gen : ℕ) :
    (Index.upsert (Index.upsert index (.fullMatch field.name field.value) gen)
      (.nameOnly field.name) gen).find? key =
        if key.Covers field then some (key, gen) else index.find? key := by
  simp only [Index.upsert, Keyed.Table.find?_put, update_apply, covers_iff, ite_or]
  split_ifs with hname hfull
  · rw [hname]
  · rw [hfull]
  · rfl

/-- The new entry is the newest of its name, and of its name with its value. -/
theorem Indexed.push (h : Indexed table) {field : HeaderEntry}
    (hplain : field.name.plain = field.name) (hbound : table.generation + 1 < 2 ^ 62 - 1)
    (currentSize : ℕ) :
    Indexed { table with
      currentSize
      generation := table.generation + 1
      deque := field :: table.deque
      map := Index.upsert
        (Index.upsert table.map (.fullMatch field.name field.value) (table.generation + 1))
        (.nameOnly field.name) (table.generation + 1) } := by
  refine ⟨forall_mem_cons.2 ⟨hplain, h.plain⟩, fun key => ?_, ?_, hbound⟩
  · rw [position_cons, find?_upserts]
    split_ifs with hcovers
    · rfl
    · rw [h.newest, Option.map_map]
      -- the others are one generation and one position older
      exact congrArg (Option.map · _) (funext fun pos => by simp)
  · exact Nat.succ_le_succ h.live

/-! ### Searching -/

/-- The entry that a result stands for. -/
def addressed (mode : IndexCalculation) (table : DynamicTable) (result : SearchResult) :
    Option HeaderEntry :=
  match mode with
  | .qPack => table.atGeneration result.index
  | .hPack => table.atPosition result.index

/-- What a search is for. -/
structure Searched (hit : Layout) (mode : IndexCalculation) (table : DynamicTable)
    (name value : Text) : Prop where
  full : (search hit mode name value table).isFullMatch = true ↔
    ∃ entry ∈ table.deque, entry.name.wire = name ∧ entry.value = value
  found : (search hit mode name value table).found = true ↔
    ∃ entry ∈ table.deque, entry.name.wire = name
  addressed : (search hit mode name value table).found = true →
    ∃ entry, table.addressed mode (search hit mode name value table) = some entry ∧
      entry.name.wire = name ∧
      ((search hit mode name value table).isFullMatch = true → entry.value = value)

section Search

variable {pos : ℕ}

section

variable (hlive : table.deque.length ≤ table.generation) (hword : table.generation < 2 ^ 64)
  (hpos : pos < table.deque.length)

include hlive hword hpos

theorem generationToPosition_sub :
    table.generationToPosition (table.generation - pos) = pos := by
  have holdest : table.oldestGen = table.generation - (table.deque.length - 1) := by
    rw [oldestGen, sub64_eq (by omega) hword]
  have hlive' : ¬(table.generation - pos = 0 ∨ table.generation < table.generation - pos ∨
      table.deque = []) := by
    rintro (hzero | hafter | hempty)
    · omega
    · omega
    · rw [hempty] at hpos
      exact Nat.not_lt_zero _ hpos
  rw [generationToPosition, if_neg hlive', if_neg (by omega)]
  omega

theorem atGeneration_sub : table.atGeneration (table.generation - pos) = table.deque[pos]? := by
  have hnpos : pos ≠ SearchResult.npos := by
    rw [SearchResult.npos]
    omega
  rw [atGeneration, generationToPosition_sub hlive hword hpos, if_pos hnpos]

end

section

variable (h : Indexed table)

include h

theorem Indexed.generationToPosition (hpos : pos < table.deque.length) :
    table.generationToPosition (table.generation - pos) = pos :=
  generationToPosition_sub h.live (h.bound.trans (by decide)) hpos

variable (mode : IndexCalculation)

theorem Indexed.reported_lt (hpos : pos < table.deque.length) :
    table.reported mode (table.generation - pos) < 2 ^ 62 - 1 := by
  have hlive := h.live
  have hbound := h.bound
  cases mode with
  | qPack => exact (Nat.sub_le _ _).trans_lt hbound
  | hPack =>
    rw [reported, h.generationToPosition hpos]
    omega

/-- What is reported for a live entry stands for it. -/
theorem Indexed.addressed_make (hpos : pos < table.deque.length) (isFull : Bool) :
    table.addressed mode (.make (table.reported mode (table.generation - pos)) true isFull) =
      table.deque[pos]? := by
  have hlt := (h.reported_lt mode hpos).trans (show 2 ^ 62 - 1 < 2 ^ 62 by decide)
  cases mode <;> rw [DynamicTable.addressed, SearchResult.index_make hlt, reported]
  case qPack => exact atGeneration_sub h.live (h.bound.trans (by decide)) hpos
  case hPack => exact congrArg (table.deque[·]?) (h.generationToPosition hpos)

/-- What is reported for a key that the index has. -/
theorem Indexed.report {key : HeaderKey}
    (hpos : key.position table.deque = some pos) (isFull : Bool) {result : SearchResult}
    (hresult : result = .make (table.reported mode (table.generation - pos)) true isFull) :
    result.found = true ∧ result.isFullMatch = isFull ∧
      ∃ entry ∈ table.deque, key.Covers entry ∧ table.addressed mode result = some entry := by
  obtain ⟨entry, hentry, hcovers⟩ := exists_of_position hpos
  have hlt := (List.getElem?_eq_some_iff.1 hentry).1
  have hreported := h.reported_lt mode hlt
  rw [hresult]
  refine ⟨SearchResult.found_make hreported _ _, SearchResult.isFullMatch_make hreported _ _,
    entry, mem_of_getElem? hentry, hcovers, ?_⟩
  rw [h.addressed_make mode hlt, hentry]

theorem Indexed.searchFullMatch (name value : Text) :
    searchFullMatch hit mode name value table =
      (((fullMatch (.text name) value).position table.deque).map fun pos =>
        SearchResult.make (table.reported mode (table.generation - pos)) true true).getD .none := by
  rw [DynamicTable.searchFullMatch, h.find]
  cases (fullMatch (.text name) value).position table.deque <;> rfl

theorem Indexed.searchNameOnly (name : Text) :
    searchNameOnly hit mode name table =
      (((nameOnly (.text name)).position table.deque).map fun pos => SearchResult.make
        (table.reported mode (table.generation - pos)) true false).getD .none := by
  rw [DynamicTable.searchNameOnly, h.find]
  cases (nameOnly (.text name)).position table.deque <;> rfl

/-- With the index right, a search is. -/
theorem Indexed.searched (name value : Text) :
    Searched hit mode table name value := by
  have hwire : ∀ entry ∈ table.deque, entry.name.wire = name ↔ entry.name = .text name := by
    intro entry hentry
    rw [← h.plain entry hentry]
    exact FieldName.text.injEq _ _ ▸ Iff.rfl
  obtain ⟨result, hresult⟩ : ∃ result, search hit mode name value table = result := ⟨_, rfl⟩
  have hsearch := hresult
  rw [search, h.searchFullMatch, h.searchNameOnly] at hsearch
  cases hpos : (fullMatch (.text name) value).position table.deque with
  | some pos =>
    rw [hpos] at hsearch
    obtain ⟨hfound, hfull, entry, hmem, hcovers, haddr⟩ := h.report mode hpos true rfl
    rw [map_some, getD_some, if_pos hfound] at hsearch
    have hname := (hwire entry hmem).2 hcovers.1
    constructor <;> rw [hresult, ← hsearch]
    · exact iff_of_true hfull ⟨entry, hmem, hname, hcovers.2⟩
    · exact iff_of_true hfound ⟨entry, hmem, hname⟩
    · exact fun _ => ⟨entry, haddr, hname, fun _ => hcovers.2⟩
  | none =>
    -- no entry has both, so what is found by the name is not a full match
    have hnot : ¬∃ entry ∈ table.deque, entry.name.wire = name ∧ entry.value = value := by
      rintro ⟨entry, hentry, hname, hvalue⟩
      exact position_eq_none_iff.1 hpos entry hentry
        ⟨(hwire entry hentry).1 hname, hvalue⟩
    rw [hpos, map_none, getD_none, if_neg (by decide)] at hsearch
    cases hpos' : (nameOnly (.text name)).position table.deque with
    | some pos =>
      rw [hpos'] at hsearch
      obtain ⟨hfound, hnameOnly, entry, hmem, hcovers, haddr⟩ := h.report mode hpos' false rfl
      rw [map_some, getD_some, if_pos hfound] at hsearch
      have hname := (hwire entry hmem).2 hcovers
      constructor <;> rw [hresult, ← hsearch]
      · exact iff_of_false (by rw [hnameOnly]; decide) hnot
      · exact iff_of_true hfound ⟨entry, hmem, hname⟩
      · exact fun _ =>
          ⟨entry, haddr, hname, fun hfull => absurd (hnameOnly.symm.trans hfull) (by decide)⟩
    | none =>
      have hnone : ¬∃ entry ∈ table.deque, entry.name.wire = name := by
        rintro ⟨entry, hentry, hname⟩
        exact position_eq_none_iff.1 hpos' entry hentry ((hwire entry hentry).1 hname)
      rw [hpos', map_none, getD_none, if_neg (by decide)] at hsearch
      constructor <;> rw [hresult, ← hsearch]
      · exact iff_of_false (by decide) hnot
      · exact iff_of_false (by decide) hnone
      · exact fun hfound => absurd hfound (by decide)

end

end Search

/-! ### Runs with sound searches -/

/-- What is evicted is unshadowed, and the generation is in the range of a search result. -/
def Searchable (table : DynamicTable) : Op → Prop
  | .insert _ field => Storable field table ∧ (field.size ≤ table.maxSize →
      Unshadowed (table.maxSize - field.size) table.deque ∧ table.generation + 1 < 2 ^ 62 - 1)
  | .setMaxSize newMax => Unshadowed newMax table.deque
  | .evictAll => True

instance (table : DynamicTable) : (op : Op) → Decidable (Searchable table op)
  | .insert _ _ => inferInstanceAs (Decidable (_ ∧ _))
  | .setMaxSize _ => inferInstanceAs (Decidable (Unshadowed _ _))
  | .evictAll => isTrue trivial

theorem Searchable.counted {op : Op} (h : Searchable table op) : Counted table op := by
  cases op with
  | insert => exact h.1
  | setMaxSize | evictAll => trivial

theorem Indexed.new (budget : ℕ) : Indexed { maxSize := budget } :=
  ⟨nofun, fun _ => rfl, Nat.zero_le _, show 0 < 2 ^ 62 - 1 by decide⟩

theorem Indexed.evictAll (h : Indexed table) : Indexed table.evictAll where
  plain := nofun
  newest _ := rfl
  live := Nat.zero_le _
  bound := h.bound

theorem step_indexed {table' : DynamicTable} {op : Op} (hop : Searchable table op)
    (htallied : Tallied table) (h : Indexed table)
    (hnext : (system hit).next op table = some table') : Indexed table' := by
  cases op with
  | evictAll =>
    cases hnext
    exact h.evictAll
  | setMaxSize newMax =>
    cases hnext
    exact h.setMaxSize htallied hop
  | insert mode field =>
    cases hnext
    by_cases hover : table.maxSize < field.size
    · rw [insert, if_pos hover]
      exact h.evictAll
    · have hle := not_lt.1 hover
      obtain ⟨⟨name, hname, hfield⟩, hsmall⟩ := hop.1.resolve_left hover
      obtain ⟨hshadow, hbound⟩ := hop.2 hle
      obtain ⟨hindexed, hgen⟩ : Indexed (makeRoom hit field.size table) ∧ _ :=
        h.evicts (makeRoom_evicts htallied hle hsmall hshadow)
      have hplain : field.name.plain = field.name := by rw [hfield, FieldName.plain_text]
      have hword : ((makeRoom hit field.size table).generation + 1) % 2 ^ 64 =
          (makeRoom hit field.size table).generation + 1 := Nat.mod_eq_of_lt (by omega)
      rw [insert_of_le mode hle (by simpa [hfield] using hname), hword]
      exact hindexed.push hplain (by omega) _

/-- In every run of a new table in which what is evicted is unshadowed, searches are right. -/
theorem searched_of_searchable (hit : Layout) (budget : ℕ) (table : DynamicTable)
    (hrun : (system hit).Run Searchable { maxSize := budget } table) (mode : IndexCalculation)
    (name value : Text) : Searched hit mode table name value := by
  have hinv : Tallied table ∧ Indexed table := by
    refine hrun.invariant (I := fun table => Tallied table ∧ Indexed table)
      ⟨⟨rfl, Nat.two_pow_pos 64⟩, .new budget⟩ ?_
    intro table op table' ⟨htallied, hindexed⟩ hop hnext
    exact ⟨(step_tallied hop.counted htallied hnext).1, step_indexed hop htallied hindexed hnext⟩
  exact hinv.2.searched mode name value

/-- A third entry goes into a table with room for two. -/
theorem searched_of_searchable_three :
    Searched (fun _ _ => false) .hPack
      (insert (fun _ _ => false) .hPack ⟨.text (text "c"), text "3"⟩
        (insert (fun _ _ => false) .hPack ⟨.text (text "b"), text "2"⟩
          (insert (fun _ _ => false) .hPack ⟨.text (text "a"), text "1"⟩
            { maxSize := 70 }).2).2).2 (text "b") (text "2") := by
  have hplay : (system fun _ _ => false).playIf Searchable
    [.insert .hPack ⟨.text (text "a"), text "1"⟩, .insert .hPack ⟨.text (text "b"), text "2"⟩,
      .insert .hPack ⟨.text (text "c"), text "3"⟩] { maxSize := 70 } = some _ := rfl
  exact searched_of_searchable _ 70 _ (.of_playIf hplay) .hPack (text "b") (text "2")

/-- Of two equal entries, the older is evicted, and the index has none of the newer any more. -/
theorem lost_duplicate :
    ¬∀ (hit : Layout) (table : DynamicTable),
      (system hit).Run Transition.System.Any { maxSize := 100 } table →
        ∀ mode name value, Searched hit mode table name value := by
  intro h
  let twice : Op := .insert .hPack ⟨.text (text "a"), text "b"⟩
  let other : Op := .insert .hPack ⟨.text (text "c"), text "d"⟩
  have hplay : (system fun _ _ => false).play [twice, twice, other] { maxSize := 100 } = some _ :=
    rfl
  have hsearched := h _ _ (.of_play hplay) .hPack (text "a") (text "b")
  have hfull := hsearched.full.2 ⟨⟨.text (text "a"), text "b"⟩, by decide +kernel, rfl, rfl⟩
  exact absurd hfull (by decide +kernel)

end DynamicTable

end Congelado.Codec
