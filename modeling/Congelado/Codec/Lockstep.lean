import Congelado.Codec.Search
import Congelado.Codec.Wire

/-!
# The tables of the two sides

The encoder stores a field in its table when it writes it, and the decoder when it reads it. Here
is that the two tables stay the same, block after block (`lockstep_of_framed`): what the encoder
does for a representation is what the decoder does (`Lockstep.step`), whatever a search has found.

The lengths of strings are written modulo `2 ^ 32`. A longer string is read as a shorter one with
more fields behind it (`long_value_desynchronizes`).
-/

namespace Congelado.Codec

open HpackEncoder List Transition Fallible

variable {hit : Layout} {name : FieldName} {position : ℕ} {table : HPackTable} {value : Text}
    {full : DynamicTable → Bool} {rep : Representation}

/-! ### Blocks -/

/-- What is sent at a time: size updates, which come first, and a list of headers. -/
structure Block where
  updates : List UInt32 := []
  useAutoPolicy : Bool := true
  headers : List HeaderEntry

variable (hit)

def sendBlock (block : Block) (table : HPackTable) :
    Except CodecError (List UInt8 × HPackTable) := do
  let (updates, table) ← encodeEach (encodeTableSizeUpdate hit) block.updates table
  let (fields, table) ← encode hit block.useAutoPolicy block.headers table
  return (updates ++ fields, table)

/-- The two sides of a connection. -/
structure Session where
  encoder : HPackTable
  decoder : HPackTable

/-- Blocks that are sent and accepted. -/
def session (sender receiver : Layout) (W : ℕ) : System Session Block where
  next block s :=
    match sendBlock sender block s.encoder with
    | .error _ => none
    | .ok (bytes, encoder) =>
      match HpackDecoder.decode receiver W bytes s.decoder with
      | .error _ => none
      | .ok (_, decoder) => some ⟨encoder, decoder⟩

/-! ### A block in pieces -/

/-- A part of a block that has one representation. -/
inductive Piece
  | resize (size : UInt32)
  | field (name value : Text) (policy : EncodePolicy)

/-- The representation that the encoder chooses. -/
def represent (name value : Text) (policy : EncodePolicy) (result : SearchResult) :
    Representation :=
  if policy = .withIndexing ∧ result.isFullMatch then .indexed (result.index % 2 ^ 32)
  else if result.found then .named policy (result.index % 2 ^ 32) value
  else .fresh policy name value

def Piece.represent (table : HPackTable) : Piece → Representation
  | resize size => .resize size.toNat
  | field name value policy => Codec.represent name value policy (table.search hit name value)

def Piece.encode (piece : Piece) (table : HPackTable) :
    Except CodecError (List UInt8 × HPackTable) := do
  let bytes ← (piece.represent hit table).bytes
  let table ← (piece.represent hit table).record hit table
  return (bytes, table)

variable {hit}

def crumbs (value : Text) : List Text := (split value).filter (· ≠ [])

def fieldsOf (useAutoPolicy : Bool) (entry : HeaderEntry) : List Piece :=
  if entry.name = .token .cookie then
    (crumbs entry.value).map fun crumb => .field (text "cookie") crumb .withIndexing
  else [.field entry.name.wire entry.value
    (if useAutoPolicy then policyFor entry.name.wire else .withIndexing)]

def Block.pieces (block : Block) : List Piece :=
  block.updates.map .resize ++ block.headers.flatMap (fieldsOf block.useAutoPolicy)

section Pieces

variable {α β : Type} {f g : α → HPackTable → Except CodecError (List UInt8 × HPackTable)}

theorem encodeEach_append (xs ys : List α) (table : HPackTable) :
    encodeEach f (xs ++ ys) table = (do
      let (bytes, table) ← encodeEach f xs table
      let (rest, table) ← encodeEach f ys table
      return (bytes ++ rest, table)) := by
  induction xs generalizing table with
  | nil => simp [encodeEach, ok_bind]
  | cons x xs ih => simp [encodeEach, ih]

theorem encodeEach_singleton (x : α) (table : HPackTable) :
    encodeEach f [x] table = f x table := by
  simp [encodeEach]
  cases f x table <;> rfl

theorem encodeEach_map (g : β → α) (xs : List β) (table : HPackTable) :
    encodeEach f (xs.map g) table = encodeEach (fun x => f (g x)) xs table := by
  induction xs generalizing table with
  | nil => rfl
  | cons x xs ih => simp only [map_cons, encodeEach, ih]

theorem encodeEach_flatMap (g : β → List α) (xs : List β) (table : HPackTable) :
    encodeEach f (xs.flatMap g) table = encodeEach (fun x => encodeEach f (g x)) xs table := by
  induction xs generalizing table with
  | nil => rfl
  | cons x xs ih =>
    rw [flatMap_cons, encodeEach_append, encodeEach]
    simp only [ih]

theorem encodeEach_congr (h : ∀ x table, f x table = g x table) (xs : List α) (table : HPackTable) :
    encodeEach f xs table = encodeEach g xs table := by
  rw [show f = g from funext fun x => funext (h x)]

/-- What is skipped leaves no bytes and no trace. -/
theorem encodeEach_filter (p : α → Bool) (xs : List α) (table : HPackTable) :
    encodeEach (fun x table => if p x then f x table else .ok ([], table)) xs table =
      encodeEach f (xs.filter p) table := by
  induction xs generalizing table with
  | nil => rfl
  | cons x xs ih =>
    rw [encodeEach, filter_cons]
    split_ifs with hp
    · simp only [encodeEach, ih]
    · simp [ok_bind, ih]

/-- The choice between the representations. -/
theorem encodeHpackField_eq (name value : Text) (policy : EncodePolicy) (result : SearchResult)
    (table : HPackTable) :
    encodeHpackField hit name value policy result table = (do
      let bytes ← (represent name value policy result).bytes
      let table ← (represent name value policy result).record hit table
      return (bytes, table)) := by
  -- the representations that are not stored leave the table as it is
  have hplain : ∀ bytes : Except CodecError (List UInt8),
      bytes.map (·, table) = (do
        let bytes ← bytes
        let table ← Except.ok table
        return (bytes, table)) := by
    intro bytes
    cases bytes <;> rfl
  cases policy with
  | withIndexing =>
    cases hfull : result.isFullMatch with
    | true =>
      simp only [encodeHpackField, represent, hfull, and_self, if_true]
      exact hplain _
    | false =>
      cases hfound : result.found with
      | true =>
        simp only [encodeHpackField, represent, hfull, hfound, Bool.false_eq_true, and_false,
          if_false, if_true, encodeIncremental, Representation.record, bind_assoc, pure_bind]
        rfl
      | false =>
        simp only [encodeHpackField, represent, hfull, hfound, Bool.false_eq_true, and_false,
          if_false, encodeIncrementalNew, Representation.record, bind_assoc, pure_bind]
        rfl
  | withoutIndexing | neverIndexed =>
    cases hfound : result.found <;>
      simp only [encodeHpackField, represent, hfound, reduceCtorEq, Bool.false_eq_true, false_and,
        if_false, if_true] <;>
      exact hplain _

theorem encodeEntry_eq (useAutoPolicy : Bool) (entry : HeaderEntry) (table : HPackTable) :
    encodeEntry hit useAutoPolicy entry table =
      encodeEach (Piece.encode hit) (fieldsOf useAutoPolicy entry) table := by
  rw [encodeEntry, fieldsOf]
  split
  · rw [encodeCookies, encodeEach_map, crumbs, ← encodeEach_filter]
    refine encodeEach_congr (fun crumb table => ?_) _ _
    by_cases hempty : crumb = []
    · simp [hempty]
    · simp only [hempty, if_false, ne_eq, not_false_eq_true, decide_true, if_true,
        encodeHpackField_eq]
      rfl
  · rw [encodeEach_singleton, encodeHpackField_eq]
    rfl

/-- A block is written piece by piece. -/
theorem sendBlock_eq (block : Block) (table : HPackTable) :
    sendBlock hit block table = encodeEach (Piece.encode hit) block.pieces table := by
  have hupdate : ∀ size table, encodeTableSizeUpdate hit size table =
      (Piece.resize size).encode hit table := by
    intro size table
    simp only [encodeTableSizeUpdate, Piece.encode, Piece.represent, Representation.bytes]
    cases encodeIntView 32 size.toNat 5 PrefixHelper.dynamicTableSizeUpdate.bits <;> rfl
  rw [sendBlock, Block.pieces, encodeEach_append, encodeEach_map, encodeEach_congr hupdate]
  simp only [encode, encodeEach_flatMap, encodeEach_congr (encodeEntry_eq block.useAutoPolicy)]

end Pieces

/-- Both overloads insert the field, and an empty name is refused. -/
theorem HPackTable.insert_eq_ok_iff {table table' : HPackTable} :
    table.insert hit name value = .ok (position, table') ↔
      name ≠ .text [] ∧ DynamicTable.insert hit .hPack ⟨name, value⟩ table =
        (.ok position, table') := by
  have hmap : ∀ result : Except CodecError ℕ × DynamicTable,
      result.1.map (·, result.2) = .ok (position, table') ↔ result = (.ok position, table') := by
    intro ⟨result, t⟩
    cases result <;> simp [Except.map]
  cases name with
  | token t =>
    rw [and_iff_right (by simp)]
    exact hmap _
  | text name =>
    by_cases hempty : name = []
    · simp [HPackTable.insert, DynamicTable.insertText, hempty, Except.map]
    · rw [and_iff_right (by simpa using hempty), ← hmap, HPackTable.insert,
        DynamicTable.insertText, if_neg hempty]

/-! ### Equal tables -/

/-- The same entries in the same order, the same sizes and the same count of inserts. The indexes
are not compared: what is in a table does not depend on them. -/
structure Lockstep (a b : HPackTable) : Prop where
  deque : a.deque = b.deque
  currentSize : a.currentSize = b.currentSize
  maxSize : a.maxSize = b.maxSize
  generation : a.generation = b.generation

namespace Lockstep

open DynamicTable

variable {sender receiver : Layout} {a b : HPackTable} {headers : List HeaderEntry}

theorem evictOldest (h : Lockstep a b) :
    Lockstep (evictOldest sender a) (evictOldest receiver b) := by
  obtain hempty | ⟨front, last, hdeque⟩ := eq_nil_or_concat' a.deque
  · have hsame : ∀ {hit : Layout} {table : HPackTable}, table.deque = [] →
        DynamicTable.evictOldest hit table = table := by
      intro hit table hnil
      rw [DynamicTable.evictOldest, hnil]
      rfl
    rwa [hsame hempty, hsame (h.deque ▸ hempty)]
  · refine ⟨?_, ?_, ?_, ?_⟩
    · rw [deque_evictOldest, deque_evictOldest, h.deque]
    · rw [currentSize_evictOldest hdeque, currentSize_evictOldest (h.deque ▸ hdeque), h.currentSize]
    · rw [maxSize_evictOldest, maxSize_evictOldest, h.maxSize]
    · rw [generation_evictOldest, generation_evictOldest, h.generation]

/-- A loop that goes by the sizes makes the same rounds on both sides. -/
theorem evictWhile
    (hfull : ∀ {a b : HPackTable}, Lockstep a b → full a = full b) (h : Lockstep a b) (fuel : ℕ) :
    Lockstep (evictWhile sender full fuel a) (evictWhile receiver full fuel b) := by
  induction fuel generalizing a b with
  | zero => exact h
  | succ fuel ih =>
    rw [DynamicTable.evictWhile, DynamicTable.evictWhile, h.deque, hfull h]
    split_ifs
    · exact ih h.evictOldest
    · exact h

section

variable (h : Lockstep a b)

include h

theorem length_eq : a.deque.length = b.deque.length := by rw [h.deque]

theorem makeRoom (size : ℕ) :
    Lockstep (makeRoom sender size a) (makeRoom receiver size b) := by
  rw [DynamicTable.makeRoom, DynamicTable.makeRoom, h.length_eq]
  exact h.evictWhile (fun h => by rw [h.maxSize, h.currentSize]) _

theorem setMaxSize (newMax : ℕ) :
    Lockstep (setMaxSize sender newMax a) (setMaxSize receiver newMax b) := by
  rw [DynamicTable.setMaxSize, DynamicTable.setMaxSize, h.length_eq]
  refine evictWhile (fun h => by rw [h.maxSize, h.currentSize]) ?_ _
  exact ⟨h.deque, h.currentSize, rfl, h.generation⟩

theorem generationToPosition (gen : ℕ) :
    a.generationToPosition gen = b.generationToPosition gen := by
  rw [DynamicTable.generationToPosition, DynamicTable.generationToPosition, oldestGen, oldestGen,
    h.deque, h.generation]

theorem insert (field : HeaderEntry) :
    (insert sender .hPack field a).1 = (insert receiver .hPack field b).1 ∧
      Lockstep (DynamicTable.insert sender .hPack field a).2
        (DynamicTable.insert receiver .hPack field b).2 := by
  have hroom : Lockstep (DynamicTable.makeRoom sender field.size a)
      (DynamicTable.makeRoom receiver field.size b) := h.makeRoom field.size
  have hsize := congrArg (fun size => (size + field.size) % 2 ^ 64) hroom.currentSize
  have hgen := congrArg (fun generation => (generation + 1) % 2 ^ 64) hroom.generation
  by_cases hover : a.maxSize < field.size
  · rw [DynamicTable.insert, DynamicTable.insert, if_pos hover, if_pos (h.maxSize ▸ hover)]
    exact ⟨rfl, rfl, rfl, h.maxSize, h.generation⟩
  have hover' := h.maxSize ▸ hover
  by_cases hname : field.name = .text []
  · rw [DynamicTable.insert, DynamicTable.insert, if_neg hover, if_neg hover', if_pos hname,
      if_pos hname]
    exact ⟨rfl, hroom.deque, hsize, hroom.maxSize, hgen⟩
  · have hpushed : Lockstep (DynamicTable.insert sender .hPack field a).2
        (DynamicTable.insert receiver .hPack field b).2 := by
      rw [insert_of_le _ (not_lt.1 hover) hname, insert_of_le _ (not_lt.1 hover') hname]
      exact ⟨congrArg (field :: ·) hroom.deque, hsize, hroom.maxSize, hgen⟩
    refine ⟨?_, hpushed⟩
    rw [insert_position (not_lt.1 hover) hname, insert_position (not_lt.1 hover') hname,
      hpushed.generationToPosition, hpushed.generation]

theorem entry? (idx : ℕ) : a.entry? idx = b.entry? idx := by
  rw [HPackTable.entry?, HPackTable.entry?, atPosition, atPosition, h.deque]

theorem entry (idx : ℕ) : a.entry idx = b.entry idx := by
  rw [HPackTable.entry, HPackTable.entry, h.entry?]

/-- What one side stores, the other one does, at the same position. -/
theorem exists_insert
    {a' : HPackTable} (hinsert : a.insert sender name value = .ok (position, a')) :
    ∃ b', b.insert receiver name value = .ok (position, b') ∧ Lockstep a' b' := by
  obtain ⟨hname, hfield⟩ := HPackTable.insert_eq_ok_iff.1 hinsert
  obtain ⟨hresult, hstep⟩ : (DynamicTable.insert sender .hPack ⟨name, value⟩ a).1 =
      (DynamicTable.insert receiver .hPack ⟨name, value⟩ b).1 ∧ _ := h.insert ⟨name, value⟩
  rw [hfield] at hresult hstep
  exact ⟨(DynamicTable.insert receiver .hPack ⟨name, value⟩ b).2,
    HPackTable.insert_eq_ok_iff.2 ⟨hname, Prod.ext hresult.symm rfl⟩, hstep⟩

theorem inserted {a' b' : HPackTable} (hinsert : a.insert sender name value = .ok (position, a'))
    (hinserted : HpackDecoder.inserted receiver name value b = .ok (headers, b')) :
    Lockstep a' b' := by
  obtain ⟨b'', hb, hstep⟩ : ∃ b'', b.insert receiver name value = .ok (position, b'') ∧ _ :=
    h.exists_insert hinsert
  rw [HpackDecoder.inserted, hb, ok_bind] at hinserted
  cases hinserted
  exact hstep

/-- What the encoder has done for a representation, the decoder does, whatever it is. -/
theorem step {a' b' : HPackTable} (hrecord : rep.record sender a = .ok a')
    (hperform : rep.perform receiver b = .ok (headers, b')) : Lockstep a' b' := by
  cases rep with
  | indexed idx =>
    cases hrecord
    rw [Representation.perform] at hperform
    split_ifs at hperform
    obtain ⟨entry, -, hpure⟩ := bind_eq_ok_iff.1 hperform
    cases hpure
    exact h
  | resize size =>
    cases hrecord
    rw [Representation.perform] at hperform
    split_ifs at hperform
    cases hperform
    exact h.setMaxSize size
  | named policy idx value =>
    obtain ⟨value', haccept, hpush⟩ := bind_eq_ok_iff.1 hperform
    obtain rfl := accept_eq haccept
    -- the decoder refuses index 0
    have hpos : idx ≠ 0 := by
      intro hzero
      rw [HpackDecoder.pushHelper, if_pos hzero] at hpush
      cases hpush
    rw [HpackDecoder.pushHelper, if_neg hpos] at hpush
    obtain ⟨entry, hentry, hpush⟩ := bind_eq_ok_iff.1 hpush
    by_cases hpolicy : policy = .withIndexing
    · subst hpolicy
      obtain ⟨entry', hentry', hinsert⟩ := bind_eq_ok_iff.1 hrecord
      obtain rfl := Except.ok.inj ((h.entry idx ▸ hentry').symm.trans hentry)
      obtain ⟨⟨position, table⟩, hinsert, hpure⟩ := bind_eq_ok_iff.1 hinsert
      cases hpure
      exact h.inserted hinsert hpush
    · rw [(Representation.record_of_ne hpolicy).1] at hrecord
      rw [EncodePolicy.indexable_eq_false hpolicy] at hpush
      cases hrecord
      cases hpush
      exact h
  | fresh policy name value =>
    obtain ⟨name', haccept, hperform⟩ := bind_eq_ok_iff.1 hperform
    obtain rfl := accept_eq haccept
    obtain ⟨value', haccept, hpush⟩ := bind_eq_ok_iff.1 hperform
    obtain rfl := accept_eq haccept
    have hname : name ≠ [] := by
      intro hempty
      rw [HpackDecoder.pushHelperNew, if_pos hempty] at hpush
      cases hpush
    rw [HpackDecoder.pushHelperNew, if_neg hname] at hpush
    by_cases hpolicy : policy = .withIndexing
    · subst hpolicy
      obtain ⟨⟨position, table⟩, hinsert, hpure⟩ := bind_eq_ok_iff.1 hrecord
      cases hpure
      exact h.inserted hinsert hpush
    · rw [(Representation.record_of_ne hpolicy).2] at hrecord
      rw [EncodePolicy.indexable_eq_false hpolicy] at hpush
      cases hrecord
      cases hpush
      exact h

end

end Lockstep

/-! ### Indices on the wire -/

/-- A position of the static table, as the index of the table has them. -/
theorem staticMap_lt : ∀ row ∈ staticMap.rows, row.2 < staticSize := by
  decide +kernel

theorem find_staticMap_lt {query : HeaderKey}
    (h : Index.find hit staticMap query = some position) : position < staticSize := by
  obtain ⟨row, hrow, rfl⟩ := Option.map_eq_some_iff.1 h
  exact staticMap_lt row (Index.leads_of_lookup hrow).1

/-- The key that a search of strings looks up. -/
def HeaderKey.query (name value : Text) : Bool → HeaderKey
  | true => .fullMatch (.text name) value
  | false => .nameOnly (.text name)

/-- What a search comes to. -/
inductive HPackTable.Comes (hit : Layout) (table : HPackTable) (name value : Text) :
    SearchResult → Prop
  | static (isFull : Bool) {position : ℕ}
    (hfind : Index.find hit staticMap (.query name value isFull) = some position) :
    Comes hit table name value (.make (position + 1) true isFull)
  | dynamic (isFull : Bool) {gen : ℕ}
    (hfind : Index.find hit table.map (.query name value isFull) = some gen) :
    Comes hit table name value
      (.make ((SearchResult.make (table.reported .hPack gen) true isFull).index + staticSize + 1)
        true isFull)
  | none : Comes hit table name value .none

theorem HPackTable.search_comes (hit : Layout) (table : HPackTable) (name value : Text) :
    Comes hit table name value (table.search hit name value) := by
  rw [HPackTable.search]
  split_ifs with hstaticFull hfull hstaticName hname
  · rw [staticFullMatch] at hstaticFull ⊢
    split at hstaticFull
    · exact .static true ‹_›
    · cases hstaticFull
  · rw [DynamicTable.searchFullMatch] at hfull ⊢
    split at hfull
    · exact .dynamic true ‹_›
    · cases hfull
  · rw [staticNameOnly] at hstaticName ⊢
    split at hstaticName
    · exact .static false ‹_›
    · cases hstaticName
  · rw [DynamicTable.searchNameOnly] at hname ⊢
    split at hname
    · exact .dynamic false ‹_›
    · cases hname
  · exact .none

/-- A generation stands for a position of the table, or for none. -/
theorem generationToPosition_lt {table : DynamicTable} (hword : table.generation < 2 ^ 64)
    (hlen : table.deque.length < 2 ^ 32) (gen : ℕ) :
    table.generationToPosition gen < table.deque.length ∨
      table.generationToPosition gen = SearchResult.npos := by
  rw [DynamicTable.generationToPosition, DynamicTable.oldestGen, DynamicTable.sub64]
  split_ifs with hnone hold
  · exact .inr rfl
  · exact .inr rfl
  · left
    have hpos := length_pos_iff.2 (not_or.1 (not_or.1 hnone).2).2
    rw [Nat.mod_eq_of_lt (show table.deque.length - 1 < 2 ^ 64 by omega)] at hold
    omega

/-- The index of an entry of the dynamic table. A name whose entry is gone has the index of the last
static one. -/
theorem index_dynamic_lt (hword : table.generation < 2 ^ 64)
    (hlen : table.deque.length + staticSize < 2 ^ 32) (gen : ℕ) (isFull : Bool) :
    let result : SearchResult := .make (table.reported .hPack gen) true isFull
    0 < (SearchResult.make (result.index + staticSize + 1) true isFull).index ∧
      (SearchResult.make (result.index + staticSize + 1) true isFull).index < 2 ^ 32 := by
  rw [staticSize] at hlen
  simp only [SearchResult.index_make_mod, DynamicTable.reported, staticSize]
  obtain hlive | hgone := generationToPosition_lt hword (by omega) gen
  · omega
  · rw [hgone, SearchResult.npos]
    decide

/-- The index of a search is not `0`, and one of 32 bits. -/
theorem index_search_lt (hword : table.generation < 2 ^ 64)
    (hlen : table.deque.length + staticSize < 2 ^ 32) (name value : Text)
    (hfound : (table.search hit name value).found = true) :
    0 < (table.search hit name value).index ∧ (table.search hit name value).index < 2 ^ 32 := by
  have hcomes := HPackTable.search_comes hit table name value
  generalize table.search hit name value = result at hcomes hfound ⊢
  cases hcomes with
  | static isFull hfind =>
    have hlt := find_staticMap_lt hfind
    rw [staticSize] at hlt
    rw [SearchResult.index_make (by omega)]
    omega
  | dynamic isFull _ => exact index_dynamic_lt hword hlen _ isFull
  | none => cases hfound

/-! ### Sequences of blocks -/

/-- A condition on each piece and the table it is encoded with. -/
def Along (hit : Layout) (P : HPackTable → Piece → Prop) : List Piece → HPackTable → Prop
  | [], _ => True
  | piece :: pieces, table =>
    P table piece ∧ ∀ bytes table', piece.encode hit table = .ok (bytes, table') →
      Along hit P pieces table'

instance Along.decidable (hit : Layout) (P : HPackTable → Piece → Prop)
    [∀ table piece, Decidable (P table piece)] :
    (pieces : List Piece) → (table : HPackTable) → Decidable (Along hit P pieces table)
  | [], _ => isTrue trivial
  | piece :: pieces, table =>
    match h : piece.encode hit table with
    | .error _ => decidable_of_iff (P table piece) (by simp [Along, h])
    | .ok (_, table') =>
      haveI := Along.decidable hit P pieces table'
      decidable_of_iff (P table piece ∧ Along hit P pieces table') (by simp [Along, h])

/-- The lengths of the strings and the indices of the entries fit in 32 bits. -/
def Framed (table : HPackTable) : Piece → Prop
  | .resize _ => True
  | .field name value _ => (name.length < 2 ^ 32 ∧ value.length < 2 ^ 32) ∧
      table.deque.length + staticSize < 2 ^ 32

def Block.Framed (hit : Layout) (block : Block) (table : HPackTable) : Prop :=
  Along hit Codec.Framed block.pieces table

/-- What is represented can be told from its bytes. -/
theorem Framed.represent (hword : table.generation < 2 ^ 64)
    {piece : Piece} (h : Framed table piece) : (piece.represent hit table).Framed := by
  cases piece with
  | resize size => exact size.toNat_lt
  | field name value policy =>
    obtain ⟨⟨hname, hvalue⟩, hlen⟩ := h
    rw [Piece.represent, Codec.represent]
    split_ifs with hfull hfound
    · exact Nat.mod_lt _ (by decide)
    · obtain ⟨hpos, hlt⟩ := index_search_lt hword hlen name value hfound
      rw [Nat.mod_eq_of_lt hlt]
      exact ⟨⟨hpos, hlt⟩, hvalue⟩
    · exact ⟨hname, hvalue⟩

/-- The tables the encoder goes through. -/
def recordAll (hit : Layout) (table : HPackTable) : List Representation →
    Except CodecError HPackTable
  | [] => .ok table
  | rep :: reps => do
    let table ← rep.record hit table
    recordAll hit table reps

theorem generation_insert_lt {table : DynamicTable} (h : table.generation < 2 ^ 64)
    (field : HeaderEntry) : (DynamicTable.insert hit .hPack field table).2.generation < 2 ^ 64 := by
  rw [DynamicTable.insert]
  split_ifs
  · exact h
  · exact Nat.mod_lt _ (by decide)
  · exact Nat.mod_lt _ (by decide)

section Sequence

variable {sender receiver : Layout} {W : ℕ} {a a' b b' : HPackTable} {headers : List HeaderEntry}
    {bytes : List UInt8} {reps : List Representation}

theorem HPackTable.generation_lt_of_insert
    (h : a.generation < 2 ^ 64) (hinsert : a.insert sender name value = .ok (position, a')) :
    a'.generation < 2 ^ 64 := by
  obtain ⟨-, hfield⟩ := HPackTable.insert_eq_ok_iff.1 hinsert
  have hlt : (DynamicTable.insert sender .hPack ⟨name, value⟩ a).2.generation < 2 ^ 64 :=
    generation_insert_lt h _
  rwa [hfield] at hlt

/-- The count of the inserts stays a word. -/
theorem Representation.generation_lt_of_record (h : a.generation < 2 ^ 64)
    (hrecord : rep.record sender a = .ok a') : a'.generation < 2 ^ 64 := by
  cases rep with
  | indexed idx =>
    cases hrecord
    exact h
  | resize size =>
    cases hrecord
    exact (DynamicTable.evictWhile_kept ..).2.trans_lt h
  | named policy idx value =>
    by_cases hpolicy : policy = .withIndexing
    · subst hpolicy
      obtain ⟨entry, -, hinsert⟩ := bind_eq_ok_iff.1 hrecord
      obtain ⟨⟨position, table⟩, hinsert, hpure⟩ := bind_eq_ok_iff.1 hinsert
      cases hpure
      exact HPackTable.generation_lt_of_insert h hinsert
    · rw [(Representation.record_of_ne hpolicy).1] at hrecord
      cases hrecord
      exact h
  | fresh policy name value =>
    by_cases hpolicy : policy = .withIndexing
    · subst hpolicy
      obtain ⟨⟨position, table⟩, hinsert, hpure⟩ := bind_eq_ok_iff.1 hrecord
      cases hpure
      exact HPackTable.generation_lt_of_insert h hinsert
    · rw [(Representation.record_of_ne hpolicy).2] at hrecord
      cases hrecord
      exact h

/-- The bytes of pieces are those of representations, which the encoder has recorded. -/
theorem exists_written {pieces : List Piece} (hword : a.generation < 2 ^ 64)
    (hframed : Along sender Framed pieces a)
    (hencode : encodeEach (Piece.encode sender) pieces a = .ok (bytes, a')) :
    ∃ reps, Written reps bytes ∧ recordAll sender a reps = .ok a' := by
  induction pieces generalizing a bytes with
  | nil =>
    cases hencode
    exact ⟨[], .nil, rfl⟩
  | cons piece pieces ih =>
    obtain ⟨⟨first, table⟩, hfirst, hrest⟩ := bind_eq_ok_iff.1 hencode
    obtain ⟨⟨rest, table'⟩, hrest, hpure⟩ := bind_eq_ok_iff.1 hrest
    cases hpure
    have hnext := hframed.2 _ _ hfirst
    obtain ⟨written, hbytes, hrecord⟩ := bind_eq_ok_iff.1 hfirst
    obtain ⟨recorded, hrecord, hpure⟩ := bind_eq_ok_iff.1 hrecord
    cases hpure
    obtain ⟨reps, hwritten, hrecorded⟩ :=
      ih (Representation.generation_lt_of_record hword hrecord) hnext hrest
    refine ⟨piece.represent sender a :: reps,
      .cons (hframed.1.represent hword) hbytes hwritten, ?_⟩
    rw [recordAll, hrecord, ok_bind, hrecorded]

theorem Lockstep.steps (h : Lockstep a b) (hrecord : recordAll sender a reps = .ok a')
    (hperform : performAll receiver b reps = .ok (headers, b')) : Lockstep a' b' := by
  induction reps generalizing a b headers with
  | nil =>
    cases hrecord
    cases hperform
    exact h
  | cons rep reps ih =>
    obtain ⟨a₁, hrep, hrecords⟩ := bind_eq_ok_iff.1 hrecord
    obtain ⟨⟨first, b₁⟩, hfirst, hrest⟩ := bind_eq_ok_iff.1 hperform
    obtain ⟨⟨others, b₂⟩, hothers, hpure⟩ := bind_eq_ok_iff.1 hrest
    cases hpure
    exact ih (h.step hrep hfirst) hrecords hothers

theorem recordAll_generation_lt (h : a.generation < 2 ^ 64)
    (hrecord : recordAll sender a reps = .ok a') : a'.generation < 2 ^ 64 := by
  induction reps generalizing a with
  | nil =>
    cases hrecord
    exact h
  | cons rep reps ih =>
    obtain ⟨a₁, hrep, hrecords⟩ := bind_eq_ok_iff.1 hrecord
    exact ih (Representation.generation_lt_of_record h hrep) hrecords

/-- A block that is accepted leaves the tables equal. -/
theorem Lockstep.block (h : Lockstep a b) (hword : a.generation < 2 ^ 64) {block : Block}
    (hframed : block.Framed sender a) (hsend : sendBlock sender block a = .ok (bytes, a'))
    (hdecode : HpackDecoder.decode receiver W bytes b = .ok (headers, b')) :
    Lockstep a' b' ∧ a'.generation < 2 ^ 64 := by
  rw [sendBlock_eq] at hsend
  obtain ⟨reps, hwritten, hrecord⟩ := exists_written hword hframed hsend
  rw [hwritten.decode] at hdecode
  exact ⟨h.steps hrecord hdecode, recordAll_generation_lt hword hrecord⟩

theorem session_next_eq_some {block : Block} {s t : Session}
    (h : (session sender receiver W).next block s = some t) :
    ∃ bytes headers, sendBlock sender block s.encoder = .ok (bytes, t.encoder) ∧
      HpackDecoder.decode receiver W bytes s.decoder = .ok (headers, t.decoder) := by
  rw [session] at h
  simp only at h
  split at h
  · cases h
  · case h_2 bytes encoder hsend =>
    split at h
    · cases h
    · case h_2 headers decoder hdecode =>
      cases h
      exact ⟨bytes, headers, hsend, hdecode⟩

theorem session_next {block : Block} {s : Session}
    (hsend : sendBlock sender block s.encoder = .ok (bytes, a))
    (hdecode : HpackDecoder.decode receiver W bytes s.decoder = .ok (headers, b)) :
    (session sender receiver W).next block s = some ⟨a, b⟩ := by
  simp only [session, hsend, hdecode]

end Sequence

/-- In every sequence of blocks that the decoder accepts, with strings and tables whose sizes fit
in 32 bits, the tables of the two sides stay the same. -/
theorem lockstep_of_framed (sender receiver : Layout) (W : ℕ) (s t : Session)
    (h : Lockstep s.encoder s.decoder) (hword : s.encoder.generation < 2 ^ 64)
    (hrun : (session sender receiver W).Run (fun s block => block.Framed sender s.encoder) s t) :
    Lockstep t.encoder t.decoder := by
  have hinv : Lockstep t.encoder t.decoder ∧ t.encoder.generation < 2 ^ 64 := by
    refine hrun.invariant
      (I := fun t => Lockstep t.encoder t.decoder ∧ t.encoder.generation < 2 ^ 64) ⟨h, hword⟩ ?_
    intro t block u ⟨hlock, hgen⟩ hframed hnext
    obtain ⟨bytes, headers, hsend, hdecode⟩ := session_next_eq_some hnext
    exact hlock.block hgen hframed hsend hdecode
  exact hinv.1

/-- A field that both sides store. -/
theorem lockstep_of_framed_field :
    let block : Block := { headers := [⟨.text (text "a"), text "b"⟩] }
    ∃ t, (session (fun _ _ => false) (fun _ _ => false) 4).next block ⟨{}, {}⟩ = some t ∧
      Lockstep t.encoder t.decoder := by
  intro block
  have hsome : ((session (fun _ _ => false) (fun _ _ => false) 4).next block ⟨{}, {}⟩).isSome := by
    decide +kernel
  have hnext := (Option.some_get hsome).symm
  exact ⟨_, hnext, lockstep_of_framed (fun _ _ => false) (fun _ _ => false) 4 ⟨{}, {}⟩ _
    ⟨rfl, rfl, rfl, rfl⟩ (by decide) (System.Run.refl.tail (l := block)
      ⟨⟨by decide, by decide⟩, fun _ _ _ => trivial⟩ hnext)⟩

/-! ### A value of `2 ^ 32` bytes -/

section Long

/-- A name that no static entry has is not found there. -/
theorem find_staticMap_eq_none {query : HeaderKey}
    (h : ∀ row ∈ staticMap.rows, row.1.plain.name ≠ query.name) :
    Index.find hit staticMap query = none := by
  rw [Index.find, Option.map_eq_none_iff, Option.eq_none_iff_forall_ne_some]
  intro row hrow
  obtain ⟨hmem, hleads⟩ := Index.leads_of_lookup hrow
  exact h row hmem (congrArg HeaderKey.name hleads.1)

theorem search_letter (hit : Layout) (value : Text) :
    HPackTable.search hit (text "a") value {} = .none := by
  have hname : ∀ row ∈ staticMap.rows, row.1.plain.name ≠ .text (text "a") := by decide +kernel
  have hfull : Index.find hit staticMap (.fullMatch (.text (text "a")) value) = none :=
    find_staticMap_eq_none hname
  have honly : Index.find hit staticMap (.nameOnly (.text (text "a"))) = none :=
    find_staticMap_eq_none hname
  have hfull' : HPackTable.staticFullMatch hit (text "a") value = .none := by
    rw [HPackTable.staticFullMatch, hfull]
  have honly' : HPackTable.staticNameOnly hit (text "a") = .none := by
    rw [HPackTable.staticNameOnly, honly]
  rw [HPackTable.search, hfull', honly']
  rfl

/-- The block with a value of `n` bytes that read as `:method: GET` each. -/
def longBlock (n : ℕ) : Block where
  headers := [⟨.text (text "a"), List.replicate n 0x82⟩]

theorem written_replicate (n : ℕ) :
    Written (List.replicate n (.indexed 2)) (List.replicate n 0x82) := by
  induction n with
  | zero => exact .nil
  | succ n ih =>
    have hframed : (Representation.indexed 2).Framed := show 2 < 2 ^ 32 by decide
    have hbytes : (Representation.indexed 2).bytes = .ok [0x82] := by decide
    exact .cons hframed hbytes ih

theorem performAll_replicate (hit : Layout) (table : HPackTable) (n : ℕ) :
    ∃ headers, performAll hit table (List.replicate n (.indexed 2)) = .ok (headers, table) := by
  induction n with
  | zero => exact ⟨[], rfl⟩
  | succ n ih =>
    obtain ⟨headers, hrest⟩ := ih
    refine ⟨⟨.text (text ":method"), text "GET"⟩ :: headers, ?_⟩
    have hget : (Representation.indexed 2).perform hit table =
        .ok ([⟨.text (text ":method"), text "GET"⟩], table) := rfl
    rw [replicate_succ]
    exact performAll_cons hget hrest

/-- The length is written as `0`, and the field is too large to be stored. -/
theorem sendBlock_long (hit : Layout) {n : ℕ} (hn : n % 2 ^ 32 = 0) (hlarge : 2 ^ 32 ≤ n) :
    sendBlock hit (longBlock n) {} =
      .ok ([0x40, 0x01, 0x61, 0x00] ++ List.replicate n 0x82, DynamicTable.evictAll {}) := by
  have hpolicy : policyFor (text "a") = .withIndexing := by decide
  have hpieces : (longBlock n).pieces =
      [.field (text "a") (List.replicate n 0x82) .withIndexing] := by
    simp [Block.pieces, longBlock, fieldsOf, hpolicy]
  have hrep : (Piece.field (text "a") (List.replicate n 0x82) .withIndexing).represent hit {} =
      .fresh .withIndexing (text "a") (List.replicate n 0x82) := by
    rw [Piece.represent, search_letter]
    rfl
  have hvalue : encodeString (List.replicate n 0x82) = .ok ([0x00] ++ List.replicate n 0x82) := by
    rw [encodeString, length_replicate, hn]
    rfl
  have hname : encodeString (text "a") = .ok [0x01, 0x61] := by decide
  have hbytes : (Representation.fresh .withIndexing (text "a") (List.replicate n 0x82)).bytes =
      .ok ([0x40, 0x01, 0x61, 0x00] ++ List.replicate n 0x82) := by
    rw [Representation.bytes, literalNew, hname, hvalue]
    rfl
  have hinsert : HPackTable.insert hit (.text (text "a")) (List.replicate n 0x82) {} =
      .ok (0, DynamicTable.evictAll {}) := by
    refine HPackTable.insert_eq_ok_iff.2 ⟨by decide, ?_⟩
    rw [DynamicTable.insert, if_pos]
    show 4096 < (text "a").length + (List.replicate n 0x82).length + 32
    rw [length_replicate]
    omega
  rw [sendBlock_eq, hpieces, encodeEach_singleton, Piece.encode, hrep, hbytes, ok_bind,
    Representation.record, hinsert]
  rfl

/-- The decoder reads a field without a value, which it stores, and `n` more fields. -/
theorem exists_decode_long (hit : Layout) (W n : ℕ) :
    ∃ headers, HpackDecoder.decode hit W ([0x40, 0x01, 0x61, 0x00] ++ List.replicate n 0x82) {} =
      .ok (headers, (DynamicTable.insert hit .hPack ⟨.text (text "a"), []⟩ {}).2) := by
  have hwritten : Written (.fresh .withIndexing (text "a") [] :: List.replicate n (.indexed 2))
      ([0x40, 0x01, 0x61, 0x00] ++ List.replicate n 0x82) :=
    .cons ⟨by decide, by decide⟩ (by decide) (written_replicate n)
  obtain ⟨headers, hrest⟩ := performAll_replicate hit
    (DynamicTable.insert hit .hPack ⟨.text (text "a"), []⟩ {}).2 n
  rw [hwritten.decode]
  exact ⟨_, performAll_cons rfl hrest⟩

/-- A value of `2 ^ 32` bytes is stored by the decoder alone, without its bytes. -/
theorem long_value_desynchronizes :
    ¬∀ (sender receiver : Layout) (W : ℕ) (s t : Session), Lockstep s.encoder s.decoder →
      s.encoder.generation < 2 ^ 64 →
      (session sender receiver W).Run System.Any s t →
        Lockstep t.encoder t.decoder := by
  intro h
  let hit : Layout := fun _ _ => false
  obtain ⟨headers, hdecode⟩ := exists_decode_long hit 4 (2 ^ 32)
  have hnext : (session hit hit 4).next (longBlock (2 ^ 32)) ⟨{}, {}⟩ = some _ :=
    session_next (sendBlock_long hit (by decide) le_rfl) hdecode
  have hlock := h hit hit 4 ⟨{}, {}⟩ _ ⟨rfl, rfl, rfl, rfl⟩ (by decide)
    (System.Run.refl.tail (l := longBlock (2 ^ 32)) trivial hnext)
  have hdeque : [] = [(⟨.text (text "a"), []⟩ : HeaderEntry)] := hlock.deque
  exact absurd hdeque (by simp)

end Long

end Congelado.Codec
