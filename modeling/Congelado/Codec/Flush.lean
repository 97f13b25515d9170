import Congelado.Codec.Lockstep

/-!
# The output of the encoder

The encoder emits its bytes one by one into an array of 16384 bytes, and hands over what is there
when it has reached the size of a frame and at the end of the block (`HpackEncoder.call`). Here is
when the chunks are what they should be (`delivered_iff`): if no field is refused, if a frame is not
larger than the array or the block fits in it, and if the block does not end with a frame.

A frame may be larger than the array, and then a block that is larger too is written past its end
(`block_past_end`). A block that ends with a frame has an empty chunk behind it.
-/

namespace Congelado.Codec

open HpackEncoder List Fallible

/-! ### What is emitted -/

/-- What the encoder has done when it ends or throws: the bytes it has emitted, the table it leaves
and what it throws. -/
structure Emission where
  bytes : List UInt8
  table : HPackTable
  error : Option CodecError

/-- An emission as the result of a call. -/
def Emission.result (emission : Emission) : Except CodecError (List UInt8 × HPackTable) :=
  match emission.error with
  | some e => .error e
  | none => .ok (emission.bytes, emission.table)

/-- The bytes come first. A table that refuses an entry is left as it is. -/
def Representation.emit (hit : Layout) (table : HPackTable) (rep : Representation) : Emission :=
  match rep.bytes with
  | .error e => ⟨[], table, some e⟩
  | .ok bytes =>
    match rep.record hit table with
    | .error e => ⟨bytes, table, some e⟩
    | .ok table => ⟨bytes, table, none⟩

/-- Piece after piece, until one of them throws. -/
def emitEach (hit : Layout) : List Piece → HPackTable → Emission
  | [], table => ⟨[], table, none⟩
  | piece :: pieces, table =>
    let first := (piece.represent hit table).emit hit table
    match first.error with
    | some _ => first
    | none =>
      let rest := emitEach hit pieces first.table
      ⟨first.bytes ++ rest.bytes, rest.table, rest.error⟩

/-- What is emitted for a list of headers. -/
def emitted (hit : Layout) (useAutoPolicy : Bool) (headers : List HeaderEntry)
    (table : HPackTable) : Emission :=
  emitEach hit (headers.flatMap (fieldsOf useAutoPolicy)) table

section Emission

variable {hit : Layout} {table : HPackTable}

theorem Piece.encode_eq (piece : Piece) (table : HPackTable) :
    piece.encode hit table = ((piece.represent hit table).emit hit table).result := by
  rw [Piece.encode, Representation.emit]
  cases (piece.represent hit table).bytes with
  | error e => rfl
  | ok bytes => cases (piece.represent hit table).record hit table <;> rfl

theorem encodeEach_eq (pieces : List Piece) (table : HPackTable) :
    encodeEach (Piece.encode hit) pieces table = (emitEach hit pieces table).result := by
  induction pieces generalizing table with
  | nil => rfl
  | cons piece pieces ih =>
    rw [encodeEach, emitEach, Piece.encode_eq]
    generalize (piece.represent hit table).emit hit table = first
    obtain ⟨bytes, table', error⟩ := first
    cases error with
    | some e => rfl
    | none =>
      simp only [Emission.result, ok_bind, ih]
      cases (emitEach hit pieces table').error <;> rfl

/-- A block that is encoded is what is emitted. -/
theorem encode_eq (useAutoPolicy : Bool) (headers : List HeaderEntry) (table : HPackTable) :
    encode hit useAutoPolicy headers table = (emitted hit useAutoPolicy headers table).result := by
  rw [emitted, ← encodeEach_eq, encodeEach_flatMap, encode,
    encodeEach_congr (encodeEntry_eq useAutoPolicy)]

end Emission

/-! ### The size of a block -/

/-- The size of a string on the wire. -/
def stringSize (value : Text) : ℕ := computeSize 32 (value.length % 2 ^ 32) 7 + value.length

def Representation.size : Representation → ℕ
  | .indexed idx => computeSize 32 idx 7
  | .named policy idx value => computeSize 32 idx policy.prefixSize + stringSize value
  | .fresh _ name value => 1 + stringSize name + stringSize value
  | .resize size => computeSize 32 size 5

/-- The entry that is stored, if one is, has a name. -/
def Representation.Nameable (table : HPackTable) : Representation → Prop
  | .named policy idx _ => policy = .withIndexing →
      ∃ entry, table.entry? idx = some entry ∧ entry.name ≠ .text []
  | .fresh policy name _ => policy = .withIndexing → name ≠ []
  | _ => True

def Nameable (hit : Layout) (table : HPackTable) (piece : Piece) : Prop :=
  (piece.represent hit table).Nameable table

/-- The size of the fields, up to one that is refused. -/
def encodedSize (hit : Layout) : List Piece → HPackTable → ℕ
  | [], _ => 0
  | piece :: pieces, table =>
    (piece.represent hit table).size +
      match (piece.represent hit table).record hit table with
      | .error _ => 0
      | .ok table => encodedSize hit pieces table

section Size

variable {hit : Layout} {table : HPackTable}

theorem exists_encodeIntView {n : ℕ} (hn : 1 ≤ n ∧ n ≤ 8) (data : ℕ) (flags : UInt8) :
    ∃ bytes, encodeIntView 32 data n flags = .ok bytes ∧
      bytes.length = computeSize 32 data n := by
  rw [encodeIntView, if_neg (by omega)]
  exact ⟨_, rfl, by rw [length_map, length_range]⟩

theorem exists_encodeString (value : Text) :
    ∃ bytes, encodeString value = .ok bytes ∧ bytes.length = stringSize value := by
  obtain ⟨length, hlength, hsize⟩ :=
    exists_encodeIntView (n := 7) (by decide) (value.length % 2 ^ 32) 0x00
  refine ⟨length ++ value, ?_, by rw [length_append, hsize, stringSize]⟩
  rw [encodeString, hlength]
  rfl

/-- Every representation has bytes. -/
theorem Representation.exists_bytes (rep : Representation) :
    ∃ bytes, rep.bytes = .ok bytes ∧ bytes.length = rep.size := by
  cases rep with
  | indexed idx => exact exists_encodeIntView (n := 7) (by decide) idx _
  | resize size => exact exists_encodeIntView (n := 5) (by decide) size _
  | named policy idx value =>
    have hpolicy : 1 ≤ policy.prefixSize ∧ policy.prefixSize ≤ 8 := by cases policy <;> decide
    obtain ⟨index, hindex, hindexSize⟩ := exists_encodeIntView hpolicy idx policy.helper.bits
    obtain ⟨string, hstring, hstringSize⟩ := exists_encodeString value
    refine ⟨index ++ string, ?_, by rw [length_append, hindexSize, hstringSize, size]⟩
    rw [Representation.bytes, literal, hindex, hstring]
    rfl
  | fresh policy name value =>
    obtain ⟨first, hfirst, hfirstSize⟩ := exists_encodeString name
    obtain ⟨second, hsecond, hsecondSize⟩ := exists_encodeString value
    refine ⟨policy.helper.bits :: (first ++ second), ?_, ?_⟩
    · rw [Representation.bytes, literalNew, hfirst, hsecond]
      rfl
    · rw [length_cons, length_append, hfirstSize, hsecondSize, size]
      omega

theorem HPackTable.exists_insert {name : FieldName} (hname : name ≠ .text []) (value : Text) :
    ∃ position table', table.insert hit name value = .ok (position, table') := by
  by_cases hover : table.maxSize < HeaderEntry.size ⟨name, value⟩
  · refine ⟨0, table.evictAll, HPackTable.insert_eq_ok_iff.2 ⟨hname, ?_⟩⟩
    rw [DynamicTable.insert, if_pos hover]
  · exact ⟨_, _, HPackTable.insert_eq_ok_iff.2
      ⟨hname, Prod.ext (DynamicTable.insert_position (not_lt.1 hover) hname) rfl⟩⟩

/-- A table refuses an entry only if it has no name. -/
theorem Representation.exists_record_iff {rep : Representation} :
    (∃ table', rep.record hit table = .ok table') ↔ rep.Nameable table := by
  cases rep with
  | indexed | resize => exact iff_of_true ⟨_, rfl⟩ trivial
  | named policy idx value =>
    by_cases hpolicy : policy = .withIndexing
    · subst hpolicy
      constructor
      · rintro ⟨table', hrecord⟩ -
        obtain ⟨entry, hentry, hinsert⟩ := bind_eq_ok_iff.1 hrecord
        obtain ⟨⟨position, stored⟩, hinsert, -⟩ := bind_eq_ok_iff.1 hinsert
        rw [HPackTable.entry] at hentry
        split at hentry
        · case h_1 found hfound =>
          cases hentry
          exact ⟨entry, hfound, (HPackTable.insert_eq_ok_iff.1 hinsert).1⟩
        · cases hentry
      · intro h
        obtain ⟨entry, hentry, hname⟩ := h rfl
        obtain ⟨position, table', hinsert⟩ :
          ∃ position table', table.insert hit entry.name value = .ok (position, table') :=
          HPackTable.exists_insert hname value
        refine ⟨table', ?_⟩
        rw [Representation.record, HPackTable.entry, hentry, ok_bind, hinsert]
        rfl
    · exact iff_of_true ⟨table, (record_of_ne hpolicy).1 idx value⟩ fun h => absurd h hpolicy
  | fresh policy name value =>
    by_cases hpolicy : policy = .withIndexing
    · subst hpolicy
      constructor
      · rintro ⟨table', hrecord⟩ - rfl
        obtain ⟨⟨position, stored⟩, hinsert, -⟩ := bind_eq_ok_iff.1 hrecord
        exact (HPackTable.insert_eq_ok_iff.1 hinsert).1 rfl
      · intro h
        have hname : FieldName.text name ≠ .text [] := fun heq => h rfl (FieldName.text.inj heq)
        obtain ⟨position, table', hinsert⟩ :
          ∃ position table', table.insert hit (.text name) value = .ok (position, table') :=
          HPackTable.exists_insert hname value
        refine ⟨table', ?_⟩
        rw [Representation.record, hinsert]
        rfl
    · exact iff_of_true ⟨table, (record_of_ne hpolicy).2 name value⟩ fun h => absurd h hpolicy

/-- The emission of a list has the size of the list, and no error if every field is stored. -/
theorem emitEach_spec (pieces : List Piece) (table : HPackTable) :
    (emitEach hit pieces table).bytes.length = encodedSize hit pieces table ∧
      ((emitEach hit pieces table).error = none ↔ Along hit (Nameable hit) pieces table) := by
  induction pieces generalizing table with
  | nil => exact ⟨rfl, iff_of_true rfl trivial⟩
  | cons piece pieces ih =>
    obtain ⟨bytes, hbytes, hsize⟩ := (piece.represent hit table).exists_bytes
    have hnameable : (∃ table', (piece.represent hit table).record hit table = .ok table') ↔
        Nameable hit table piece := Representation.exists_record_iff
    cases hrecord : (piece.represent hit table).record hit table with
    | error e =>
      have hrefused : ¬Nameable hit table piece := by
        rw [← hnameable, hrecord]
        rintro ⟨table', h⟩
        cases h
      simp only [emitEach, Representation.emit, encodedSize, hbytes, hrecord, hsize]
      exact ⟨rfl, iff_of_false (by simp) fun h => hrefused h.1⟩
    | ok table' =>
      have hencode : piece.encode hit table = .ok (bytes, table') := by
        rw [Piece.encode, hbytes, ok_bind, hrecord]
        rfl
      have hhead : Nameable hit table piece := hnameable.1 ⟨table', hrecord⟩
      simp only [emitEach, Representation.emit, encodedSize, hbytes, hrecord, length_append,
        hsize, (ih table').1, (ih table').2, Along, hencode, hhead, true_and]
      exact ⟨fun h bytes' table'' heq => by cases heq; exact h, fun h => h bytes table' rfl⟩

end Size

/-! ### The array -/

inductive HpackFlushReason
  | overflow
  | final
  deriving DecidableEq

/-- The array `m_buf` up to `m_buf_pos`, and the chunks that were handed over. -/
structure Output where
  chunks : List (List UInt8 × HpackFlushReason) := []
  buf : List UInt8 := []
  deriving DecidableEq

def bufSize : ℕ := 16384

/-- There is no output if the byte is written past the end of the array. -/
def emit (flushSize : ℕ) (byte : UInt8) (out : Output) : Option Output :=
  if bufSize ≤ out.buf.length then none
  else
    let buf := out.buf ++ [byte]
    if buf.length = flushSize then some ⟨out.chunks ++ [(buf, .overflow)], []⟩
    else some { out with buf }

def drain (flushSize : ℕ) : List UInt8 → Output → Option Output
  | [], out => some out
  | byte :: bytes, out => (emit flushSize byte out).bind (drain flushSize bytes)

/-- The end of a call. -/
inductive Outcome
  | outOfBounds
  | threw (chunks : List (List UInt8 × HpackFlushReason)) (table : HPackTable) (error : CodecError)
  | finished (chunks : List (List UInt8 × HpackFlushReason)) (table : HPackTable)

/-- `operator()`. What was emitted before an error has gone through the array. -/
def HpackEncoder.call (hit : Layout) (flushSize : ℕ) (useAutoPolicy : Bool)
    (headers : List HeaderEntry) (table : HPackTable) : Outcome :=
  let emission := emitted hit useAutoPolicy headers table
  match drain flushSize emission.bytes {} with
  | none => .outOfBounds
  | some out =>
    match emission.error with
    | some e => .threw out.chunks emission.table e
    | none => .finished (out.chunks ++ [(out.buf, .final)]) emission.table

section Array

variable {flushSize : ℕ} {out out' : Output} {bytes : List UInt8}

/-- The bytes that went into the output. -/
def Output.written (out : Output) : List UInt8 := (out.chunks.map Prod.fst).flatten ++ out.buf

/-- The chunks are full and what is in the array is not. -/
structure Output.Cut (flushSize : ℕ) (out : Output) : Prop where
  full : ∀ chunk ∈ out.chunks, chunk.1.length = flushSize
  open_ : out.buf.length < flushSize

theorem emit_of_lt (hcut : out.Cut flushSize) (hroom : out.buf.length < bufSize) (byte : UInt8) :
    ∃ out', emit flushSize byte out = some out' ∧ out'.Cut flushSize ∧
      out'.written = out.written ++ [byte] ∧
      out'.buf.length = (out.buf.length + 1) % flushSize := by
  have hopen := hcut.open_
  have hlen : (out.buf ++ [byte]).length = out.buf.length + 1 := by simp
  rw [emit, if_neg (not_le.2 hroom)]
  by_cases hfull : (out.buf ++ [byte]).length = flushSize
  · rw [if_pos hfull]
    refine ⟨_, rfl, ⟨fun chunk hchunk => ?_, Nat.zero_lt_of_lt hopen⟩, ?_, ?_⟩
    · obtain hold | hnew := mem_append.1 hchunk
      · exact hcut.full chunk hold
      · rwa [mem_singleton.1 hnew]
    · simp [Output.written]
    · rw [← hlen, hfull, Nat.mod_self]
      rfl
  · rw [if_neg hfull]
    refine ⟨_, rfl, ⟨hcut.full, ?_⟩, ?_, ?_⟩
    · show (out.buf ++ [byte]).length < flushSize
      omega
    · simp [Output.written]
    · rwa [Nat.mod_eq_of_lt (by omega)]

/-- If a frame is not larger than the array, or the bytes are not, then they stay in it. -/
theorem drain_of_le (hcut : out.Cut flushSize)
    (hroom : flushSize ≤ bufSize ∨ out.buf.length + bytes.length ≤ bufSize) :
    ∃ out', drain flushSize bytes out = some out' ∧ out'.Cut flushSize ∧
      out'.written = out.written ++ bytes ∧
      out'.buf.length = (out.buf.length + bytes.length) % flushSize := by
  have hopen := hcut.open_
  induction bytes generalizing out with
  | nil =>
    refine ⟨out, rfl, hcut, (append_nil _).symm, ?_⟩
    rw [length_nil, Nat.add_zero, Nat.mod_eq_of_lt hopen]
  | cons byte bytes ih =>
    rw [length_cons] at hroom ⊢
    obtain ⟨out₁, hemit, hcut₁, hwritten₁, hlen₁⟩ := emit_of_lt hcut (by omega) byte
    have hroom₁ : flushSize ≤ bufSize ∨ out₁.buf.length + bytes.length ≤ bufSize := by
      have hle := Nat.mod_le (out.buf.length + 1) flushSize
      omega
    obtain ⟨out₂, hdrain, hcut₂, hwritten₂, hlen₂⟩ := ih hcut₁ hroom₁ hcut₁.open_
    refine ⟨out₂, ?_, hcut₂, ?_, ?_⟩
    · rw [drain, hemit, Option.bind_some, hdrain]
    · rw [hwritten₂, hwritten₁, append_assoc, singleton_append]
    · rw [hlen₂, hlen₁, Nat.mod_add_mod, Nat.add_assoc, Nat.add_comm 1]

/-- If neither is, the bytes are written past the end. -/
theorem drain_of_lt (hlarge : bufSize < flushSize) (hfit : out.buf.length ≤ bufSize)
    (hlong : bufSize < out.buf.length + bytes.length) : drain flushSize bytes out = none := by
  induction bytes generalizing out with
  | nil =>
    rw [length_nil] at hlong
    omega
  | cons byte bytes ih =>
    rw [length_cons] at hlong
    rw [drain, emit]
    by_cases hend : bufSize ≤ out.buf.length
    · rw [if_pos hend]
      rfl
    · have hlen : (out.buf ++ [byte]).length = out.buf.length + 1 := by simp
      rw [if_neg hend, if_neg (by omega), Option.bind_some]
      refine ih ?_ ?_
      · show (out.buf ++ [byte]).length ≤ bufSize
        omega
      · show bufSize < (out.buf ++ [byte]).length + bytes.length
        omega

end Array

/-! ### The chunks of a block -/

/-- The block is handed over in chunks that are not empty and fit in a frame, and that are its
encoding. -/
def Delivered (hit : Layout) (flushSize : ℕ) (useAutoPolicy : Bool) (headers : List HeaderEntry)
    (table : HPackTable) : Prop :=
  ∃ chunks table', HpackEncoder.call hit flushSize useAutoPolicy headers table =
      .finished chunks table' ∧
    (∀ chunk ∈ chunks, chunk.1 ≠ [] ∧ chunk.1.length ≤ flushSize) ∧
    encode hit useAutoPolicy headers table = .ok ((chunks.map Prod.fst).flatten, table')

theorem cut_empty {flushSize : ℕ} (h : 0 < flushSize) : Output.Cut flushSize {} where
  full := fun _ hchunk => nomatch hchunk
  open_ := h

/-- For every size of a frame that may be negotiated, a list of headers is handed over as it should
be if and only if every field that is stored has a name, the frame is not larger than the array or
the fields are not, and the last frame is not full. -/
theorem delivered_iff (hit : Layout) (flushSize : ℕ) (useAutoPolicy : Bool)
    (headers : List HeaderEntry) (table : HPackTable)
    (hflush : 16384 ≤ flushSize ∧ flushSize ≤ 2 ^ 24 - 1) :
    Delivered hit flushSize useAutoPolicy headers table ↔
      Along hit (Nameable hit) (headers.flatMap (fieldsOf useAutoPolicy)) table ∧
        (flushSize = 16384 ∨
          encodedSize hit (headers.flatMap (fieldsOf useAutoPolicy)) table ≤ 16384) ∧
        ¬flushSize ∣ encodedSize hit (headers.flatMap (fieldsOf useAutoPolicy)) table := by
  obtain ⟨hsize, herror⟩ :
    (emitted hit useAutoPolicy headers table).bytes.length = _ ∧ (_ ↔ _) :=
    emitEach_spec (headers.flatMap (fieldsOf useAutoPolicy)) table
  rw [← hsize]
  change (emitted hit useAutoPolicy headers table).error = none ↔ _ at herror
  rw [← herror, Delivered, HpackEncoder.call, encode_eq]
  generalize emitted hit useAutoPolicy headers table = emission
  have hpos : 0 < flushSize := by omega
  by_cases hroom : flushSize = 16384 ∨ emission.bytes.length ≤ 16384
  · -- nothing is written past the end, and what is left for the last chunk is the remainder
    have hroom' : flushSize ≤ bufSize ∨
        ({} : Output).buf.length + emission.bytes.length ≤ bufSize := by
      rw [bufSize]
      simp only [length_nil, zero_add]
      omega
    obtain ⟨out, hdrain, hcut, hwritten, hlen⟩ := drain_of_le (cut_empty hpos) hroom'
    rw [length_nil, zero_add] at hlen
    have hlast : out.buf ≠ [] ↔ ¬flushSize ∣ emission.bytes.length := by
      rw [← length_pos_iff, hlen, Nat.dvd_iff_mod_eq_zero, Nat.pos_iff_ne_zero]
    have hall : ((out.chunks ++ [(out.buf, HpackFlushReason.final)]).map Prod.fst).flatten =
        emission.bytes := by
      rw [map_append, flatten_append]
      simpa [Output.written] using hwritten
    rw [hdrain, and_iff_right hroom]
    cases hthrown : emission.error with
    | some e => simp
    | none =>
      simp only [Emission.result, hthrown, true_and, ← hlast]
      constructor
      · rintro ⟨chunks, table', hcall, hchunks, -⟩
        cases hcall
        exact (hchunks _ (mem_append_right _ (mem_singleton_self _))).1
      · intro hne
        refine ⟨_, _, rfl, fun chunk hchunk => ?_, by rw [hall]⟩
        obtain hold | hnew := mem_append.1 hchunk
        · have hfull := hcut.full chunk hold
          exact ⟨ne_nil_of_length_pos (hfull ▸ hpos), hfull.le⟩
        · rw [mem_singleton.1 hnew]
          exact ⟨hne, hcut.open_.le⟩
  · have hdrain : drain flushSize emission.bytes {} = none := by
      refine drain_of_lt ?_ (Nat.zero_le _) ?_
      · rw [bufSize]
        omega
      · rw [bufSize]
        simp only [length_nil, zero_add]
        omega
    rw [hdrain]
    refine iff_of_false ?_ fun h => hroom h.2.1
    rintro ⟨chunks, table', hcall, -⟩
    cases hcall

/-- The representation of a field with a new name in an empty table. -/
theorem represent_letter (hit : Layout) (value : Text) :
    (Piece.field (text "a") value .withIndexing).represent hit {} =
      .fresh .withIndexing (text "a") value := by
  rw [Piece.represent, search_letter]
  rfl

/-- A field that takes three chunks. -/
theorem delivered_iff_chunks :
    Delivered (fun _ _ => false) 16384 true [⟨.text (text "a"), replicate 40000 0x62⟩] {} := by
  let value : Text := replicate 40000 0x62
  let field : Piece := .field (text "a") value .withIndexing
  have hnameable : Nameable (fun _ _ => false) {} field := by
    rw [Nameable, represent_letter]
    exact fun _ => by decide
  have hsize : encodedSize (fun _ _ => false) [field] {} = 40007 := by
    have hvalue : value.length = 40000 := length_replicate
    rw [encodedSize, represent_letter, Representation.size, stringSize, stringSize, hvalue]
    split
    · decide +kernel
    · rw [encodedSize]
      decide +kernel
  refine (delivered_iff (fun _ _ => false) 16384 true [⟨.text (text "a"), value⟩] {}
    (by decide)).2 ⟨⟨hnameable, fun _ _ _ => trivial⟩, .inl rfl, ?_⟩
  show ¬16384 ∣ encodedSize (fun _ _ => false) [field] {}
  rw [hsize]
  decide

/-- With frames of 20000 bytes, a value of 16384 bytes goes past the end of the array. -/
theorem block_past_end :
    ¬∀ (hit : Layout) (flushSize : ℕ) (useAutoPolicy : Bool) (headers : List HeaderEntry)
      (table : HPackTable), 16384 ≤ flushSize ∧ flushSize ≤ 2 ^ 24 - 1 →
        HpackEncoder.call hit flushSize useAutoPolicy headers table ≠ .outOfBounds := by
  intro h
  let hit : Layout := fun _ _ => false
  let value : Text := List.replicate 16384 0x62
  let pieces : List Piece := [.field (text "a") value .withIndexing]
  have hlong : 16384 < encodedSize hit pieces {} := by
    have hvalue : value.length = 16384 := length_replicate
    show 16384 < ((Piece.field (text "a") value .withIndexing).represent hit {}).size + _
    rw [represent_letter, Representation.size, stringSize, stringSize, hvalue]
    omega
  have hsize : (emitted hit true [⟨.text (text "a"), value⟩] {}).bytes.length =
      encodedSize hit pieces {} := (emitEach_spec pieces {}).1
  have hdrain : drain 20000 (emitted hit true [⟨.text (text "a"), value⟩] {}).bytes {} = none := by
    refine drain_of_lt (by decide) (Nat.zero_le _) ?_
    rwa [hsize, bufSize, length_nil, Nat.zero_add]
  refine h hit 20000 true [⟨.text (text "a"), value⟩] {} (by decide) ?_
  rw [HpackEncoder.call, hdrain]

end Congelado.Codec
