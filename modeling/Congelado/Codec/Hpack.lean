import Congelado.Codec.Table
import Congelado.Codec.Huffman

/-!
# HPACK

The encoder and the decoder of header blocks, over the static table and a dynamic one each. A
field is sent as an index if a table has it, with the index of its name if a table has the name,
and as it is otherwise; fields that are indexed are stored in the dynamic table by both sides. The
indices and the lengths on the wire are of 32 bits.

The encoder hands over its bytes in pieces of the size of a frame; the pieces of a block, one
after the other, are the bytes here. `encode_hpack_field` has three policies, of which
`policy_for` returns two.
-/

namespace Congelado.Codec

/-! ### The unified table -/

def staticEntries : List (Token × String) :=
  [(.authority, ""), (.method, "GET"), (.method, "POST"), (.path, "/"), (.path, "/index.html"),
    (.scheme, "http"), (.scheme, "https"), (.status, "200"), (.status, "204"), (.status, "206"),
    (.status, "304"), (.status, "400"), (.status, "404"), (.status, "500"), (.acceptCharset, ""),
    (.acceptEncoding, "gzip, deflate"), (.acceptLanguage, ""), (.acceptRanges, ""),
    (.accept, ""), (.accessControlAllowOrigin, ""), (.age, ""), (.allow, ""),
    (.authorization, ""), (.cacheControl, ""), (.contentDisposition, ""), (.contentEncoding, ""),
    (.contentLanguage, ""), (.contentLength, ""), (.contentLocation, ""), (.contentRange, ""),
    (.contentType, ""), (.cookie, ""), (.date, ""), (.eTag, ""), (.expect, ""), (.expires, ""),
    (.fromToken, ""), (.host, ""), (.ifMatch, ""), (.ifModifiedSince, ""), (.ifNoneMatch, ""),
    (.ifRange, ""), (.ifUnmodifiedSince, ""), (.lastModified, ""), (.link, ""), (.location, ""),
    (.maxForwards, ""), (.proxyAuthenticate, ""), (.proxyAuthorization, ""), (.range, ""),
    (.referer, ""), (.refresh, ""), (.retryAfter, ""), (.server, ""), (.setCookie, ""),
    (.strictTransportSecurity, ""), (.transferEncoding, ""), (.userAgent, ""), (.vary, ""),
    (.via, ""), (.wwwAuthenticate, "")]

def staticTable : List HeaderEntry :=
  staticEntries.map fun (token, value) => ⟨.token token, text value⟩

def staticSize : ℕ := 61

/-- The index of the static table. Of the entries of one name, the key of the name has the last. -/
@[irreducible] def staticMap : Index :=
  staticTable.zipIdx.foldl (fun built (field, i) =>
    Index.upsert (Index.upsert built (.fullMatch field.name field.value) i)
      (.nameOnly field.name) i)
    Keyed.Table.empty

/-- `HPackTable`: a dynamic table behind the static one. -/
abbrev HPackTable := DynamicTable

namespace HPackTable

variable (hit : Layout) (table : HPackTable)

/-- `operator[]`. -/
def entry? (idx : ℕ) : Option HeaderEntry :=
  if idx = 0 then none
  else if idx ≤ staticSize then staticTable[idx - 1]?
  else table.atPosition (idx - staticSize - 1)

/-- `at`. -/
def entry (idx : ℕ) : Except CodecError HeaderEntry :=
  match table.entry? idx with
  | some entry => .ok entry
  | none => .error (.outOfRange "hpack::HeaderTable: invalid index")

def staticFullMatch (name value : Text) : SearchResult :=
  match Index.find hit staticMap (.fullMatch (.text name) value) with
  | some position => .make (position + 1) true true
  | none => .none

def staticNameOnly (name : Text) : SearchResult :=
  match Index.find hit staticMap (.nameOnly (.text name)) with
  | some position => .make (position + 1) true false
  | none => .none

def search (name value : Text) (table : HPackTable) : SearchResult :=
  if (staticFullMatch hit name value).found then staticFullMatch hit name value
  else if (DynamicTable.searchFullMatch hit .hPack name value table).found then
    .make ((DynamicTable.searchFullMatch hit .hPack name value table).index + staticSize + 1)
      true true
  else if (staticNameOnly hit name).found then staticNameOnly hit name
  else if (DynamicTable.searchNameOnly hit .hPack name table).found then
    .make ((DynamicTable.searchNameOnly hit .hPack name table).index + staticSize + 1) true false
  else .none

/-- `insert`, for a string and for a `Token`. -/
def insert (name : FieldName) (value : Text) (table : HPackTable) :
    Except CodecError (ℕ × HPackTable) :=
  let (position, table) :=
    match name with
    | .text name => DynamicTable.insertText hit .hPack name value table
    | .token token => DynamicTable.insertToken hit .hPack token value table
  position.map (·, table)

end HPackTable

/-! ### Representations -/

/-- The representations of a block, with the bits that mark them. -/
inductive PrefixHelper
  | indexedField
  | literalWithIndexing
  | dynamicTableSizeUpdate
  | literalNeverIndexed
  | literalWithoutIndexing
  deriving DecidableEq

def PrefixHelper.bits : PrefixHelper → UInt8
  | indexedField => 0x80
  | literalWithIndexing => 0x40
  | dynamicTableSizeUpdate => 0x20
  | literalNeverIndexed => 0x10
  | literalWithoutIndexing => 0x00

inductive EncodePolicy
  | withIndexing
  | withoutIndexing
  | neverIndexed
  deriving DecidableEq

def neverIndexed : List String := ["authorization", "proxy-authorization", "cookie", "set-cookie"]

def policyFor (name : Text) : EncodePolicy :=
  if neverIndexed.any fun header => text header = name then .neverIndexed else .withIndexing

/-! ### The encoder -/

namespace HpackEncoder

variable (hit : Layout)

/-- The flag for the Huffman code is not looked at. -/
def encodeString (value : Text) : Except CodecError (List UInt8) := do
  let length ← encodeIntView 32 (value.length % 2 ^ 32) 7 0x00
  return length ++ value

variable (helper : PrefixHelper)

/-- An index and a value. -/
def literal (prefixSize idx : ℕ) (value : Text) :
    Except CodecError (List UInt8) := do
  let index ← encodeIntView 32 idx prefixSize helper.bits
  let value ← encodeString value
  return index ++ value

/-- A name and a value. -/
def literalNew (name value : Text) : Except CodecError (List UInt8) := do
  let name ← encodeString name
  let value ← encodeString value
  return helper.bits :: (name ++ value)

variable (idx : ℕ)

def encodeIndexed : Except CodecError (List UInt8) :=
  encodeIntView 32 idx 7 PrefixHelper.indexedField.bits

def encodeIncremental (value : Text) (table : HPackTable) :
    Except CodecError (List UInt8 × HPackTable) := do
  let bytes ← literal .literalWithIndexing 6 idx value
  let entry ← table.entry idx
  let (_, table) ← table.insert hit entry.name value
  return (bytes, table)

def encodeIncrementalNew (name value : Text) (table : HPackTable) :
    Except CodecError (List UInt8 × HPackTable) := do
  let bytes ← literalNew .literalWithIndexing name value
  let (_, table) ← table.insert hit (.text name) value
  return (bytes, table)

def encodeWithoutIndexing (value : Text) : Except CodecError (List UInt8) :=
  literal .literalWithoutIndexing 4 idx value

def encodeWithoutIndexingNew (name value : Text) : Except CodecError (List UInt8) :=
  literalNew .literalWithoutIndexing name value

def encodeNeverIndexed (value : Text) : Except CodecError (List UInt8) :=
  literal .literalNeverIndexed 4 idx value

variable (name value : Text)

def encodeNeverIndexedNew : Except CodecError (List UInt8) :=
  literalNew .literalNeverIndexed name value

def encodeHpackField (policy : EncodePolicy) (result : SearchResult)
    (table : HPackTable) : Except CodecError (List UInt8 × HPackTable) :=
  let idx := result.index % 2 ^ 32
  match policy with
  | .withIndexing =>
    if result.isFullMatch then (encodeIndexed idx).map (·, table)
    else if result.found then encodeIncremental hit idx value table
    else encodeIncrementalNew hit name value table
  | .withoutIndexing =>
    if result.found then (encodeWithoutIndexing idx value).map (·, table)
    else (encodeWithoutIndexingNew name value).map (·, table)
  | .neverIndexed =>
    if result.found then (encodeNeverIndexed idx value).map (·, table)
    else (encodeNeverIndexedNew name value).map (·, table)

/-- `std::views::split` at `"; "`. -/
def split : Text → List Text
  | [] => [[]]
  | 0x3B :: 0x20 :: rest => [] :: split rest
  | byte :: rest =>
    match split rest with
    | [] => [[byte]]
    | crumb :: crumbs => (byte :: crumb) :: crumbs

/-- The bytes of one after the other. -/
def encodeEach {α : Type} (encode : α → HPackTable → Except CodecError (List UInt8 × HPackTable)) :
    List α → HPackTable → Except CodecError (List UInt8 × HPackTable)
  | [], table => .ok ([], table)
  | item :: items, table => do
    let (bytes, table) ← encode item table
    let (rest, table) ← encodeEach encode items table
    return (bytes ++ rest, table)

def encodeCookies (value : Text) (table : HPackTable) :
    Except CodecError (List UInt8 × HPackTable) :=
  encodeEach (fun crumb table =>
    if crumb = [] then .ok ([], table)
    else encodeHpackField hit (text "cookie") crumb .withIndexing
      (table.search hit (text "cookie") crumb) table) (split value) table

variable (useAutoPolicy : Bool)

def encodeEntry (entry : HeaderEntry) (table : HPackTable) :
    Except CodecError (List UInt8 × HPackTable) :=
  let name := entry.name.wire
  if entry.name = .token .cookie then encodeCookies hit entry.value table
  else
    let policy := if useAutoPolicy then policyFor name else .withIndexing
    encodeHpackField hit name entry.value policy (table.search hit name entry.value) table

/-- `operator()`: the bytes of a block. -/
def encode (headers : List HeaderEntry) (table : HPackTable) :
    Except CodecError (List UInt8 × HPackTable) :=
  encodeEach (encodeEntry hit useAutoPolicy) headers table

/-- `HpackTableSizeUpdateAdaptor`. -/
def encodeTableSizeUpdate (size : UInt32) (table : HPackTable) :
    Except CodecError (List UInt8 × HPackTable) := do
  let table := DynamicTable.setMaxSize hit size.toNat table
  let bytes ← encodeIntView 32 size.toNat 5 PrefixHelper.dynamicTableSizeUpdate.bits
  return (bytes, table)

end HpackEncoder

/-! ### The decoder -/

def detectRepresentation (byte : UInt8) : PrefixHelper :=
  if byte &&& PrefixHelper.indexedField.bits ≠ 0 then .indexedField
  else if byte &&& PrefixHelper.literalWithIndexing.bits ≠ 0 then .literalWithIndexing
  else if byte &&& PrefixHelper.dynamicTableSizeUpdate.bits ≠ 0 then .dynamicTableSizeUpdate
  else if byte &&& PrefixHelper.literalNeverIndexed.bits ≠ 0 then .literalNeverIndexed
  else .literalWithoutIndexing

/-- The representation that starts with a byte, and if its name is new. -/
def detect (byte : UInt8) : PrefixHelper × Bool :=
  let helper := detectRepresentation byte
  (helper, helper ≠ .indexedField && helper ≠ .dynamicTableSizeUpdate &&
    byte &&& ~~~helper.bits = 0)

/-- `DecodeStringAdaptor`: the string, and the number of bytes that were read. -/
def decodeString (W : ℕ) (data : List UInt8) : Except CodecError (Text × ℕ) :=
  match data with
  | [] => .error .truncatedData
  | first :: _ => do
    let length ← decodeIntAdaptor 32 0 7 data
    let consumed := length.consumed + length.value
    let body := (data.drop length.consumed).take length.value
    if 65536 < length.value then throw (.stringDecode "exceeds kMaxLength")
    else if data.length < consumed then throw (.stringDecode "truncated string data")
    else if first &&& 0x80 ≠ 0 then (Huffman.decode W body).map (·, consumed)
    else return (body, consumed)

namespace HpackDecoder

variable (hit : Layout) (W : ℕ)

/-- What the decoding of a field does: the bytes it reads, the headers it adds to the target and
the table it leaves. -/
structure Step where
  consumed : ℕ
  headers : List HeaderEntry
  table : HPackTable

/-- The header that is added for an entry of a table. -/
def addField (entry : HeaderEntry) : HeaderEntry := entry.plain

/-- The header of an entry that was inserted, as it is stored. -/
def inserted (name : FieldName) (value : Text) (table : HPackTable) :
    Except CodecError (List HeaderEntry × HPackTable) := do
  let (position, table) ← table.insert hit name value
  return ((table.entry? ((staticSize + 1 + position) % 2 ^ 64)).toList.map addField, table)

variable (indexable : Bool)

def pushHelper (idx : ℕ) (value : Text) (table : HPackTable) :
    Except CodecError (List HeaderEntry × HPackTable) :=
  if idx = 0 then .error (.invalidIndex idx)
  else do
    let entry ← table.entry idx
    if indexable then inserted hit entry.name value table
    else return ([⟨entry.name, value⟩], table)

def pushHelperNew (name value : Text) (table : HPackTable) :
    Except CodecError (List HeaderEntry × HPackTable) :=
  if name = [] then .error .emptyName
  else if indexable then inserted hit (.text name) value table
  else .ok ([⟨.text name, value⟩], table)

def decodeIndexed (data : List UInt8) (table : HPackTable) : Except CodecError Step := do
  let idx ← decodeIntAdaptor 32 0 7 data
  if idx.value = 0 then throw (.invalidIndex idx.value)
  else
    let entry ← table.entry idx.value
    return ⟨idx.consumed, [addField entry], table⟩

/-- An index and a value. -/
def decodeNamed (prefixBits : ℕ) (data : List UInt8) (table : HPackTable) :
    Except CodecError Step := do
  let idx ← decodeIntAdaptor 32 0 prefixBits data
  let (value, valueSize) ← decodeString W (data.drop idx.consumed)
  let (headers, table) ← pushHelper hit indexable idx.value value table
  return ⟨idx.consumed + valueSize, headers, table⟩

/-- A name and a value. -/
def decodeNew (data : List UInt8) (table : HPackTable) :
    Except CodecError Step := do
  let (name, nameSize) ← decodeString W (data.drop 1)
  let (value, valueSize) ← decodeString W (data.drop (nameSize + 1))
  let (headers, table) ← pushHelperNew hit indexable name value table
  return ⟨nameSize + 1 + valueSize, headers, table⟩

def decodeIncremental : List UInt8 → HPackTable → Except CodecError Step := decodeNamed hit W true 6

def decodeIncrementalNew : List UInt8 → HPackTable → Except CodecError Step := decodeNew hit W true

def decodeLiteral (prefixBits : ℕ) : List UInt8 → HPackTable → Except CodecError Step :=
  decodeNamed hit W false prefixBits

def decodeLiteralNew : List UInt8 → HPackTable → Except CodecError Step := decodeNew hit W false

def decodeTableSizeUpdate (data : List UInt8) (table : HPackTable) : Except CodecError Step := do
  let newSize ← decodeIntAdaptor 32 0 5 data
  if table.maxSize < newSize.value then throw (.tableSize newSize.value table.maxSize)
  else return ⟨newSize.consumed, [], DynamicTable.setMaxSize hit newSize.value table⟩

def decodeField (first : UInt8) (data : List UInt8) (table : HPackTable) : Except CodecError Step :=
  match detect first with
  | (.indexedField, _) => decodeIndexed data table
  | (.literalWithIndexing, isNew) =>
    if isNew then decodeIncrementalNew hit W data table else decodeIncremental hit W data table
  | (.literalNeverIndexed, isNew) | (.literalWithoutIndexing, isNew) =>
    if isNew then decodeLiteralNew hit W data table else decodeLiteral hit W 4 data table
  | (.dynamicTableSizeUpdate, _) => decodeTableSizeUpdate hit data table

/-- The loop makes a round for each byte, and does nothing in those that are left at the end. -/
def decodeFrom : ℕ → List UInt8 → HPackTable → Except CodecError (List HeaderEntry × HPackTable)
  | 0, _, table => .ok ([], table)
  | _ + 1, [], table => .ok ([], table)
  | rounds + 1, first :: rest, table => do
    let step ← decodeField hit W first (first :: rest) table
    let (headers, table) ← decodeFrom rounds ((first :: rest).drop step.consumed) step.table
    return (step.headers ++ headers, table)

/-- `operator()`: the headers that a block adds to the target. -/
def decode (data : List UInt8) (table : HPackTable) :
    Except CodecError (List HeaderEntry × HPackTable) :=
  decodeFrom hit W data.length data table

end HpackDecoder

end Congelado.Codec
