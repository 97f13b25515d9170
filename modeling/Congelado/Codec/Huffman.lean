import Congelado.Lib.PrefixCode
import Congelado.Codec.Integers

/-!
# Huffman coding

The string coding of HPACK: a table of the codes of the 256 bytes and of `EOS`, an encoder that
shifts codes into an accumulator of 64 bits and takes one byte out for each symbol, and a decoder
that reads `W` bits at a time through a table of transitions. The table is built from the trie of
the codes.

The encoder is lazy in the source. `encodeFrom` is the sequence of the bytes that are read from
it, and `none` stands for an undefined shift: by a negative number of bits or by 64 bits and more.
-/

namespace Congelado.Codec.Huffman

open PrefixCode

/-! ### The codes -/

def symEos : ℕ := 256

/-- Value and length of the code of each symbol. -/
def codes : List (ℕ × ℕ) :=
  [(0x1FF8, 13), (0x7FFFD8, 23), (0xFFFFFE2, 28), (0xFFFFFE3, 28), (0xFFFFFE4, 28), (0xFFFFFE5, 28),
   (0xFFFFFE6, 28), (0xFFFFFE7, 28), (0xFFFFFE8, 28), (0xFFFFEA, 24), (0x3FFFFFFC, 30),
   (0xFFFFFE9, 28), (0xFFFFFEA, 28), (0x3FFFFFFD, 30), (0xFFFFFEB, 28), (0xFFFFFEC, 28),
   (0xFFFFFED, 28), (0xFFFFFEE, 28), (0xFFFFFEF, 28), (0xFFFFFF0, 28), (0xFFFFFF1, 28),
   (0xFFFFFF2, 28), (0x3FFFFFFE, 30), (0xFFFFFF3, 28), (0xFFFFFF4, 28), (0xFFFFFF5, 28),
   (0xFFFFFF6, 28), (0xFFFFFF7, 28), (0xFFFFFF8, 28), (0xFFFFFF9, 28), (0xFFFFFFA, 28),
   (0xFFFFFFB, 28), (0x14, 6), (0x3F8, 10), (0x3F9, 10), (0xFFA, 12), (0x1FF9, 13), (0x15, 6),
   (0xF8, 8), (0x7FA, 11), (0x3FA, 10), (0x3FB, 10), (0xF9, 8), (0x7FB, 11), (0xFA, 8), (0x16, 6),
   (0x17, 6), (0x18, 6), (0x0, 5), (0x1, 5), (0x2, 5), (0x19, 6), (0x1A, 6), (0x1B, 6), (0x1C, 6),
   (0x1D, 6), (0x1E, 6), (0x1F, 6), (0x5C, 7), (0xFB, 8), (0x7FFC, 15), (0x20, 6), (0xFFB, 12),
   (0x3FC, 10), (0x1FFA, 13), (0x21, 6), (0x5D, 7), (0x5E, 7), (0x5F, 7), (0x60, 7), (0x61, 7),
   (0x62, 7), (0x63, 7), (0x64, 7), (0x65, 7), (0x66, 7), (0x67, 7), (0x68, 7), (0x69, 7),
   (0x6A, 7), (0x6B, 7), (0x6C, 7), (0x6D, 7), (0x6E, 7), (0x6F, 7), (0x70, 7), (0x71, 7),
   (0x72, 7), (0xFC, 8), (0x73, 7), (0xFD, 8), (0x1FFB, 13), (0x7FFF0, 19), (0x1FFC, 13),
   (0x3FFC, 14), (0x22, 6), (0x7FFD, 15), (0x3, 5), (0x23, 6), (0x4, 5), (0x24, 6), (0x5, 5),
   (0x25, 6), (0x26, 6), (0x27, 6), (0x6, 5), (0x74, 7), (0x75, 7), (0x28, 6), (0x29, 6), (0x2A, 6),
   (0x7, 5), (0x2B, 6), (0x76, 7), (0x2C, 6), (0x8, 5), (0x9, 5), (0x2D, 6), (0x77, 7), (0x78, 7),
   (0x79, 7), (0x7A, 7), (0x7B, 7), (0x7FFE, 15), (0x7FC, 11), (0x3FFD, 14), (0x1FFD, 13),
   (0xFFFFFFC, 28), (0xFFFE6, 20), (0x3FFFD2, 22), (0xFFFE7, 20), (0xFFFE8, 20), (0x3FFFD3, 22),
   (0x3FFFD4, 22), (0x3FFFD5, 22), (0x7FFFD9, 23), (0x3FFFD6, 22), (0x7FFFDA, 23), (0x7FFFDB, 23),
   (0x7FFFDC, 23), (0x7FFFDD, 23), (0x7FFFDE, 23), (0xFFFFEB, 24), (0x7FFFDF, 23), (0xFFFFEC, 24),
   (0xFFFFED, 24), (0x3FFFD7, 22), (0x7FFFE0, 23), (0xFFFFEE, 24), (0x7FFFE1, 23), (0x7FFFE2, 23),
   (0x7FFFE3, 23), (0x7FFFE4, 23), (0x1FFFDC, 21), (0x3FFFD8, 22), (0x7FFFE5, 23), (0x3FFFD9, 22),
   (0x7FFFE6, 23), (0x7FFFE7, 23), (0xFFFFEF, 24), (0x3FFFDA, 22), (0x1FFFDD, 21), (0xFFFE9, 20),
   (0x3FFFDB, 22), (0x3FFFDC, 22), (0x7FFFE8, 23), (0x7FFFE9, 23), (0x1FFFDE, 21), (0x7FFFEA, 23),
   (0x3FFFDD, 22), (0x3FFFDE, 22), (0xFFFFF0, 24), (0x1FFFDF, 21), (0x3FFFDF, 22), (0x7FFFEB, 23),
   (0x7FFFEC, 23), (0x1FFFE0, 21), (0x1FFFE1, 21), (0x3FFFE0, 22), (0x1FFFE2, 21), (0x7FFFED, 23),
   (0x3FFFE1, 22), (0x7FFFEE, 23), (0x7FFFEF, 23), (0xFFFEA, 20), (0x3FFFE2, 22), (0x3FFFE3, 22),
   (0x3FFFE4, 22), (0x7FFFF0, 23), (0x3FFFE5, 22), (0x3FFFE6, 22), (0x7FFFF1, 23), (0x3FFFFE0, 26),
   (0x3FFFFE1, 26), (0xFFFEB, 20), (0x7FFF1, 19), (0x3FFFE7, 22), (0x7FFFF2, 23), (0x3FFFE8, 22),
   (0x1FFFFEC, 25), (0x3FFFFE2, 26), (0x3FFFFE3, 26), (0x3FFFFE4, 26), (0x7FFFFDE, 27),
   (0x7FFFFDF, 27), (0x3FFFFE5, 26), (0xFFFFF1, 24), (0x1FFFFED, 25), (0x7FFF2, 19), (0x1FFFE3, 21),
   (0x3FFFFE6, 26), (0x7FFFFE0, 27), (0x7FFFFE1, 27), (0x3FFFFE7, 26), (0x7FFFFE2, 27),
   (0xFFFFF2, 24), (0x1FFFE4, 21), (0x1FFFE5, 21), (0x3FFFFE8, 26), (0x3FFFFE9, 26),
   (0xFFFFFFD, 28), (0x7FFFFE3, 27), (0x7FFFFE4, 27), (0x7FFFFE5, 27), (0xFFFEC, 20),
   (0xFFFFF3, 24), (0xFFFED, 20), (0x1FFFE6, 21), (0x3FFFE9, 22), (0x1FFFE7, 21), (0x1FFFE8, 21),
   (0x7FFFF3, 23), (0x3FFFEA, 22), (0x3FFFEB, 22), (0x1FFFFEE, 25), (0x1FFFFEF, 25), (0xFFFFF4, 24),
   (0xFFFFF5, 24), (0x3FFFFEA, 26), (0x7FFFF4, 23), (0x3FFFFEB, 26), (0x7FFFFE6, 27),
   (0x3FFFFEC, 26), (0x3FFFFED, 26), (0x7FFFFE7, 27), (0x7FFFFE8, 27), (0x7FFFFE9, 27),
   (0x7FFFFEA, 27), (0x7FFFFEB, 27), (0xFFFFFFE, 28), (0x7FFFFEC, 27), (0x7FFFFED, 27),
   (0x7FFFFEE, 27), (0x7FFFFEF, 27), (0x7FFFFF0, 27), (0x3FFFFEE, 26), (0x3FFFFFFF, 30)]

/-- The bits of the code of a symbol. -/
def code (sym : Fin 257) : List Bool :=
  let entry := codes.getD sym (0, 0)
  bits entry.2 entry.1

/-- The symbol of a byte. -/
def symbol (byte : UInt8) : Fin 257 := ⟨byte.toNat, byte.toNat_lt.trans (by decide)⟩

/-! ### The trie -/

structure TrieNode where
  child : Bool → Option ℕ := fun _ => none
  sym : Option ℕ := none

/-- `m_nodes`, up to `m_size`. -/
abbrev Trie := List TrieNode

namespace Trie

variable (trie : Trie) (node : ℕ)

def child (bit : Bool) : Option ℕ := trie[node]?.bind fun n => n.child bit

def sym : Option ℕ := trie[node]?.bind TrieNode.sym

def setChild (bit : Bool) (next : ℕ) : Trie :=
  trie.modify node fun n => { n with child := Function.update n.child bit (some next) }

def setSym (node sym : ℕ) : Trie :=
  trie.modify node fun n => { n with sym := some sym }

/-- The loop over the bits of one code, from the node `cur` on. -/
def threadBits : Trie → ℕ → List Bool → Trie × ℕ
  | trie, cur, [] => (trie, cur)
  | trie, cur, bit :: rest =>
    match trie.child cur bit with
    | some next => threadBits trie next rest
    | none => threadBits (trie.setChild cur bit trie.length ++ [{}]) trie.length rest

def threadCode (trie : Trie) (sym : ℕ) (code : List Bool) : Trie :=
  let threaded := threadBits trie 0 code
  threaded.1.setSym threaded.2 sym

end Trie

def buildTrie : Trie :=
  (List.finRange 257).foldl (fun trie (sym : Fin 257) => trie.threadCode sym (code sym)) [{}]

/-! ### The table of transitions -/

/-- The walk of one chunk through the trie: the node it ends at, and the last symbol that was
passed. `none` if there is no such code. -/
def walkBits (trie : Trie) : List Bool → ℕ → Option ℕ → Option (ℕ × Option ℕ)
  | [], cur, emitted => some (cur, emitted)
  | bit :: rest, cur, emitted =>
    match trie.child cur bit with
    | none => none
    | some next =>
      match trie.sym next with
      | none => walkBits trie rest next emitted
      | some sym => walkBits trie rest 0 (some sym)

/-- The state of `build_table`. A row is allocated for each node that is put in the queue, so the
row of a node is its place in the queue. -/
structure Rows where
  queue : List ℕ
  entries : List (ℕ × ℕ)

/-- What is written for a walk, given the queue with its node. -/
def slotEntry (queue : List ℕ) : Option (ℕ × Option ℕ) → ℕ × ℕ
  | none => (0xFFFF, 0xFFFF)
  | some (cur, emitted) => (queue.idxOf cur, emitted.getD 0xFFFE)

def enqueue (queue : List ℕ) : Option (ℕ × Option ℕ) → List ℕ
  | none => queue
  | some (cur, _) => if cur ∈ queue then queue else queue ++ [cur]

def fillSlot (trie : Trie) (W start : ℕ) (rows : Rows) (chunk : ℕ) : Rows :=
  let walk := walkBits trie (bits W chunk) start none
  let queue := enqueue rows.queue walk
  ⟨queue, rows.entries ++ [slotEntry queue walk]⟩

def fillRow (trie : Trie) (W : ℕ) (rows : Rows) (start : ℕ) : Rows :=
  (List.range (2 ^ W)).foldl (fillSlot trie W start) rows

/-- The breadth-first search, from the row `head` on. No node is put in the queue twice, so the
number of nodes bounds it. -/
def fillRows (trie : Trie) (W : ℕ) : ℕ → ℕ → Rows → Rows
  | 0, _, rows => rows
  | fuel + 1, head, rows =>
    match rows.queue[head]? with
    | none => rows
    | some start => fillRows trie W fuel (head + 1) (fillRow trie W rows start)

/-- The rows of `build_table`, next state and symbol for each chunk. -/
def buildTable (W : ℕ) : Rows := fillRows buildTrie W buildTrie.length 0 ⟨[0], []⟩

/-! ### The encoder -/

/-- The bytes that are taken from the accumulator while the rest of the input is shifted in. One
symbol is pulled in for each byte that is read. -/
def encodeFrom : List UInt8 → ℕ → ℕ → Option (List UInt8)
  | [], acc, shift =>
    if shift = 0 then some []
    else if 8 < shift then none
    else
      let pad := 8 - shift
      some [UInt8.ofNat (((acc <<< pad) % 2 ^ 64) ||| ((1 <<< pad) - 1))]
  | byte :: rest, acc, shift =>
    let entry := codes.getD (symbol byte) (0, 0)
    let acc := ((acc <<< entry.2) % 2 ^ 64) ||| entry.1
    let shift := shift + entry.2
    if shift < 8 ∨ 64 ≤ shift - 8 then none
    else (encodeFrom rest acc (shift - 8)).map (UInt8.ofNat (acc >>> (shift - 8)) :: ·)

/-- `HuffmanEncodeView`. -/
def encode (data : List UInt8) : Option (List UInt8) := encodeFrom data 0 0

/-! ### The decoder -/

/-- The chunks of a byte. -/
def chunks (W : ℕ) (byte : UInt8) : List ℕ :=
  (List.range (8 / W)).map fun idx => (2 ^ W - 1) &&& (byte.toNat >>> (8 - W * (idx + 1)))

/-- `HuffmanDecodeView`: the characters that are read from it. The chunks of a byte are consumed
before the next byte is looked at, so the input never ends within a byte. -/
def decodeFrom (W : ℕ) (entries : List (ℕ × ℕ)) :
    List ℕ → ℕ → ℕ → Except CodecError (List UInt8)
  | [], fsm, paddingBits =>
    if fsm ≠ 0 ∧ 7 < paddingBits then .error (.huffmanDecode "truncated Huffman stream") else .ok []
  | chunk :: rest, fsm, paddingBits =>
    let entry := entries.getD (fsm * 2 ^ W + chunk) (0, 0)
    if entry.2 < 256 then (decodeFrom W entries rest entry.1 0).map (UInt8.ofNat entry.2 :: ·)
    else if entry.2 = 0xFFFF then .error (.huffmanDecode "invalid Huffman code")
    else if entry.2 = symEos then .error (.huffmanDecode "EOS symbol in stream")
    else decodeFrom W entries rest entry.1 (paddingBits + W)

def decode (W : ℕ) (data : List UInt8) : Except CodecError (List UInt8) :=
  decodeFrom W (buildTable W).entries (data.flatMap (chunks W)) 0 0

end Congelado.Codec.Huffman
