import Congelado.Lib.Fallible
import Congelado.Codec.Hpack

/-!
# The wire format

A block is a sequence of representations. Here is what each of them is: the bytes the encoder
writes for it, what it does to the encoder's table (`record`) and what it does to the decoder's
(`perform`), and that the decoder finds it in the bytes (`decodeFrom_write`).

The bytes tell the representations apart as long as the lengths of the strings fit in their 32
bits and no index is `0`, which stands for a new name (`Framed`).
-/

namespace Congelado.Codec

open List HpackDecoder Fallible

variable {policy : EncodePolicy}

/-! ### Integers and strings -/

/-- An integer on the wire. Its first byte has the flags, and low bits of `0` only for `0`. -/
theorem exists_int {n data : ℕ} (hn : 1 ≤ n ∧ n ≤ 8) (hdata : data < 2 ^ 32) (flags : UInt8) :
    ∃ first tail, encodeIntView 32 data n flags = .ok (first :: tail) ∧
      first.toNat >>> n = flags.toNat >>> n ∧ (first.toNat % 2 ^ n = 0 → data = 0) ∧
      ∀ trailing, decodeIntAdaptor 32 0 n (first :: tail ++ trailing) =
        .ok ⟨data, 0, (first :: tail).length⟩ := by
  obtain ⟨first, tail, hencode, -, hflags, hread⟩ := readInt_encodeInt (by decide) hn hdata flags
  refine ⟨first, tail, (encodeIntView_eq hdata n flags).trans hencode, hflags, fun hzero => ?_,
    fun trailing => (decodeIntAdaptor_eq ..).trans (hread 0 adaptorTexts trailing)⟩
  have hlow : first.toNat &&& ((1 <<< n) - 1) = 0 := by
    rw [mask_eq, Nat.and_two_pow_sub_one_eq_mod, hzero]
  have hmask : 0 < (1 <<< n) - 1 := by
    have htwo : 2 ^ 1 ≤ 2 ^ n := Nat.pow_le_pow_right (by decide) hn.1
    rw [mask_eq]
    omega
  have hvalue := hread 0 adaptorTexts []
  unfold readInt at hvalue
  rw [if_neg (by omega)] at hvalue
  simp only [cons_append, hlow, if_pos hmask, Except.ok.injEq, DecodeIntResult.mk.injEq]
    at hvalue
  exact hvalue.1.symm

/-- The limit of the decoder. -/
def accept (value : Text) : Except CodecError Text :=
  if 65536 < value.length then .error (.stringDecode "exceeds kMaxLength") else .ok value

theorem accept_eq {value value' : Text} (h : accept value = .ok value') : value = value' := by
  rw [accept] at h
  split_ifs at h
  exact Except.ok.inj h

theorem high_bit : ∀ {b : UInt8}, b.toNat >>> 7 = 0 → b &&& 0x80 = 0 := by
  decide +kernel

/-- A string on the wire. -/
theorem exists_string {value : Text} (h : value.length < 2 ^ 32) :
    ∃ bytes, HpackEncoder.encodeString value = .ok bytes ∧
      ∀ W trailing, decodeString W (bytes ++ trailing) = (accept value).map (·, bytes.length) := by
  obtain ⟨first, tail, hencode, hflags, -, hread⟩ :=
    exists_int (n := 7) (by decide) h (0x00 : UInt8)
  refine ⟨first :: tail ++ value, ?_, fun W trailing => ?_⟩
  · rw [HpackEncoder.encodeString, Nat.mod_eq_of_lt h, hencode]
    rfl
  · have hraw : ¬first &&& 0x80 ≠ 0 := not_not.2 (high_bit hflags)
    have hlen : ¬(first :: tail ++ value ++ trailing).length <
        (first :: tail).length + value.length := by
      simp only [length_append]
      omega
    have hbody : ((first :: tail ++ value ++ trailing).drop (first :: tail).length).take
        value.length = value := by
      rw [append_assoc, drop_left, take_left]
    have hint := hread (value ++ trailing)
    rw [← append_assoc] at hint
    unfold decodeString accept
    simp only [cons_append] at hint hlen hbody ⊢
    rw [hint]
    simp only [ok_bind, if_neg hlen, if_neg hraw, hbody]
    split_ifs
    · rfl
    · show Except.ok (value, (first :: tail).length + value.length) = .ok (value, _)
      rw [← length_append]
      rfl

/-! ### Representations -/

namespace EncodePolicy

def helper : EncodePolicy → PrefixHelper
  | withIndexing => .literalWithIndexing
  | withoutIndexing => .literalWithoutIndexing
  | neverIndexed => .literalNeverIndexed

def prefixSize : EncodePolicy → ℕ
  | withIndexing => 6
  | withoutIndexing => 4
  | neverIndexed => 4

/-- What the decoder does with such a literal. -/
def indexable : EncodePolicy → Bool
  | withIndexing => true
  | withoutIndexing => false
  | neverIndexed => false

theorem indexable_eq_false (h : policy ≠ .withIndexing) :
    policy.indexable = false := by
  cases policy <;> first | rfl | contradiction

end EncodePolicy

inductive Representation
  | indexed (idx : ℕ)
  | named (policy : EncodePolicy) (idx : ℕ) (value : Text)
  | fresh (policy : EncodePolicy) (name value : Text)
  | resize (size : ℕ)

namespace Representation

/-- The bytes of the encoder. -/
def bytes : Representation → Except CodecError (List UInt8)
  | indexed idx => HpackEncoder.encodeIndexed idx
  | named policy idx value => HpackEncoder.literal policy.helper policy.prefixSize idx value
  | fresh policy name value => HpackEncoder.literalNew policy.helper name value
  | resize size => encodeIntView 32 size 5 PrefixHelper.dynamicTableSizeUpdate.bits

/-- The table of the encoder, after it has written the bytes. -/
def record (hit : Layout) (table : HPackTable) : Representation → Except CodecError HPackTable
  | indexed _ => .ok table
  | named .withIndexing idx value => do
    let entry ← table.entry idx
    let (_, table) ← table.insert hit entry.name value
    return table
  | named _ _ _ => .ok table
  | fresh .withIndexing name value => do
    let (_, table) ← table.insert hit (.text name) value
    return table
  | fresh _ _ _ => .ok table
  | resize size => .ok (DynamicTable.setMaxSize hit size table)

/-- A literal that is not indexed leaves the table as it is. -/
theorem record_of_ne {hit : Layout} {table : HPackTable} (h : policy ≠ .withIndexing) :
    (∀ idx value, (named policy idx value).record hit table = .ok table) ∧
      ∀ name value, (fresh policy name value).record hit table = .ok table := by
  cases policy with
  | withIndexing => contradiction
  | withoutIndexing | neverIndexed => exact ⟨fun _ _ => rfl, fun _ _ => rfl⟩

/-- The headers and the table of the decoder, after it has read the bytes. -/
def perform (hit : Layout) (table : HPackTable) :
    Representation → Except CodecError (List HeaderEntry × HPackTable)
  | indexed idx =>
    if idx = 0 then .error (.invalidIndex idx)
    else do
      let entry ← table.entry idx
      return ([addField entry], table)
  | named policy idx value => do
    let value ← accept value
    pushHelper hit policy.indexable idx value table
  | fresh policy name value => do
    let name ← accept name
    let value ← accept value
    pushHelperNew hit policy.indexable name value table
  | resize size =>
    if table.maxSize < size then .error (.tableSize size table.maxSize)
    else .ok ([], DynamicTable.setMaxSize hit size table)

/-- The numbers fit in their 32 bits, and an index is not `0`. -/
def Framed : Representation → Prop
  | indexed idx => idx < 2 ^ 32
  | named _ idx value => (0 < idx ∧ idx < 2 ^ 32) ∧ value.length < 2 ^ 32
  | fresh _ name value => name.length < 2 ^ 32 ∧ value.length < 2 ^ 32
  | resize size => size < 2 ^ 32

end Representation

/-! ### Telling them apart -/

section Detect

variable (policy)

theorem detect_named : ∀ {b : UInt8},
    b.toNat >>> policy.prefixSize = policy.helper.bits.toNat >>> policy.prefixSize →
      b.toNat % 2 ^ policy.prefixSize ≠ 0 → detect b = (policy.helper, false) := by
  cases policy <;> decide +kernel

theorem detect_fresh :
    detect policy.helper.bits = (policy.helper, true) := by
  cases policy <;> decide

variable {policy}

theorem detect_indexed : ∀ {b : UInt8},
    b.toNat >>> 7 = PrefixHelper.indexedField.bits.toNat >>> 7 → (detect b).1 = .indexedField := by
  decide +kernel

theorem detect_resize : ∀ {b : UInt8},
    b.toNat >>> 5 = PrefixHelper.dynamicTableSizeUpdate.bits.toNat >>> 5 →
      (detect b).1 = .dynamicTableSizeUpdate := by
  decide +kernel

end Detect

/-! ### Reading what was written -/

section Read

variable {hit : Layout} {W : ℕ} {table : HPackTable} {first : UInt8} {data : List UInt8}
    {reps : List Representation} {bytes : List UInt8}

theorem decodeField_of_indexed (h : (detect first).1 = .indexedField) :
    decodeField hit W first data table = decodeIndexed data table := by
  rcases hdetect : detect first with ⟨helper, isNew⟩
  rw [hdetect] at h
  obtain rfl : helper = _ := h
  rw [decodeField, hdetect]

theorem decodeField_of_resize (h : (detect first).1 = .dynamicTableSizeUpdate) :
    decodeField hit W first data table =
      decodeTableSizeUpdate hit data table := by
  rcases hdetect : detect first with ⟨helper, isNew⟩
  rw [hdetect] at h
  obtain rfl : helper = _ := h
  rw [decodeField, hdetect]

theorem decodeField_of_named (h : detect first = (policy.helper, false)) :
    decodeField hit W first data table =
      decodeNamed hit W policy.indexable policy.prefixSize data table := by
  rw [decodeField, h]
  cases policy <;> rfl

theorem decodeField_of_fresh (h : detect first = (policy.helper, true)) :
    decodeField hit W first data table =
      decodeNew hit W policy.indexable data table := by
  rw [decodeField, h]
  cases policy <;> rfl

/-- What the decoder does with a representation, and the bytes it has read then. -/
def readAs (hit : Layout) (table : HPackTable) (rep : Representation) (consumed : ℕ) :
    Except CodecError HpackDecoder.Step :=
  (rep.perform hit table).map fun (headers, table) => ⟨consumed, headers, table⟩

/-- The decoder reads a representation as what it is, whatever comes after it. -/
theorem exists_write (rep : Representation) (h : rep.Framed) :
    ∃ first tail, rep.bytes = .ok (first :: tail) ∧
      ∀ hit W table trailing,
        decodeField hit W first (first :: tail ++ trailing) table =
          readAs hit table rep (first :: tail).length := by
  cases rep with
  | indexed idx =>
    obtain ⟨first, tail, hencode, hbits, -, hread⟩ :=
      exists_int (n := 7) (by decide) h PrefixHelper.indexedField.bits
    refine ⟨first, tail, hencode, fun hit W table trailing => ?_⟩
    rw [decodeField_of_indexed (detect_indexed hbits), decodeIndexed, hread, ok_bind,
      readAs, Representation.perform]
    split_ifs
    · rfl
    · cases table.entry idx <;> rfl
  | resize size =>
    obtain ⟨first, tail, hencode, hbits, -, hread⟩ :=
      exists_int (n := 5) (by decide) h PrefixHelper.dynamicTableSizeUpdate.bits
    refine ⟨first, tail, hencode, fun hit W table trailing => ?_⟩
    rw [decodeField_of_resize (detect_resize hbits), decodeTableSizeUpdate, hread,
      ok_bind, readAs, Representation.perform]
    split_ifs <;> rfl
  | named policy idx value =>
    obtain ⟨⟨hpos, hidx⟩, hvalue⟩ := h
    have hsize : 1 ≤ policy.prefixSize ∧ policy.prefixSize ≤ 8 := by cases policy <;> decide
    obtain ⟨first, tail, hencode, hbits, hzero, hread⟩ := exists_int hsize hidx policy.helper.bits
    obtain ⟨string, hstring, hdecode⟩ := exists_string hvalue
    refine ⟨first, tail ++ string, ?_, fun hit W table trailing => ?_⟩
    · rw [Representation.bytes, HpackEncoder.literal, hencode, hstring]
      rfl
    -- the low bits are not all 0, so the byte is not taken for a new name
    · have hdetect := detect_named policy hbits fun hlow => hpos.ne' (hzero hlow)
      have hsplit : first :: (tail ++ string) ++ trailing = first :: tail ++
          (string ++ trailing) := by
        simp
      have hlen : (first :: tail).length + string.length = (first :: (tail ++ string)).length := by
        rw [← length_append, cons_append]
      rw [decodeField_of_named hdetect, decodeNamed, hsplit, hread, ok_bind,
        drop_left, hdecode, readAs, Representation.perform]
      cases accept value with
      | error e => rfl
      | ok value =>
        simp only [Except.map, ok_bind, hlen]
        cases pushHelper hit policy.indexable idx value table <;> rfl
  | fresh policy name value =>
    obtain ⟨name', hname, hdecodeName⟩ := exists_string h.1
    obtain ⟨value', hvalue, hdecodeValue⟩ := exists_string h.2
    refine ⟨policy.helper.bits, name' ++ value', ?_, fun hit W table trailing => ?_⟩
    · rw [Representation.bytes, HpackEncoder.literalNew, hname, hvalue]
      rfl
    -- the index is 0, and both strings follow
    · have hsplit : policy.helper.bits :: (name' ++ value') ++ trailing =
          policy.helper.bits :: (name' ++ (value' ++ trailing)) := by simp
      have hdrop : (policy.helper.bits :: (name' ++ (value' ++ trailing))).drop
          (name'.length + 1) = value' ++ trailing := by simp
      have hlen : name'.length + 1 + value'.length =
          (policy.helper.bits :: (name' ++ value')).length := by
        rw [length_cons, length_append, add_right_comm]
      rw [decodeField_of_fresh (detect_fresh policy), decodeNew, hsplit,
        drop_one, tail_cons, hdecodeName, readAs, Representation.perform]
      cases accept name with
      | error e => rfl
      | ok name =>
        simp only [Except.map, ok_bind, hdrop, hdecodeValue]
        cases accept value with
        | error e => rfl
        | ok value =>
          simp only [ok_bind, hlen]
          cases pushHelperNew hit policy.indexable name value table <;> rfl

/-- The representations one after the other. -/
def performAll (hit : Layout) (table : HPackTable) :
    List Representation → Except CodecError (List HeaderEntry × HPackTable)
  | [] => .ok ([], table)
  | rep :: reps => do
    let (headers, table) ← rep.perform hit table
    let (others, table) ← performAll hit table reps
    return (headers ++ others, table)

theorem performAll_cons {rep : Representation}
    {headers others : List HeaderEntry} {table' table'' : HPackTable}
    (h : rep.perform hit table = .ok (headers, table'))
    (hrest : performAll hit table' reps = .ok (others, table'')) :
    performAll hit table (rep :: reps) = .ok (headers ++ others, table'') := by
  rw [performAll, h]
  simp only [ok_bind, hrest]
  rfl

/-- The bytes are those of the representations. -/
inductive Written : List Representation → List UInt8 → Prop
  | nil : Written [] []
  | cons {rep : Representation} {reps : List Representation} {bytes rest : List UInt8} :
    rep.Framed → rep.bytes = .ok bytes → Written reps rest → Written (rep :: reps) (bytes ++ rest)

/-- The decoder performs the representations that were written. -/
theorem Written.decodeFrom
    (h : Written reps bytes) {rounds : ℕ} (hrounds : bytes.length ≤ rounds) (table : HPackTable) :
    decodeFrom hit W rounds bytes table = performAll hit table reps := by
  induction h generalizing rounds table with
  | nil => cases rounds <;> rfl
  | @cons rep reps bytes rest hframed hbytes _ ih =>
    obtain ⟨first, tail, hwrite, hread⟩ := exists_write rep hframed
    obtain rfl : first :: tail = bytes := Except.ok.inj (hwrite.symm.trans hbytes)
    rw [length_append, length_cons] at hrounds
    obtain ⟨rounds, rfl⟩ := Nat.exists_eq_add_of_le' (show 1 ≤ rounds by omega)
    rw [performAll, cons_append, HpackDecoder.decodeFrom, ← cons_append, hread, readAs]
    cases rep.perform hit table with
    | error e => rfl
    | ok result =>
      simp only [Except.map, ok_bind, drop_left, ih (show rest.length ≤ rounds by omega)]

theorem Written.decode (h : Written reps bytes)
    (table : HPackTable) : decode hit W bytes table = performAll hit table reps :=
  h.decodeFrom le_rfl table

end Read

end Congelado.Codec
