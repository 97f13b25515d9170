import Congelado.Lib.Base128

/-!
# Prefix integers

The integers of HPACK: the low `prefixSize` bits of a first byte, whose other bits are flags, and
if these are all ones, what is left of the number in groups of seven bits. There are two
encoders, `encode_int` and the lazy `EncodeIntView`, and two decoders, `decode_int` and
`DecodeIntAdaptor`, which differ in the texts of their errors.

The target type is an unsigned integer type of `w` bits. The decoders check the shift and the
sum for an overflow, but a group is shifted in `w` bits before it is added, so that the bits of
the last group that are shifted out are not noticed (`Spills`).
-/

namespace Congelado.Codec

open Base128 List

variable {data : List UInt8}

inductive CodecError
  | invalidArgument (message : String)
  | truncatedData
  | integerDecode (message : String)
  | stringDecode (message : String)
  | huffmanDecode (message : String)
  | invalidIndex (index : ℕ)
  | emptyName
  | tableSize (requested limit : ℕ)
  | outOfRange (message : String)
  | runtime (message : String)
  deriving DecidableEq

/-! ### Encoding -/

def prefixRange : CodecError := .invalidArgument "prefix must be in range [1,8] (inclusive)"

/-- The loop that writes the groups. It ends before the bits of the type are used up, so the
width serves as its bound. -/
def writeGroups : ℕ → ℕ → List UInt8
  | 0, data => [UInt8.ofNat data]
  | fuel + 1, data =>
    if 0x7F < data then UInt8.ofNat (data % 0x80 + 0x80) :: writeGroups fuel (data >>> 7)
    else [UInt8.ofNat data]

def encodeInt (w data prefixSize : ℕ) (prefixData : UInt8) : Except CodecError (List UInt8) :=
  if prefixSize < 1 ∨ 8 < prefixSize then .error prefixRange
  else
    let maxPrefix := (1 <<< prefixSize) - 1
    let mask := UInt8.ofNat maxPrefix
    if data < maxPrefix then .ok [(prefixData &&& ~~~mask) ||| UInt8.ofNat data]
    else .ok ((prefixData ||| mask) :: writeGroups w (data - maxPrefix))

/-- The loop of `compute_size`, with the same bound. -/
def countGroups : ℕ → ℕ → ℕ → ℕ
  | 0, _, size => size
  | fuel + 1, data, size => if 0x7F < data then countGroups fuel (data >>> 7) (size + 1) else size

def computeSize (w data prefixSize : ℕ) : ℕ :=
  let maxPrefix := (1 <<< prefixSize) - 1
  if data < maxPrefix then 1 else countGroups w (data - maxPrefix) 2

/-- `EncodeIntView::Iterator`: the byte at a position. -/
def viewByte (data prefixSize : ℕ) (prefixData : UInt8) (pos : ℕ) : UInt8 :=
  let maxPrefix := (1 <<< prefixSize) - 1
  let mask := UInt8.ofNat maxPrefix
  if pos = 0 then
    if data < maxPrefix then (prefixData &&& ~~~mask) ||| UInt8.ofNat data else prefixData ||| mask
  else
    let remainder := (data - maxPrefix) >>> (7 * (pos - 1))
    if 0 < remainder >>> 7 then UInt8.ofNat (remainder &&& 0x7F) ||| 0x80
    else UInt8.ofNat (remainder &&& 0x7F)

/-- `EncodeIntView`. -/
def encodeIntView (w data prefixSize : ℕ) (prefixData : UInt8) : Except CodecError (List UInt8) :=
  if prefixSize < 1 ∨ 8 < prefixSize then .error prefixRange
  else .ok ((List.range (computeSize w data prefixSize)).map (viewByte data prefixSize prefixData))

/-! ### Decoding -/

structure DecodeIntResult where
  value : ℕ
  prefixBits : ℕ
  consumed : ℕ := 0
  deriving DecidableEq

/-- The texts of the errors of a decoder. -/
structure IntegerTexts where
  truncated : String
  shift : String
  sum : String

/-- The loop over the groups: the value and the number of bytes that were read. -/
def readGroups (w : ℕ) (texts : IntegerTexts) :
    List UInt8 → ℕ → ℕ → ℕ → Except CodecError (ℕ × ℕ)
  | [], _, _, _ => .error (.integerDecode texts.truncated)
  | byte :: rest, bitShift, value, consumed =>
    if w ≤ bitShift then .error (.integerDecode texts.shift)
    else
      let shifted := ((byte.toNat &&& 0x7F) <<< bitShift) % 2 ^ w
      if 2 ^ w ≤ value + shifted then .error (.integerDecode texts.sum)
      else if byte.toNat &&& 0x80 = 0 then .ok (value + shifted, consumed + 1)
      else readGroups w texts rest (bitShift + 7) (value + shifted) (consumed + 1)

/-- The body of a decoder. The flags are kept if `prefixOffset` is not `0`. -/
def readInt (w prefixOffset prefixSize : ℕ) (texts : IntegerTexts) (data : List UInt8) :
    Except CodecError DecodeIntResult :=
  if prefixSize < 1 ∨ 8 < prefixSize then .error prefixRange
  else
    match data with
    | [] => .error .truncatedData
    | firstByte :: rest =>
      let prefixBits := if 0 < prefixOffset then firstByte.toNat >>> prefixSize else 0
      let mask := (1 <<< prefixSize) - 1
      let value := firstByte.toNat &&& mask
      if value < mask then .ok ⟨value, prefixBits, 1⟩
      else
        match readGroups w texts rest 0 value 1 with
        | .error e => .error e
        | .ok (value, consumed) => .ok ⟨value, prefixBits, consumed⟩

def atomTexts : IntegerTexts := ⟨"truncated continuation", "overflow", "overflow"⟩

/-- `decode_int`: the result, and the position behind the bytes that were read. -/
def decodeInt (w prefixOffset : ℕ) (data : List UInt8) (pos prefixSize : ℕ) :
    Except CodecError (DecodeIntResult × ℕ) :=
  match readInt w prefixOffset prefixSize atomTexts (data.drop pos) with
  | .error e => .error e
  | .ok result => .ok (⟨result.value, result.prefixBits, 0⟩, pos + result.consumed)

def adaptorTexts : IntegerTexts :=
  ⟨"truncated continuation: missing final byte", "overflow: integer exceeds type capacity",
    "overflow: accumulation wrapped around"⟩

/-- The loop of `DecodeIntAdaptor`: a search for the last byte, which takes the shift from the
number of bytes that were consumed. -/
def findTerminal (w : ℕ) : List UInt8 → ℕ → ℕ → Except CodecError (ℕ × ℕ)
  | [], _, _ => .error (.integerDecode adaptorTexts.truncated)
  | byte :: rest, value, consumed =>
    let shift := (consumed - 1) * 7
    if w ≤ shift then .error (.integerDecode adaptorTexts.shift)
    else
      let shifted := ((byte.toNat &&& 0x7F) <<< shift) % 2 ^ w
      if 2 ^ w ≤ value + shifted then .error (.integerDecode adaptorTexts.sum)
      else if byte.toNat &&& 0x80 = 0 then .ok (value + shifted, consumed + 1)
      else findTerminal w rest (value + shifted) (consumed + 1)

/-- `DecodeIntAdaptor`. -/
def decodeIntAdaptor (w prefixOffset prefixSize : ℕ) (data : List UInt8) :
    Except CodecError DecodeIntResult :=
  if prefixSize < 1 ∨ 8 < prefixSize then .error prefixRange
  else
    match data with
    | [] => .error .truncatedData
    | firstByte :: rest =>
      let prefixBits := if 0 < prefixOffset then firstByte.toNat >>> prefixSize else 0
      let mask := (1 <<< prefixSize) - 1
      let value := firstByte.toNat &&& mask
      if value < mask then .ok ⟨value, prefixBits, 1⟩
      else (findTerminal w rest value 1).map fun r => ⟨r.1, prefixBits, r.2⟩

/-- The two loops take the same shifts. -/
theorem findTerminal_eq (w : ℕ) (data : List UInt8) (value k : ℕ) :
    findTerminal w data value (k + 1) = readGroups w adaptorTexts data (k * 7) value (k + 1) := by
  induction data generalizing value k with
  | nil => rfl
  | cons byte rest ih =>
    rw [findTerminal, readGroups, ← Nat.succ_mul]
    simp only [Nat.add_sub_cancel, ih, Nat.succ_eq_add_one]

/-- The decoders differ in the texts of their errors only. -/
theorem decodeIntAdaptor_eq (w prefixOffset n : ℕ) (data : List UInt8) :
    decodeIntAdaptor w prefixOffset n data = readInt w prefixOffset n adaptorTexts data := by
  unfold decodeIntAdaptor readInt
  cases data with
  | nil => rfl
  | cons byte rest =>
    simp only [findTerminal_eq w rest _ 0, Nat.zero_mul]
    cases readGroups w adaptorTexts rest 0 (byte.toNat &&& ((1 <<< n) - 1)) 1 <;> rfl

/-! ### Bits -/

section Bits

theorem and_low (x : ℕ) : x &&& 0x7F = x % 128 := Nat.and_two_pow_sub_one_eq_mod x 7

theorem and_high_eq_zero_iff (b : UInt8) : b.toNat &&& 0x80 = 0 ↔ b.toNat < 128 := by
  have hall : ∀ x : Fin 256, x.val &&& 0x80 = 0 ↔ x.val < 128 := by decide +kernel
  exact hall ⟨b.toNat, b.toNat_lt⟩

theorem mask_eq (n : ℕ) : (1 <<< n) - 1 = 2 ^ n - 1 := by rw [Nat.one_shiftLeft]

theorem shift_group {w s : ℕ} (h : s ≤ w) (x : ℕ) :
    (x <<< s) % 2 ^ w = x % 2 ^ (w - s) * 2 ^ s := by
  obtain ⟨d, rfl⟩ := Nat.exists_eq_add_of_le h
  rw [Nat.shiftLeft_eq, Nat.add_sub_cancel_left, Nat.pow_add, Nat.mul_comm (2 ^ s),
    Nat.mul_mod_mul_right]

/-- The first byte with the value in the prefix. -/
theorem first_small {n data : ℕ} (hn : n ≤ 8) (hdata : data < 2 ^ n) (flags : UInt8) :
    ((flags &&& ~~~UInt8.ofNat ((1 <<< n) - 1)) ||| UInt8.ofNat data).toNat =
      2 ^ n * (flags.toNat / 2 ^ n) + data := by
  have hall : ∀ n : Fin 9, ∀ x : Fin 256,
      (UInt8.ofNat x.val &&& ~~~UInt8.ofNat ((1 <<< n.val) - 1)).toNat =
        2 ^ n.val * (x.val / 2 ^ n.val) := by decide +kernel
  have hflags := hall ⟨n, by omega⟩ ⟨flags.toNat, flags.toNat_lt⟩
  rw [UInt8.ofNat_toNat] at hflags
  have hlt : data < 256 := hdata.trans_le (Nat.pow_le_pow_right (by decide) hn)
  rw [UInt8.toNat_or, hflags, UInt8.toNat_ofNat_of_lt' hlt, Nat.two_pow_add_eq_or_of_lt hdata]

/-- The first byte with a prefix of ones. -/
theorem first_large {n : ℕ} (hn : n ≤ 8) (flags : UInt8) :
    (flags ||| UInt8.ofNat ((1 <<< n) - 1)).toNat =
      2 ^ n * (flags.toNat / 2 ^ n) + (2 ^ n - 1) := by
  have hall : ∀ n : Fin 9, ∀ x : Fin 256,
      (UInt8.ofNat x.val ||| UInt8.ofNat ((1 <<< n.val) - 1)).toNat =
        2 ^ n.val * (x.val / 2 ^ n.val) + (2 ^ n.val - 1) := by decide +kernel
  have hflags := hall ⟨n, by omega⟩ ⟨flags.toNat, flags.toNat_lt⟩
  rwa [UInt8.ofNat_toNat] at hflags

/-- The value and the flags of a first byte. -/
theorem first_parts {n r : ℕ} {b flags : UInt8} (h : b.toNat = 2 ^ n * (flags.toNat / 2 ^ n) + r)
    (hr : r < 2 ^ n) : b.toNat % 2 ^ n = r ∧ b.toNat >>> n = flags.toNat >>> n := by
  constructor
  · rw [h, Nat.mul_add_mod, Nat.mod_eq_of_lt hr]
  · rw [Nat.shiftRight_eq_div_pow, Nat.shiftRight_eq_div_pow, h, Nat.mul_add_div
      (Nat.two_pow_pos n), Nat.div_eq_of_lt hr, Nat.add_zero]

end Bits

/-! ### What is read -/

section Read

variable {w : ℕ} {texts : IntegerTexts}

/-- A group that is followed by another one is not cut off. -/
theorem payload_mod {w s : ℕ} (h : s + 7 ≤ w) (b : UInt8) :
    payload b % 2 ^ (w - s) = payload b := by
  apply Nat.mod_eq_of_lt
  calc payload b < 2 ^ 7 := payload_lt b
    _ ≤ 2 ^ (w - s) := Nat.pow_le_pow_right (by decide) (by omega)

/-- One round of the loop, in the terms of the groups. -/
theorem readGroups_cons (b : UInt8) (data : List UInt8) (s v c : ℕ) :
    readGroups w texts (b :: data) s v c =
      if w ≤ s then .error (.integerDecode texts.shift)
      else if 2 ^ w ≤ v + payload b % 2 ^ (w - s) * 2 ^ s then .error (.integerDecode texts.sum)
      else if b.toNat < 128 then .ok (v + payload b % 2 ^ (w - s) * 2 ^ s, c + 1)
      else readGroups w texts data (s + 7) (v + payload b % 2 ^ (w - s) * 2 ^ s) (c + 1) := by
  by_cases hshift : w ≤ s
  · rw [readGroups, if_pos hshift, if_pos hshift]
  · have hgroup : ((b.toNat &&& 0x7F) <<< s) % 2 ^ w = payload b % 2 ^ (w - s) * 2 ^ s := by
      rw [and_low, shift_group (by omega), payload]
    rw [readGroups, if_neg hshift, if_neg hshift]
    simp only [hgroup, and_high_eq_zero_iff]

/-- The loop reads the groups of one number. Of the last one it keeps the bits that are left in
the type. -/
theorem readGroups_eq_ok_iff {s v c v' c' : ℕ} :
    readGroups w texts data s v c = .ok (v', c') ↔
      ∃ front last rest, Splits data front last rest ∧ s + 7 * front.length < w ∧
        v' = v + value front * 2 ^ s +
          payload last % 2 ^ (w - (s + 7 * front.length)) * 2 ^ (s + 7 * front.length) ∧
        v' < 2 ^ w ∧ c' = c + front.length + 1 := by
  induction data generalizing s v c with
  | nil =>
    constructor
    · intro h
      exact nomatch h
    · rintro ⟨front, last, rest, hsplit, -⟩
      exact absurd hsplit.eq.symm (by simp)
  | cons b data ih =>
    rw [readGroups_cons]
    by_cases hb : b.toNat < 128
    · -- the last group
      rw [if_pos hb]
      constructor
      · intro h
        split_ifs at h with hshift hsum
        obtain ⟨rfl, rfl⟩ := Prod.mk.inj (Except.ok.inj h)
        refine ⟨[], b, data, ⟨rfl, by simp, hb⟩, by simpa using hshift, by simp, by omega, rfl⟩
      · rintro ⟨front, last, rest, hsplit, hlt, hv, hv', hc⟩
        obtain ⟨rfl, rfl, rfl⟩ := hsplit.eq_nil hb
        simp only [value_nil, length_nil, mul_zero, add_zero, zero_mul] at hlt hv hc
        rw [if_neg (by omega), if_neg (by omega), hv, hc]
    · have hlength (front : List UInt8) :
          s + 7 * (b :: front).length = s + 7 + 7 * front.length := by
        rw [length_cons]
        omega
      rw [if_neg hb]
      constructor
      · intro h
        split_ifs at h with hshift hsum
        obtain ⟨front, last, rest, hsplit, hlt, hv, hv', hc⟩ := ih.1 h
        refine ⟨b :: front, last, rest, hsplit.cons (Nat.le_of_not_lt hb), ?_, ?_, hv', ?_⟩
        · rwa [hlength]
        · rw [hlength, hv, payload_mod (by omega), value_cons, pow_add 2 s 7]
          ring
        · rw [hc, length_cons]
          omega
      · rintro ⟨_, last, rest, hcons, hlt, hv, hv', hc⟩
        obtain ⟨front, rfl, hsplit⟩ := hcons.tail (Nat.le_of_not_lt hb)
        rw [hlength] at hlt hv
        have hsum : v' = v + payload b * 2 ^ s + value front * 2 ^ (s + 7) +
            payload last % 2 ^ (w - (s + 7 + 7 * front.length)) * 2 ^
              (s + 7 + 7 * front.length) := by
          rw [hv, value_cons, pow_add 2 s 7]
          ring
        rw [payload_mod (by omega), if_neg (by omega), if_neg (by omega)]
        refine ih.2 ⟨front, last, rest, hsplit, hlt, hsum, hv', ?_⟩
        rw [hc, length_cons]
        omega

/-- What a decoder returns for a first byte with room in its prefix, and for one without. -/
theorem readInt_eq_ok_iff {prefixOffset n : ℕ} (hn : 1 ≤ n ∧ n ≤ 8) {b : UInt8}
    {r : DecodeIntResult} :
    readInt w prefixOffset n texts (b :: data) = .ok r ↔
      r.prefixBits = (if 0 < prefixOffset then b.toNat >>> n else 0) ∧
        (b.toNat % 2 ^ n < 2 ^ n - 1 ∧ r.value = b.toNat % 2 ^ n ∧ r.consumed = 1 ∨
          b.toNat % 2 ^ n = 2 ^ n - 1 ∧ ∃ front last rest, Splits data front last rest ∧
            7 * front.length < w ∧
            r.value = 2 ^ n - 1 + value front +
              payload last % 2 ^ (w - 7 * front.length) * 2 ^ (7 * front.length) ∧
            r.value < 2 ^ w ∧ r.consumed = front.length + 2) := by
  have hrange : ¬(n < 1 ∨ 8 < n) := by omega
  rw [readInt, if_neg hrange]
  simp only [mask_eq, Nat.and_two_pow_sub_one_eq_mod]
  by_cases hsmall : b.toNat % 2 ^ n < 2 ^ n - 1
  · rw [if_pos hsmall]
    constructor
    · intro h
      cases h
      exact ⟨rfl, .inl ⟨hsmall, rfl, rfl⟩⟩
    · rintro ⟨hbits, ⟨-, hv, hc⟩ | ⟨hfull, -⟩⟩
      · rw [← hbits, ← hv, ← hc]
      · omega
  -- the prefix is full, and the groups behind it are added
  · have hfull : b.toNat % 2 ^ n = 2 ^ n - 1 := by
      omega
    rw [if_neg hsmall, hfull]
    constructor
    · intro h
      split at h
      · exact nomatch h
      case h_2 v c hread =>
        cases h
        obtain ⟨front, last, rest, hsplit, hlt, hv, hv', hc⟩ := readGroups_eq_ok_iff.mp hread
        simp only [Nat.zero_add, Nat.pow_zero, Nat.mul_one] at hlt hv
        exact ⟨rfl, .inr ⟨rfl, front, last, rest, hsplit, hlt, hv, hv', by dsimp only; omega⟩⟩
    · rintro ⟨hbits, ⟨hlt, -⟩ | ⟨-, front, last, rest, hsplit, hlt, hv, hv', hc⟩⟩
      · omega
      · have hread : readGroups w texts data 0 (2 ^ n - 1) 1 = .ok (r.value, r.consumed) := by
          refine readGroups_eq_ok_iff.mpr ⟨front, last, rest, hsplit, ?_, ?_, hv', by omega⟩
          · rw [Nat.zero_add]
            exact hlt
          · rw [Nat.zero_add, Nat.pow_zero, Nat.mul_one]
            exact hv
        rw [hread, ← hbits]

end Read

/-! ### No value is reduced -/

section Exact

variable {front : List UInt8} {last : UInt8}

/-- `bytes` are one whole prefix integer, and it denotes `v`. -/
inductive Denotes (n : ℕ) : List UInt8 → ℕ → Prop
  | small (b : UInt8) (h : b.toNat % 2 ^ n < 2 ^ n - 1) : Denotes n [b] (b.toNat % 2 ^ n)
  | large (b : UInt8) (front : List UInt8) (last : UInt8) (hb : b.toNat % 2 ^ n = 2 ^ n - 1)
      (more : ∀ x ∈ front, 128 ≤ x.toNat) (done : last.toNat < 128) :
      Denotes n (b :: (front ++ [last])) (2 ^ n - 1 + value (front ++ [last]))

/-- What is read off `data` is denoted by the bytes it was read from, and an integer that does
not fit in the type is an error. -/
structure ReadsExactly (w n : ℕ) (data : List UInt8) (read : Except CodecError (ℕ × ℕ)) : Prop where
  denoted : ∀ v consumed, read = .ok (v, consumed) → Denotes n (data.take consumed) v
  refused : ∀ v consumed, Denotes n (data.take consumed) v → 2 ^ w ≤ v → ∃ e, read = .error e

/-- The last group of the integer that `data` begins with has bits beyond the type, and without
them the integer fits. -/
def Spills (w n : ℕ) (data : List UInt8) : Prop :=
  ∃ b front last rest, data = b :: (front ++ last :: rest) ∧ b.toNat % 2 ^ n = 2 ^ n - 1 ∧
    (∀ x ∈ front, 128 ≤ x.toNat) ∧ last.toNat < 128 ∧ 7 * front.length < w ∧
    2 ^ (w - 7 * front.length) ≤ payload last ∧
    2 ^ n - 1 + value front +
      payload last % 2 ^ (w - 7 * front.length) * 2 ^ (7 * front.length) < 2 ^ w

/-- A prefix integer at the front of `data`, cut into its bytes. -/
theorem Denotes.cases_take {n c v : ℕ} (h : Denotes n (data.take c) v) :
    (∃ b rest, data = b :: rest ∧ b.toNat % 2 ^ n < 2 ^ n - 1 ∧ v = b.toNat % 2 ^ n) ∨
      ∃ b tail front last rest, data = b :: tail ∧ b.toNat % 2 ^ n = 2 ^ n - 1 ∧
        Splits tail front last rest ∧ v = 2 ^ n - 1 + value (front ++ [last]) := by
  have hdata := take_append_drop c data
  generalize data.take c = bytes at h hdata
  cases h with
  | small b h => exact .inl ⟨b, data.drop c, hdata.symm, h, rfl⟩
  | large b front last hb more done =>
    refine .inr ⟨b, front ++ last :: data.drop c, front, last, data.drop c, ?_, hb,
      ⟨rfl, more, done⟩, rfl⟩
    rw [cons_append, append_assoc, singleton_append] at hdata
    exact hdata.symm

theorem Denotes.of_splits {n : ℕ} {b : UInt8} {tail rest : List UInt8}
    (hb : b.toNat % 2 ^ n = 2 ^ n - 1) (h : Splits tail front last rest) :
    Denotes n ((b :: tail).take (front.length + 2)) (2 ^ n - 1 + value (front ++ [last])) := by
  have htake : (b :: tail).take (front.length + 2) = b :: (front ++ [last]) := by
    rw [h.eq, take_succ_cons, take_append]
    simp
  rw [htake]
  exact .large b front last hb h.more h.done

/-- Bytes begin with at most one prefix integer. -/
theorem Denotes.unique {n c c' v v' : ℕ} (h : Denotes n (data.take c) v)
    (h' : Denotes n (data.take c') v') : v = v' := by
  obtain ⟨b, rest, rfl, hb, rfl⟩ | ⟨b, tail, front, last, rest, rfl, hb, hsplit, rfl⟩ :=
    h.cases_take
  · obtain ⟨b', _, heq, -, rfl⟩ | ⟨b', _, _, _, _, heq, hb', -⟩ := h'.cases_take
    · rw [(List.cons.inj heq).1]
    · obtain rfl := (List.cons.inj heq).1
      omega
  · obtain ⟨b', _, heq, hb', -⟩ | ⟨b', _, front', last', _, heq, -, hsplit', rfl⟩ := h'.cases_take
    · obtain rfl := (List.cons.inj heq).1
      omega
    · obtain ⟨-, rfl⟩ := List.cons.inj heq
      obtain ⟨rfl, rfl, -⟩ := hsplit.unique hsplit'
      rfl

theorem value_eq_of_fits {w v : ℕ} (h : payload last < 2 ^ (w - 7 * front.length)) :
    v + value front + payload last % 2 ^ (w - 7 * front.length) * 2 ^ (7 * front.length) =
      v + value (front ++ [last]) := by
  rw [Nat.mod_eq_of_lt h, value_concat, Nat.pow_mul]
  ring

/-- Bits that are cut off make a difference. -/
theorem value_ne_of_spills {w v : ℕ} (h : 2 ^ (w - 7 * front.length) ≤ payload last) :
    v + value front + payload last % 2 ^ (w - 7 * front.length) * 2 ^ (7 * front.length) <
      v + value (front ++ [last]) := by
  have hmod : payload last % 2 ^ (w - 7 * front.length) < payload last :=
    (Nat.mod_lt _ (Nat.two_pow_pos _)).trans_le h
  have hmul := Nat.mul_lt_mul_of_pos_right hmod (Nat.two_pow_pos (7 * front.length))
  rw [value_concat, mul_comm (128 ^ _), show 128 = 2 ^ 7 from rfl, ← pow_mul]
  omega

/-- Without a spill, what is read is what the bytes denote. -/
theorem denotes_of_readInt {w n prefixOffset : ℕ} {texts : IntegerTexts} (hw : 8 ≤ w)
    (hn : 1 ≤ n ∧ n ≤ 8) (hspills : ¬Spills w n data) {r : DecodeIntResult}
    (h : readInt w prefixOffset n texts data = .ok r) :
    Denotes n (data.take r.consumed) r.value ∧ r.value < 2 ^ w := by
  cases data with
  | nil =>
    rw [readInt, if_neg (by omega)] at h
    exact nomatch h
  | cons b tail =>
    obtain ⟨-, ⟨hsmall, hv, hc⟩ | ⟨hb, front, last, rest, hsplit, hlt, hv, hfits, hc⟩⟩ :=
      (readInt_eq_ok_iff hn).1 h
    · -- an integer in the prefix fits in every type
      have hpow : 2 ^ n ≤ 2 ^ w := Nat.pow_le_pow_right (by decide) (by omega)
      rw [hv, hc]
      exact ⟨.small b hsmall, by omega⟩
    · have hlast : payload last < 2 ^ (w - 7 * front.length) := by
        by_contra hspill
        exact hspills ⟨b, front, last, rest, congrArg _ hsplit.eq, hb, hsplit.more, hsplit.done,
          hlt, by omega, hv ▸ hfits⟩
      rw [value_eq_of_fits hlast] at hv
      rw [hc, hv]
      exact ⟨.of_splits hb hsplit, hv ▸ hfits⟩

/-- A decoder is exact but for the integers whose last group spills. -/
theorem readInt_exact_iff {w n prefixOffset : ℕ} (texts : IntegerTexts) (hw : 8 ≤ w)
    (hn : 1 ≤ n ∧ n ≤ 8) (data : List UInt8) :
    ReadsExactly w n data
        ((readInt w prefixOffset n texts data).map fun r => (r.value, r.consumed)) ↔
      ¬Spills w n data := by
  constructor
  · rintro hexact ⟨b, front, last, rest, rfl, hb, hmore, hdone, hlt, hspill, hfits⟩
    -- the integer is read without the bits that spill, and so is not what the bytes denote
    have hsplit : Splits (front ++ last :: rest) front last rest := ⟨rfl, hmore, hdone⟩
    set bits := if 0 < prefixOffset then b.toNat >>> n else 0 with hbits
    have hread : readInt w prefixOffset n texts (b :: (front ++ last :: rest)) =
        .ok ⟨_, bits, front.length + 2⟩ :=
      (readInt_eq_ok_iff hn).2 ⟨hbits, .inr ⟨hb, front, last, rest, hsplit, hlt, rfl, hfits, rfl⟩⟩
    have hden := hexact.denoted _ _ (congrArg (Except.map _) hread)
    exact absurd (hden.unique (.of_splits hb hsplit)) (value_ne_of_spills hspill).ne
  · intro hspills
    cases hread : readInt w prefixOffset n texts data with
    | error e => exact ⟨nofun, fun _ _ _ _ => ⟨e, rfl⟩⟩
    | ok r =>
      obtain ⟨hden, hlt⟩ := denotes_of_readInt hw hn hspills hread
      refine ⟨fun v c h => ?_, fun v c hden' hlarge => ?_⟩
      · obtain ⟨rfl, rfl⟩ := Prod.mk.inj (Except.ok.inj h)
        exact hden
      · have := hden'.unique hden
        omega

/-- Both decoders return exactly what the bytes denote, unless the last group has bits beyond
the type and the integer fits without them. -/
theorem decoders_exact_iff (w prefixOffset n : ℕ) (hw : 8 ≤ w) (hn : 1 ≤ n ∧ n ≤ 8)
    (data : List UInt8) (pos : ℕ) :
    (ReadsExactly w n (data.drop pos)
        ((decodeInt w prefixOffset data pos n).map fun r => (r.1.value, r.2 - pos)) ↔
      ¬Spills w n (data.drop pos)) ∧
    (ReadsExactly w n data
        ((decodeIntAdaptor w prefixOffset n data).map fun r => (r.value, r.consumed)) ↔
      ¬Spills w n data) := by
  refine ⟨?_, decodeIntAdaptor_eq w prefixOffset n data ▸ readInt_exact_iff _ hw hn data⟩
  have hmap : (decodeInt w prefixOffset data pos n).map (fun r => (r.1.value, r.2 - pos)) =
      (readInt w prefixOffset n atomTexts (data.drop pos)).map fun r => (r.value, r.consumed) := by
    rw [decodeInt]
    cases readInt w prefixOffset n atomTexts (data.drop pos) with
    | error e => rfl
    | ok r =>
      show Except.ok (r.value, pos + r.consumed - pos) = .ok (r.value, r.consumed)
      rw [Nat.add_sub_cancel_left]
  rw [hmap]
  exact readInt_exact_iff _ hw hn _

/-- An integer of `32` bits behind a prefix of five. -/
theorem decoders_exact_long :
    ReadsExactly 32 5 [0x1F, 0x9A, 0x0A]
      ((decodeIntAdaptor 32 0 5 [0x1F, 0x9A, 0x0A]).map fun r => (r.value, r.consumed)) := by
  refine (decoders_exact_iff 32 0 5 (by decide) (by decide) [0x1F, 0x9A, 0x0A] 0).2.2 ?_
  rintro ⟨b, front, last, rest, hdata, -, hmore, hdone, -, hspill, -⟩
  obtain ⟨rfl, htail⟩ := List.cons.inj hdata
  have hsplit : Splits [0x9A, 0x0A] front last rest := ⟨htail, hmore, hdone⟩
  obtain ⟨rfl, rfl, rfl⟩ := hsplit.unique
    (⟨rfl, by decide +kernel, by decide⟩ : Splits _ [0x9A] 0x0A [])
  exact absurd hspill (by decide +kernel)

/-- The integer `2 ^ 32 + 31` is read as `31`. -/
theorem spilled_integer_reduced :
    decodeInt 32 0 [0x1F, 0x80, 0x80, 0x80, 0x80, 0x10] 0 5 = .ok (⟨31, 0, 0⟩, 6) ∧
      decodeIntAdaptor 32 0 5 [0x1F, 0x80, 0x80, 0x80, 0x80, 0x10] = .ok ⟨31, 0, 6⟩ ∧
      Denotes 5 [0x1F, 0x80, 0x80, 0x80, 0x80, 0x10] (2 ^ 32 + 31) := by
  refine ⟨by decide +kernel, by decide +kernel, ?_⟩
  have hvalue : 2 ^ 5 - 1 + value [0x80, 0x80, 0x80, 0x80, 0x10] = 2 ^ 32 + 31 := by decide +kernel
  exact .large 0x1F [0x80, 0x80, 0x80, 0x80] 0x10 (by decide) (by decide +kernel) (by decide)

end Exact

/-! ### The round trip -/

section RoundTrip

/-- The groups that are written are those of the number, with no empty one at the end. -/
theorem writeGroups_splits {fuel data : ℕ} (h : data < 2 ^ (7 * (fuel + 1))) :
    ∃ front last, Splits (writeGroups fuel data) front last [] ∧ value (front ++ [last]) = data ∧
      (front ≠ [] → 128 ^ front.length ≤ data) ∧
      ∀ size, countGroups fuel data size = size + front.length := by
  have hbyte {data : ℕ} (h : data < 128) : (UInt8.ofNat data).toNat = data :=
    UInt8.toNat_ofNat_of_lt' (h.trans (by decide))
  have hlast {data : ℕ} (h : data < 128) : Splits [UInt8.ofNat data] [] (UInt8.ofNat data) [] ∧
      value ([] ++ [UInt8.ofNat data]) = data := by
    refine ⟨⟨rfl, by simp, by rwa [hbyte h]⟩, ?_⟩
    rw [value_concat, payload_eq_toNat (by rwa [hbyte h]), hbyte h]
    simp
  induction fuel generalizing data with
  | zero =>
    obtain ⟨hsplit, hvalue⟩ := hlast h
    exact ⟨[], _, hsplit, hvalue, by simp, fun _ => rfl⟩
  | succ fuel ih =>
    by_cases hmore : 0x7F < data
    -- one group of seven bits is written, and the quotient is left
    · have hdiv : data / 128 < 2 ^ (7 * (fuel + 1)) := by
        rwa [Nat.div_lt_iff_lt_mul (by decide), show 128 = 2 ^ 7 from rfl, ← Nat.pow_add]
      have hshift : data >>> 7 = data / 128 := Nat.shiftRight_eq_div_pow data 7
      obtain ⟨front, last, hsplit, hvalue, hmin, hcount⟩ := ih hdiv
      have hgroup : (UInt8.ofNat (data % 0x80 + 0x80)).toNat = data % 128 + 128 :=
        UInt8.toNat_ofNat_of_lt' (by change _ < 256; omega)
      refine ⟨UInt8.ofNat (data % 0x80 + 0x80) :: front, last, ?_, ?_, ?_, ?_⟩
      · rw [writeGroups, if_pos hmore, hshift]
        exact hsplit.cons (by omega)
      · rw [cons_append, value_cons, hvalue, payload, hgroup]
        omega
      · intro _
        rw [length_cons, pow_succ]
        by_cases hfront : front = []
        · subst hfront
          rw [length_nil]
          omega
        · have := hmin hfront
          omega
      · intro size
        rw [countGroups, if_pos hmore, hshift, hcount, length_cons]
        omega
    · obtain ⟨hsplit, hvalue⟩ := hlast (show data < 128 by omega)
      refine ⟨[], _, ?_, hvalue, by simp, ?_⟩
      · rwa [writeGroups, if_neg hmore]
      · intro size
        rw [countGroups, if_neg hmore]
        rfl

/-- The bytes of an integer: as many as announced, with the flags in the first one, and both
decoders read the integer back. -/
theorem readInt_encodeInt {w n data : ℕ} (hw : 8 ≤ w) (hn : 1 ≤ n ∧ n ≤ 8) (hdata : data < 2 ^ w)
    (flags : UInt8) :
    ∃ first tail, encodeInt w data n flags = .ok (first :: tail) ∧
      (first :: tail).length = computeSize w data n ∧ first.toNat >>> n = flags.toNat >>> n ∧
      ∀ (prefixOffset : ℕ) (texts : IntegerTexts) (trailing : List UInt8),
        readInt w prefixOffset n texts (first :: tail ++ trailing) =
          .ok ⟨data, if 0 < prefixOffset then flags.toNat >>> n
            else 0, (first :: tail).length⟩ := by
  have hrange : ¬(n < 1 ∨ 8 < n) := by omega
  have hpos := Nat.two_pow_pos n
  by_cases hsmall : data < 2 ^ n - 1
  · have hfirst := first_small hn.2 (show data < 2 ^ n by omega) flags
    set first := (flags &&& ~~~UInt8.ofNat ((1 <<< n) - 1)) ||| UInt8.ofNat data
    obtain ⟨hmod, hdiv⟩ := first_parts hfirst (by omega)
    refine ⟨first, [], ?_, ?_, hdiv, ?_⟩
    · rw [encodeInt, if_neg hrange]
      exact if_pos (by rwa [mask_eq])
    · rw [computeSize]
      exact (if_pos (by rwa [mask_eq])).symm
    · intro prefixOffset texts trailing
      refine (readInt_eq_ok_iff hn).2 ⟨by rw [hdiv], .inl ⟨?_, hmod.symm, rfl⟩⟩
      rwa [hmod]
  · have hfirst := first_large hn.2 flags
    set first := flags ||| UInt8.ofNat ((1 <<< n) - 1)
    obtain ⟨hmod, hdiv⟩ := first_parts hfirst (by omega)
    have hbound : data - (2 ^ n - 1) < 2 ^ (7 * (w + 1)) :=
      (Nat.sub_le _ _).trans_lt (hdata.trans_le (Nat.pow_le_pow_right (by decide) (by omega)))
    obtain ⟨front, last, hsplit, hvalue, hmin, hcount⟩ := writeGroups_splits hbound
    refine ⟨first, writeGroups w (data - (2 ^ n - 1)), ?_, ?_, hdiv, ?_⟩
    · rw [encodeInt, if_neg hrange]
      simp only [mask_eq, if_neg hsmall, first]
    · rw [computeSize]
      simp only [mask_eq, if_neg hsmall, hcount, length_cons, hsplit.eq, length_append,
        length_nil]
      omega
    · intro prefixOffset texts trailing
      have htrail : Splits (writeGroups w (data - (2 ^ n - 1)) ++ trailing) front last trailing :=
        ⟨by rw [hsplit.eq, append_assoc, singleton_append], hsplit.more, hsplit.done⟩
      -- the groups before the last one, and so its position, are those of a value of the type
      have hpow : 2 ^ (7 * front.length) ≤ data ∨ front = [] := by
        by_cases hfront : front = []
        · exact .inr hfront
        · left
          rw [pow_mul]
          exact (hmin hfront).trans (Nat.sub_le _ _)
      have hlt : 7 * front.length < w := by
        obtain hle | rfl := hpow
        · exact (Nat.pow_lt_pow_iff_right (by decide)).mp (hle.trans_lt hdata)
        · rw [length_nil]
          omega
      have hlast : payload last < 2 ^ (w - 7 * front.length) := by
        have hle : 128 ^ front.length * payload last ≤ data := by
          rw [value_concat] at hvalue
          omega
        refine Nat.lt_of_mul_lt_mul_left (a := 2 ^ (7 * front.length)) ?_
        rw [← Nat.pow_add, Nat.add_sub_of_le hlt.le, Nat.pow_mul]
        exact hle.trans_lt hdata
      have hread : data = 2 ^ n - 1 + value front +
          payload last % 2 ^ (w - 7 * front.length) * 2 ^ (7 * front.length) := by
        rw [value_eq_of_fits hlast, hvalue]
        omega
      refine (readInt_eq_ok_iff hn).2 ⟨by rw [hdiv], .inr ⟨hmod, front, last, trailing, htrail,
        hlt, hread, hdata, ?_⟩⟩
      rw [length_cons, hsplit.eq, length_append]
      rfl

/-- Reading a written integer back, at any position and with any bytes behind it. -/
theorem decodeInt_encodeInt (w prefixOffset n data : ℕ) (hw : 8 ≤ w) (hn : 1 ≤ n ∧ n ≤ 8)
    (hdata : data < 2 ^ w) (flags : UInt8) (leading trailing : List UInt8) :
    ∃ first tail, encodeInt w data n flags = .ok (first :: tail) ∧
      (first :: tail).length = computeSize w data n ∧ first.toNat >>> n = flags.toNat >>> n ∧
      decodeInt w prefixOffset (leading ++ (first :: tail ++ trailing)) leading.length n =
        .ok (⟨data, if 0 < prefixOffset then flags.toNat >>> n else 0, 0⟩,
          leading.length + (first :: tail).length) := by
  obtain ⟨first, tail, hencode, hsize, hflags, hread⟩ := readInt_encodeInt hw hn hdata flags
  refine ⟨first, tail, hencode, hsize, hflags, ?_⟩
  rw [decodeInt, drop_left, hread]

theorem decodeInt_encodeInt_1337 :
    ∃ first tail, encodeInt 32 1337 5 0x20 = .ok (first :: tail) ∧
      (first :: tail).length = computeSize 32 1337 5 ∧
      first.toNat >>> 5 = (0x20 : UInt8).toNat >>> 5 ∧
      decodeInt 32 3 ([0] ++ (first :: tail ++ [1, 2])) 1 5 =
        .ok (⟨1337, (0x20 : UInt8).toNat >>> 5, 0⟩, 1 + (first :: tail).length) :=
  decodeInt_encodeInt 32 3 5 1337 (by decide) (by decide) (by decide) 0x20 [0] [1, 2]

/-- **The shortest bytes are written.** No fewer bytes denote the integer. -/
theorem encodeInt_shortest {w n v : ℕ} (hw : 8 ≤ w) (hn : 1 ≤ n ∧ n ≤ 8) (hv : v < 2 ^ w)
    (flags : UInt8) {bytes : List UInt8} (h : Denotes n bytes v) :
    ∃ written, encodeInt w v n flags = .ok written ∧ written.length ≤ bytes.length := by
  obtain ⟨first, tail, hencode, hsize, -⟩ := readInt_encodeInt hw hn hv flags
  refine ⟨_, hencode, ?_⟩
  rw [hsize, computeSize, mask_eq]
  cases h with
  | small b hb => exact (if_pos hb).le
  | large b front last hb more done =>
    have hlt : value (front ++ [last]) < 128 ^ ((front ++ [last]).map payload).length := by
      refine Nat.ofDigits_lt_base_pow_length (by decide) fun d hd => ?_
      obtain ⟨x, -, rfl⟩ := mem_map.1 hd
      exact payload_lt x
    have hbound : value (front ++ [last]) < 2 ^ (7 * (w + 1)) :=
      ((Nat.le_add_left _ _).trans_lt hv).trans_le (Nat.pow_le_pow_right (by decide) (by omega))
    obtain ⟨groups, _, -, -, hmin, hcount⟩ := writeGroups_splits hbound
    simp only [Nat.not_lt.2 (Nat.le_add_right _ _), if_false, Nat.add_sub_cancel_left, hcount]
    by_cases hgroups : groups = []
    · simp [hgroups]
    · have hpow := (Nat.pow_lt_pow_iff_right (by decide)).1 ((hmin hgroups).trans_lt hlt)
      rw [length_map] at hpow
      exact (Nat.add_comm ..).trans_le (Nat.succ_le_succ hpow)

/-- With a group of zeros, 1337 takes four bytes. -/
theorem encodeInt_shortest_padded : ∃ written, encodeInt 32 1337 5 0 = .ok written ∧
    written.length ≤ [31, 154, 138, (0 : UInt8)].length :=
  encodeInt_shortest (v := 1337) (by decide) (by decide) (by decide) 0
    (.large 31 [154, 138] 0 (by decide) (by simp) (by decide))

/-- The byte of the view for what is left of the number. -/
def viewGroup (remainder : ℕ) : UInt8 :=
  if 0 < remainder >>> 7 then UInt8.ofNat (remainder &&& 0x7F) ||| 0x80
  else UInt8.ofNat (remainder &&& 0x7F)

theorem viewGroup_eq (data : ℕ) :
    viewGroup data =
      if 0x7F < data then UInt8.ofNat (data % 0x80 + 0x80) else UInt8.ofNat data := by
  have hshift : 0 < data >>> 7 ↔ 0x7F < data := by
    omega
  have hflag : ∀ x : Fin 128, UInt8.ofNat x.val ||| 0x80 = UInt8.ofNat (x.val + 0x80) := by
    decide +kernel
  rw [viewGroup, and_low]
  by_cases hmore : 0x7F < data
  · rw [if_pos (hshift.2 hmore), if_pos hmore]
    exact hflag ⟨data % 128, Nat.mod_lt _ (by decide)⟩
  · rw [if_neg (mt hshift.mp hmore), if_neg hmore, Nat.mod_eq_of_lt (by omega)]

theorem writeGroups_eq_map {fuel data : ℕ} (h : data < 2 ^ (7 * (fuel + 1))) :
    writeGroups fuel data =
      (List.range (countGroups fuel data 1)).map fun i => viewGroup (data >>> (7 * i)) := by
  induction fuel generalizing data with
  | zero =>
    rw [writeGroups, countGroups, range_one, map_singleton, viewGroup_eq, if_neg]
    · rfl
    · change ¬0x7F < data
      change data < 128 at h
      omega
  | succ fuel ih =>
    rw [writeGroups, countGroups]
    by_cases hmore : 0x7F < data
    · have hdiv : data >>> 7 < 2 ^ (7 * (fuel + 1)) := by
        rwa [Nat.shiftRight_eq_div_pow, Nat.div_lt_iff_lt_mul (by decide), ← Nat.pow_add]
      obtain ⟨front, -, -, -, -, hcount⟩ := writeGroups_splits hdiv
      have hsucc : countGroups fuel (data >>> 7) 2 = countGroups fuel (data >>> 7) 1 + 1 := by
        rw [hcount, hcount]
        omega
      rw [if_pos hmore, if_pos hmore, ih hdiv, hsucc, range_succ_eq_map, map_cons,
        map_map]
      congr 1
      · rw [Nat.mul_zero, Nat.shiftRight_zero, viewGroup_eq, if_pos hmore]
      · refine map_congr_left fun i _ => ?_
        show viewGroup (data >>> 7 >>> (7 * i)) = viewGroup (data >>> (7 * (i + 1)))
        rw [← Nat.shiftRight_add, Nat.mul_add, Nat.add_comm]
    · rw [if_neg hmore, if_neg hmore, range_one, map_singleton, mul_zero,
        Nat.shiftRight_zero, viewGroup_eq, if_neg hmore]

/-- The bytes of the view are those that `encode_int` writes. -/
theorem encodeIntView_eq {w data : ℕ} (hdata : data < 2 ^ w) (n : ℕ) (flags : UInt8) :
    encodeIntView w data n flags = encodeInt w data n flags := by
  rw [encodeIntView, encodeInt]
  by_cases hrange : n < 1 ∨ 8 < n
  · rw [if_pos hrange, if_pos hrange]
  rw [if_neg hrange, if_neg hrange, computeSize]
  by_cases hsmall : data < (1 <<< n) - 1
  · simp only [if_pos hsmall, range_one, map_singleton, viewByte, if_pos]
  · have hbound : data - ((1 <<< n) - 1) < 2 ^ (7 * (w + 1)) :=
      (Nat.sub_le _ _).trans_lt (hdata.trans_le (Nat.pow_le_pow_right (by decide) (by omega)))
    obtain ⟨front, -, -, -, -, hcount⟩ := writeGroups_splits hbound
    have hsucc : countGroups w (data - ((1 <<< n) - 1)) 2 =
        countGroups w (data - ((1 <<< n) - 1)) 1 + 1 := by
      rw [hcount, hcount]
      omega
    simp only [if_neg hsmall, hsucc, range_succ_eq_map, map_cons, map_map,
      writeGroups_eq_map hbound]
    congr 2
    simp only [viewByte, if_pos, if_neg hsmall]

end RoundTrip

/-! ### The lazy codec and the eager one -/

/-- The texts make no difference to what is read. -/
theorem readInt_toOption (w prefixOffset n : ℕ) (texts texts' : IntegerTexts) (data : List UInt8) :
    (readInt w prefixOffset n texts data).toOption =
      (readInt w prefixOffset n texts' data).toOption := by
  by_cases hn : 1 ≤ n ∧ n ≤ 8
  · cases data with
    | nil =>
      unfold readInt
      split_ifs <;> rfl
    | cons b rest =>
      have hiff : ∀ r, readInt w prefixOffset n texts (b :: rest) = .ok r ↔
          readInt w prefixOffset n texts' (b :: rest) = .ok r := fun r => by
        rw [readInt_eq_ok_iff hn, readInt_eq_ok_iff hn]
      cases hread : readInt w prefixOffset n texts (b :: rest) with
      | ok r => rw [(hiff r).1 hread]
      | error e =>
        cases hread' : readInt w prefixOffset n texts' (b :: rest) with
        | ok r => cases hread.symm.trans ((hiff r).2 hread')
        | error e' => rfl
  · have hrange : n < 1 ∨ 8 < n := by omega
    rw [readInt.eq_def, readInt.eq_def, if_pos hrange, if_pos hrange]

/-- The encoders write the same bytes, and the decoders read the same integers off the same number
of bytes. -/
theorem integer_codecs_agree {w data : ℕ} (hdata : data < 2 ^ w) (n prefixOffset : ℕ)
    (flags : UInt8) (bytes : List UInt8) (pos : ℕ) :
    encodeIntView w data n flags = encodeInt w data n flags ∧
      (decodeInt w prefixOffset bytes pos n).toOption =
        (decodeIntAdaptor w prefixOffset n (bytes.drop pos)).toOption.map fun r =>
          (⟨r.value, r.prefixBits, 0⟩, pos + r.consumed) := by
  refine ⟨encodeIntView_eq hdata n flags, ?_⟩
  rw [decodeIntAdaptor_eq, readInt_toOption w prefixOffset n adaptorTexts atomTexts, decodeInt]
  cases readInt w prefixOffset n atomTexts (bytes.drop pos) <;> rfl

/-- An integer of three bytes, and what follows it is left alone. -/
theorem integer_codecs_agree_long :
    (decodeInt 32 0 [0x1F, 0x9A, 0x0A, 0x00] 0 5).toOption = some (⟨1337, 0, 0⟩, 3) :=
  (integer_codecs_agree (show 1337 < 2 ^ 32 by decide) 5 0 0 [0x1F, 0x9A, 0x0A, 0x00] 0).2

end Congelado.Codec
