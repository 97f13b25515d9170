import Congelado.Codec.Strictness

/-!
# What the Huffman encoder gets right

The encoder pulls in one symbol for each byte that is read from it, whatever the length of the
codes. The bits that wait in the accumulator therefore run out if the codes are shorter than a
byte on the way, and pile up if they are longer: `Paced` is the condition on a string under which
neither happens, and it is exactly when the string is read back (`decode_encode_iff_paced`).
-/

namespace Congelado.Codec.Huffman

open PrefixCode List

variable {pending : List Bool} {acc : ℕ}

/-- The bits in the accumulator when a byte is read: there is a whole byte of them, they can be
shifted down to it, and those that are already shifted out at the top were zeros. -/
def Ready (pending : List Bool) : Prop :=
  8 ≤ pending.length ∧ pending.length < 72 ∧ ∀ b ∈ pending.take (pending.length - 64), b = false

instance (pending : List Bool) : Decidable (Ready pending) :=
  inferInstanceAs (Decidable (_ ∧ _ ∧ _))

/-- With the `i`-th symbol the bits that wait for the `i`-th byte are ready, and in the end there
is at most one byte left. -/
def Paced (data : List UInt8) : Prop :=
  (∀ i < data.length, Ready ((stream (data.take (i + 1))).drop (8 * i))) ∧
    (stream data).length ≤ 8 * data.length + 8

instance (data : List UInt8) : Decidable (Paced data) := inferInstanceAs (Decidable (_ ∧ _))

/-- The same from a state of the accumulator on, in the order of the encoder. -/
def PacedFrom : List Bool → List UInt8 → Prop
  | pending, [] => pending.length ≤ 8
  | pending, byte :: rest =>
    Ready (pending ++ code (symbol byte)) ∧ PacedFrom ((pending ++ code (symbol byte)).drop 8) rest

@[simp] theorem stream_nil : stream [] = [] := rfl

@[simp] theorem stream_cons (byte : UInt8) (rest : List UInt8) :
    stream (byte :: rest) = code (symbol byte) ++ stream rest := flatMap_cons

@[simp] theorem bitsOf_nil : bitsOf [] = [] := rfl

@[simp] theorem bitsOf_cons (byte : UInt8) (rest : List UInt8) :
    bitsOf (byte :: rest) = bits 8 byte.toNat ++ bitsOf rest := flatMap_cons

theorem pacedFrom_iff (pending : List Bool) (data : List UInt8) :
    PacedFrom pending data ↔
      (∀ i < data.length, Ready ((pending ++ stream (data.take (i + 1))).drop (8 * i))) ∧
        (pending ++ stream data).length ≤ 8 * data.length + 8 := by
  induction data generalizing pending with
  | nil => simp [PacedFrom]
  | cons byte rest ih =>
    -- a byte is taken out before the next symbol comes in
    have hdrop (hready : Ready (pending ++ code (symbol byte))) (i : ℕ) (tail : List Bool) :
        (pending ++ (code (symbol byte) ++ tail)).drop (8 * (i + 1)) =
          ((pending ++ code (symbol byte)).drop 8 ++ tail).drop (8 * i) := by
      rw [Nat.mul_succ, Nat.add_comm, ← drop_drop, ← append_assoc,
        drop_append_of_le_length hready.1]
    have hlength (hready : Ready (pending ++ code (symbol byte))) :
        ((pending ++ code (symbol byte)).drop 8 ++ stream rest).length ≤ 8 * rest.length + 8 ↔
          (pending ++ stream (byte :: rest)).length ≤ 8 * (byte :: rest).length + 8 := by
      have := hready.1
      simp only [length_append, length_drop, stream_cons, length_cons] at this ⊢
      omega
    rw [PacedFrom, ih]
    constructor
    · rintro ⟨hready, hrest, hend⟩
      refine ⟨fun i hi => ?_, (hlength hready).1 hend⟩
      cases i with
      | zero => simpa using hready
      | succ i =>
        rw [take_succ_cons, stream_cons, hdrop hready]
        exact hrest i (Nat.lt_of_succ_lt_succ hi)
    · rintro ⟨hall, hend⟩
      have hready : Ready (pending ++ code (symbol byte)) := by
        simpa using hall 0 (Nat.zero_lt_succ _)
      refine ⟨hready, fun i hi => ?_, (hlength hready).2 hend⟩
      have := hall (i + 1) (Nat.succ_lt_succ hi)
      rwa [take_succ_cons, stream_cons, hdrop hready] at this

/-- Of more than 64 bits the upper ones are lost. -/
theorem bits_mod_accumulator (n v : ℕ) :
    bits n (v % 2 ^ 64) = List.replicate (n - 64) false ++ (bits n v).drop (n - 64) := by
  by_cases hn : n ≤ 64
  · rw [Nat.sub_eq_zero_of_le hn, drop_zero, replicate_zero, nil_append]
    refine bits_congr fun i hi => ?_
    rw [Nat.testBit_mod_two_pow, decide_eq_true (hi.trans_le hn), Bool.true_and]
  · obtain ⟨k, rfl⟩ := Nat.exists_eq_add_of_le' (Nat.le_of_not_le hn)
    have hzero : (v % 2 ^ 64) >>> 64 = 0 := by
      rw [Nat.shiftRight_eq_div_pow, Nat.div_eq_of_lt (Nat.mod_lt _ (Nat.two_pow_pos 64))]
    rw [Nat.add_sub_cancel, bits_add, bits_add, hzero, bits_zero, bits_mod,
      drop_left' (length_bits _ _)]

theorem shiftLeft_mod_or {len code : ℕ} (hcode : code < 2 ^ 64) :
    ((acc <<< len) % 2 ^ 64) ||| code = (acc <<< len ||| code) % 2 ^ 64 := by
  rw [Nat.or_mod_two_pow, Nat.mod_eq_of_lt hcode]

theorem bits_ofNat (v : ℕ) : bits 8 (UInt8.ofNat v).toNat = bits 8 v := by
  rw [UInt8.toNat_ofNat']
  exact bits_mod 8 v

/-- The last byte: what is left, filled up with ones. -/
theorem bits_lastByte (hacc : bits pending.length acc = pending) (hlen : pending.length ≤ 8) :
    bits 8 (UInt8.ofNat (((acc <<< (8 - pending.length)) % 2 ^ 64) |||
        ((1 <<< (8 - pending.length)) - 1))).toNat =
      pending ++ List.replicate (8 - pending.length) true := by
  have hones : 2 ^ (8 - pending.length) - 1 < 2 ^ (8 - pending.length) :=
    Nat.sub_lt (Nat.two_pow_pos _) Nat.one_pos
  have hsmall : 2 ^ (8 - pending.length) ≤ 2 ^ 64 := Nat.pow_le_pow_right (by decide) (by omega)
  have hsplit : bits (pending.length + (8 - pending.length))
      (acc <<< (8 - pending.length) ||| (2 ^ (8 - pending.length) - 1)) =
      pending ++ List.replicate (8 - pending.length) true := by
    rw [bits_shiftLeft_or hones, hacc, bits_ones]
  rw [Nat.add_sub_of_le hlen] at hsplit
  rw [bits_ofNat, Nat.one_shiftLeft, shiftLeft_mod_or (hones.trans_le hsmall),
    bits_mod_accumulator, ← hsplit]
  rfl

/-- A byte that is read, and the bits that stay behind it. -/
theorem bits_nextByte
    (hacc : bits pending.length acc = List.replicate (pending.length - 64) false ++
      pending.drop (pending.length - 64)) (hlen : 8 ≤ pending.length) (hlt : pending.length < 72) :
    bits 8 (UInt8.ofNat (acc >>> (pending.length - 8))).toNat =
      (List.replicate (pending.length - 64) false ++ pending.drop (pending.length - 64)).take 8 ∧
    bits (pending.drop 8).length acc = pending.drop 8 := by
  have hsplit : bits pending.length acc =
      bits 8 (acc >>> (pending.length - 8)) ++ bits (pending.length - 8) acc := by
    rw [← bits_add, Nat.add_sub_of_le hlen]
  rw [hacc] at hsplit
  constructor
  · rw [bits_ofNat, hsplit, take_left' (length_bits _ _)]
  · have hdrop := congrArg (List.drop 8) hsplit
    rw [drop_left' (length_bits _ _), drop_append, drop_replicate,
      Nat.sub_eq_zero_of_le (show pending.length - 64 ≤ 8 by omega), replicate_zero,
      nil_append, length_replicate, drop_drop,
      Nat.add_sub_of_le (show pending.length - 64 ≤ 8 by omega)] at hdrop
    rw [length_drop, hdrop]

/-- The byte is right if what was shifted out were zeros. -/
theorem take_eight_iff (hlen : 8 ≤ pending.length) (hlt : pending.length < 72) :
    (List.replicate (pending.length - 64) false ++ pending.drop (pending.length - 64)).take 8 =
        pending.take 8 ↔ ∀ b ∈ pending.take (pending.length - 64), b = false := by
  have hle : pending.length - 64 ≤ 8 := by omega
  constructor
  · intro h b hb
    have htake := congrArg (List.take (pending.length - 64)) h
    rw [take_take, take_take, min_eq_left hle,
      take_left' (length_replicate)] at htake
    rw [← htake] at hb
    exact eq_of_mem_replicate hb
  · intro h
    have hfalse : pending.take (pending.length - 64) =
        List.replicate (pending.length - 64) false := by
      refine eq_replicate_iff.2 ⟨?_, h⟩
      rw [length_take]
      omega
    rw [← hfalse, take_append_drop]

/-- The encoder writes the codes and fills up the last byte with ones, if and only if it is
paced. -/
theorem encodeFrom_iff {data : List UInt8} {pending r : List Bool}
    (hlen : pending.length < 64) (hacc : bits pending.length acc = pending) :
    (∃ bytes, encodeFrom data acc pending.length = some bytes ∧
        bitsOf bytes = pending ++ stream data ++ r ∧ r.length ≤ 7) ↔
      PacedFrom pending data ∧
        r = List.replicate ((8 - (pending ++ stream data).length % 8) % 8) true := by
  induction data generalizing acc pending with
  | nil =>
    rw [encodeFrom, PacedFrom, stream_nil, append_nil]
    by_cases hzero : pending.length = 0
    · rw [if_pos hzero]
      obtain rfl := length_eq_zero_iff.1 hzero
      constructor
      · rintro ⟨bytes, hbytes, hr, -⟩
        cases hbytes
        exact ⟨Nat.zero_le 8, hr.symm⟩
      · rintro ⟨-, rfl⟩
        exact ⟨[], rfl, rfl, by decide⟩
    rw [if_neg hzero]
    by_cases height : 8 < pending.length
    · rw [if_pos height]
      refine iff_of_false ?_ fun h => by omega
      rintro ⟨_, h, -⟩
      exact nomatch h
    · have hpad : (8 - pending.length % 8) % 8 = 8 - pending.length := by omega
      have hlast := bits_lastByte hacc (Nat.le_of_not_lt height)
      rw [if_neg height, hpad]
      constructor
      · rintro ⟨bytes, hbytes, hr, -⟩
        cases hbytes
        rw [bitsOf_cons, bitsOf_nil, append_nil, hlast] at hr
        exact ⟨Nat.le_of_not_lt height, (append_cancel_left hr).symm⟩
      · rintro ⟨-, rfl⟩
        refine ⟨_, rfl, ?_, ?_⟩
        · rw [bitsOf_cons, bitsOf_nil, append_nil, hlast]
        · rw [length_replicate]
          omega
  | cons byte rest ih =>
    obtain ⟨entry, -, hentry, hcode, hvalue, -, hthirty⟩ := exists_entry (symbol byte)
    have hvalue64 : entry.1 < 2 ^ 64 :=
      hvalue.trans_le (Nat.pow_le_pow_right (by decide) (by omega))
    set next := pending ++ code (symbol byte) with hnext
    have hlength : pending.length + entry.2 = next.length := by
      rw [hnext, length_append, hcode, length_bits]
    have hacc' : bits next.length (((acc <<< entry.2) % 2 ^ 64) ||| entry.1) =
        List.replicate (next.length - 64) false ++ next.drop (next.length - 64) := by
      have hall : bits next.length (acc <<< entry.2 ||| entry.1) = next := by
        rw [← hlength, bits_shiftLeft_or hvalue, hacc, hnext, hcode]
      rw [shiftLeft_mod_or hvalue64, bits_mod_accumulator, hall]
    rw [encodeFrom, PacedFrom, stream_cons, ← append_assoc, ← hnext]
    clear_value next
    simp only [hentry, hlength]
    by_cases hshift : next.length < 8 ∨ 64 ≤ next.length - 8
    · -- an undefined shift
      rw [if_pos hshift]
      refine iff_of_false ?_ fun h => ?_
      · rintro ⟨_, h, -⟩
        exact nomatch h
      · have h1 := h.1.1.1
        have h2 := h.1.1.2.1
        omega
    · rw [if_neg hshift]
      have h8 : 8 ≤ next.length := by omega
      have h72 : next.length < 72 := by omega
      obtain ⟨hbyte, hrest⟩ := bits_nextByte hacc' h8 h72
      have hdrop : next.length - 8 = (next.drop 8).length := length_drop.symm
      have hmod : (next ++ stream rest).length % 8 = (next.drop 8 ++ stream rest).length % 8 := by
        rw [length_append, length_append, length_drop]
        omega
      have hnext8 : next = next.take 8 ++ next.drop 8 := (take_append_drop 8 next).symm
      rw [hmod, hdrop, and_assoc, ← ih (by rw [length_drop]; omega) hrest]
      constructor
      · rintro ⟨bytes, hbytes, hbits, hr⟩
        obtain ⟨tail, htail, rfl⟩ := Option.map_eq_some_iff.1 hbytes
        rw [bitsOf_cons, ← hdrop, hbyte] at hbits
        rw [hnext8, append_assoc, append_assoc] at hbits
        obtain ⟨hhead, hbits⟩ := append_inj hbits (by simp)
        rw [← hnext8] at hhead
        refine ⟨⟨h8, h72, (take_eight_iff h8 h72).1 hhead⟩, tail, htail, ?_, hr⟩
        rw [hbits, append_assoc]
      · rintro ⟨hready, tail, htail, hbits, hr⟩
        refine ⟨_, by rw [htail, Option.map_some], ?_, hr⟩
        rw [bitsOf_cons, ← hdrop, hbyte, (take_eight_iff h8 h72).2 hready.2.2, hbits,
          ← append_assoc, ← append_assoc, take_append_drop]

/-- A string is read back from its encoding if and only if the encoder is paced on it. -/
theorem decode_encode_iff_paced (W : ℕ) (hW : W ∈ [1, 2, 4]) (data : List UInt8) :
    (∃ bytes, encode data = some bytes ∧ decode W bytes = .ok data) ↔ Paced data := by
  have hpaced : Paced data ↔ PacedFrom [] data := (pacedFrom_iff [] data).symm
  have hencode (r : List Bool) := @encodeFrom_iff 0 data [] r (by decide) rfl
  rw [hpaced]
  constructor
  · rintro ⟨bytes, hbytes, hdecode⟩
    obtain ⟨r, hbits, -, hr⟩ := (decode_eq_ok_iff hW).1 hdecode
    exact ((hencode r).1 ⟨bytes, hbytes, hbits, hr⟩).1
  · intro h
    obtain ⟨bytes, hbytes, hbits, hr⟩ := (hencode _).2 ⟨h, rfl⟩
    refine ⟨bytes, hbytes, (decode_eq_ok_iff hW).2 ⟨_, hbits, open_ones ?_, hr⟩⟩
    rwa [length_replicate] at hr

/-- `&<ab`, with codes of 8, 15, 5 and 6 bits. -/
theorem decode_encode_markup :
    Paced [38, 60, 97, 98] ∧
      ∃ bytes, encode [38, 60, 97, 98] = some bytes ∧ decode 4 bytes = .ok [38, 60, 97, 98] :=
  ⟨by decide +kernel,
    (decode_encode_iff_paced 4 (by decide) [38, 60, 97, 98]).2 (by decide +kernel)⟩

/-- The code of `a` has five bits, and the first byte is read by a shift of `5 - 8`. With longer
codes in front the shifts are defined, but bits are lost, and another string is read back. -/
theorem encoder_off_pace :
    encode [97] = none ∧
      ∃ bytes, encode ([10, 10, 9] ++ List.replicate 18 97) = some bytes ∧
        decode 4 bytes = .ok ([177, 118, 111, 29, 168] ++ List.replicate 18 97) := by
  refine ⟨by decide +kernel,
    [255, 255, 15, 115, 255, 255, 255, 207, 255, 254, 161, 140, 99, 24, 198,
    49, 140, 99, 24, 198, 49, 143], by decide +kernel, ?_⟩
  exact (decode_eq_ok_iff (by decide)).2
    ⟨List.replicate 2 true, by decide +kernel, open_ones (by decide), by decide⟩

end Congelado.Codec.Huffman
