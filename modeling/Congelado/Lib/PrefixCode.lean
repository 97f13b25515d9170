import Mathlib

/-!
# Prefix codes

Bit strings are lists of `Bool`, the most significant bit first. A code assigns a bit string to
each symbol; if no code is a prefix of another one, a bit string is read in at most one way as
the codes of a word followed by the beginning of a code (`eq_of_flatMap_append_eq`).
-/

namespace PrefixCode

open List

/-! ### The bits of a number -/

section Bits

/-- The low `n` bits of a number. -/
def bits : ℕ → ℕ → List Bool
  | 0, _ => []
  | n + 1, v => v.testBit n :: bits n v

@[simp] theorem length_bits (n v : ℕ) : (bits n v).length = n := by
  induction n with
  | zero => rfl
  | succ n ih => rw [bits, length_cons, ih]

/-- The upper bits, then the lower ones. -/
theorem bits_add (m n v : ℕ) : bits (m + n) v = bits m (v >>> n) ++ bits n v := by
  induction m with
  | zero => rw [zero_add, bits, nil_append]
  | succ m ih =>
    rw [Nat.succ_add, bits, bits, ih, cons_append, Nat.testBit_shiftRight, Nat.add_comm n m]

theorem bits_congr {n v w : ℕ} (h : ∀ i < n, v.testBit i = w.testBit i) : bits n v = bits n w := by
  induction n with
  | zero => rfl
  | succ n ih => rw [bits, bits, h n n.lt_succ_self, ih fun i hi => h i (hi.trans n.lt_succ_self)]

theorem testBit_eq_of_bits_eq {n v w : ℕ} (h : bits n v = bits n w) {i : ℕ} (hi : i < n) :
    v.testBit i = w.testBit i := by
  induction n with
  | zero => exact absurd hi (Nat.not_lt_zero i)
  | succ n ih =>
    obtain ⟨hhead, htail⟩ := List.cons.inj h
    obtain rfl | hlt := Nat.eq_or_lt_of_le (Nat.le_of_lt_succ hi)
    · exact hhead
    · exact ih htail hlt

theorem eq_of_bits_eq {n v w : ℕ} (hv : v < 2 ^ n) (hw : w < 2 ^ n) (h : bits n v = bits n w) :
    v = w := by
  refine Nat.eq_of_testBit_eq fun i => ?_
  by_cases hi : i < n
  · exact testBit_eq_of_bits_eq h hi
  · have hpow : 2 ^ n ≤ 2 ^ i := Nat.pow_le_pow_right (by decide) (Nat.le_of_not_lt hi)
    rw [Nat.testBit_lt_two_pow (hv.trans_le hpow), Nat.testBit_lt_two_pow (hw.trans_le hpow)]

theorem bits_mod (n v : ℕ) : bits n (v % 2 ^ n) = bits n v :=
  bits_congr fun i hi => by rw [Nat.testBit_mod_two_pow, decide_eq_true hi, Bool.true_and]

/-- Bits shifted up, and others below them. -/
theorem bits_shiftLeft_or {m n v w : ℕ} (hw : w < 2 ^ n) :
    bits (m + n) (v <<< n ||| w) = bits m v ++ bits n w := by
  rw [bits_add]
  congr 1
  · refine bits_congr fun i _ => ?_
    have hhigh : w.testBit (n + i) = false :=
      Nat.testBit_lt_two_pow (hw.trans_le (Nat.pow_le_pow_right (by decide) (n.le_add_right i)))
    rw [Nat.testBit_shiftRight, Nat.testBit_or, hhigh, Bool.or_false, Nat.testBit_shiftLeft,
      decide_eq_true (n.le_add_right i), Bool.true_and, Nat.add_sub_cancel_left]
  · refine bits_congr fun i hi => ?_
    rw [Nat.testBit_or, Nat.testBit_shiftLeft, decide_eq_false (Nat.not_le_of_lt hi),
      Bool.false_and, Bool.false_or]

theorem bits_zero (n : ℕ) : bits n 0 = List.replicate n false := by
  induction n with
  | zero => rfl
  | succ n ih => rw [bits, ih, Nat.zero_testBit, replicate_succ]

theorem bits_ones (n : ℕ) : bits n (2 ^ n - 1) = List.replicate n true := by
  rw [eq_replicate_iff]
  refine ⟨length_bits _ _, fun b hb => ?_⟩
  suffices h : ∀ m ≤ n, ∀ b ∈ bits m (2 ^ n - 1), b = true from h n le_rfl b hb
  intro m hm
  induction m with
  | zero => exact fun b hb => nomatch hb
  | succ m ih =>
    refine forall_mem_cons.mpr ⟨?_, ih (Nat.le_of_succ_le hm)⟩
    rw [Nat.testBit_two_pow_sub_one]
    exact decide_eq_true hm

/-- A number whose bits begin another one's is what is left after a shift. -/
theorem shiftRight_eq_of_prefix_bits {m n v w : ℕ} (hv : v < 2 ^ m) (hw : w < 2 ^ n)
    (h : bits m v <+: bits n w) : m ≤ n ∧ w >>> (n - m) = v := by
  have hle : m ≤ n := by simpa using h.length_le
  refine ⟨hle, ?_⟩
  have hsplit : bits n w = bits m (w >>> (n - m)) ++ bits (n - m) w := by
    rw [← bits_add, Nat.add_sub_of_le hle]
  rw [hsplit] at h
  have heq : bits m v = bits m (w >>> (n - m)) :=
    (prefix_of_prefix_length_le h (prefix_append _ _) (by simp)).eq_of_length (by simp)
  refine (eq_of_bits_eq hv ?_ heq).symm
  rw [Nat.shiftRight_eq_div_pow, Nat.div_lt_iff_lt_mul (Nat.two_pow_pos _), ← Nat.pow_add,
    Nat.add_sub_of_le hle]
  exact hw

end Bits

/-! ### Codes -/

section Codes

variable {α : Type*} (code : α → List Bool) {word : List α}

def PrefixFree : Prop := ∀ a b, code a <+: code b → a = b

/-- The bits read so far begin a code, and are not yet all of it. -/
def Open (r : List Bool) : Prop := ∃ a, r <+: code a ∧ r ≠ code a

variable {code}

theorem Open.nil {a : α} (h : code a ≠ []) : Open code [] := ⟨a, nil_prefix, h.symm⟩

theorem Open.mono {r s : List Bool} (h : Open code s) (hr : r <+: s) : Open code r := by
  obtain ⟨a, hs, hne⟩ := h
  refine ⟨a, hr.trans hs, ?_⟩
  rintro rfl
  exact hne (hs.eq_of_length_le hr.length_le)

section

variable (hfree : PrefixFree code)

include hfree

/-- Nothing is decoded while a code is open. -/
theorem Open.undecoded {r : List Bool} (h : Open code r) (a : α) :
    ¬code a <+: r := by
  obtain ⟨b, hr, hne⟩ := h
  intro ha
  obtain rfl := hfree a b (ha.trans hr)
  exact hne (hr.eq_of_length_le ha.length_le)

/-- Bits that begin with a code are read as a word that begins with its symbol. -/
theorem exists_eq_cons {a : α} {x r : List Bool}
    (hr : Open code r) (h : code a ++ x = word.flatMap code ++ r) :
    ∃ word', word = a :: word' ∧ x = word'.flatMap code ++ r := by
  cases word with
  | nil => exact absurd ⟨x, h⟩ (hr.undecoded hfree a)
  | cons b word =>
    rw [flatMap_cons, append_assoc] at h
    -- two codes that begin the same bits are the same
    have hab : a = b := by
      have ha : code a <+: code b ++ (word.flatMap code ++ r) := h ▸ prefix_append _ _
      obtain hpre | hpre := prefix_or_prefix_of_prefix ha (prefix_append _ _)
      · exact hfree a b hpre
      · exact (hfree b a hpre).symm
    subst hab
    exact ⟨word, rfl, append_cancel_left h⟩

/-- A bit string is read in one way only. -/
theorem eq_of_flatMap_append_eq {word word' : List α} {r r' : List Bool}
    (hr : Open code r) (hr' : Open code r')
    (h : word.flatMap code ++ r = word'.flatMap code ++ r') : word = word' ∧ r = r' := by
  induction word generalizing word' with
  | nil =>
    cases word' with
    | nil => exact ⟨rfl, h⟩
    | cons b word' =>
      refine absurd ⟨word'.flatMap code ++ r', ?_⟩ (hr.undecoded hfree b)
      rw [← append_assoc]
      exact h.symm
  | cons a word ih =>
    rw [flatMap_cons, append_assoc] at h
    obtain ⟨tail, rfl, htail⟩ := exists_eq_cons hfree hr' h
    obtain ⟨rfl, rfl⟩ := ih htail
    exact ⟨rfl, rfl⟩

end

/-- What can be read up to the end can be read up to any point. -/
theorem exists_flatMap_append {r x y : List Bool} (hr : Open code r)
    (h : x ++ y = word.flatMap code ++ r) :
    ∃ (word' : List α) (r' : List Bool), x = word'.flatMap code ++ r' ∧ Open code r' := by
  induction word generalizing x with
  | nil => exact ⟨[], x, rfl, hr.mono ⟨y, h⟩⟩
  | cons a word ih =>
    rw [flatMap_cons, append_assoc] at h
    have hx : x <+: code a ++ (word.flatMap code ++ r) := h ▸ prefix_append x y
    obtain hpre | ⟨x', rfl⟩ := prefix_or_prefix_of_prefix hx (prefix_append _ _)
    · by_cases heq : x = code a
      · exact ⟨[a], [], by simp [heq], hr.mono nil_prefix⟩
      · exact ⟨[], x, rfl, a, hpre, heq⟩
    · rw [append_assoc] at h
      obtain ⟨word', r', rfl, hr'⟩ := ih (append_cancel_left h)
      exact ⟨a :: word', r', by rw [flatMap_cons, append_assoc], hr'⟩

/-- The bit after an open code leads on to some code, if anything is decoded at all. -/
theorem exists_code_of_flatMap_append (hfree : PrefixFree code)
    {p r rest : List Bool} {bit : Bool} (hp : Open code p) (hr : Open code r)
    (h : p ++ bit :: rest = word.flatMap code ++ r) : ∃ a, p ++ [bit] <+: code a := by
  have hpbit : p ++ [bit] <+: p ++ bit :: rest := ⟨rest, by simp⟩
  cases word with
  | nil =>
    obtain ⟨a, ha, -⟩ := hr
    exact ⟨a, (h ▸ hpbit).trans ha⟩
  | cons a word =>
    rw [flatMap_cons, append_assoc] at h
    refine ⟨a, prefix_of_prefix_length_le (h ▸ hpbit) (prefix_append _ _) ?_⟩
    -- the code is longer than what has been read of it
    by_contra hlen
    have hle : (code a).length ≤ p.length := by
      rw [length_append, length_singleton] at hlen
      omega
    have ha : code a <+: p ++ bit :: rest := h ▸ prefix_append _ _
    exact hp.undecoded hfree a (prefix_of_prefix_length_le ha (prefix_append _ _) hle)

end Codes

end PrefixCode
