import Mathlib

/-!
# Integers in groups of seven bits

A number is written in groups of seven bits, least significant first, one group to a byte; the
high bit of a byte says that another one follows. `value` is the number that bytes stand for,
without a bound; `Splits` cuts the bytes of one number off a stream, which can be done in one
way only (`Splits.unique`).
-/

namespace Base128

variable {data front rest : List UInt8} {last b : UInt8}

def payload (b : UInt8) : ℕ := b.toNat % 128

/-- The number that a sequence of groups stands for. -/
def value (bytes : List UInt8) : ℕ := Nat.ofDigits 128 (bytes.map payload)

theorem payload_lt (b : UInt8) : payload b < 128 := Nat.mod_lt _ (by decide)

theorem payload_eq_toNat {b : UInt8} (h : b.toNat < 128) : payload b = b.toNat := Nat.mod_eq_of_lt h

@[simp] theorem value_nil : value [] = 0 := rfl

@[simp] theorem value_cons (b : UInt8) (bytes : List UInt8) :
    value (b :: bytes) = payload b + 128 * value bytes := by
  rfl

theorem value_append (a b : List UInt8) : value (a ++ b) = value a + 128 ^ a.length * value b := by
  rw [value, List.map_append, Nat.ofDigits_append, List.length_map]
  rfl

theorem value_concat (front : List UInt8) (last : UInt8) :
    value (front ++ [last]) = value front + 128 ^ front.length * payload last := by
  rw [value_append, value_cons, value_nil, mul_zero, add_zero]

/-- A stream begins with the groups of one number: all of `front` say that another byte follows,
and `last` does not. -/
structure Splits (data front : List UInt8) (last : UInt8) (rest : List UInt8) : Prop where
  eq : data = front ++ last :: rest
  more : ∀ b ∈ front, 128 ≤ b.toNat
  done : last.toNat < 128

theorem Splits.cons (h : Splits data front last rest)
    (hb : 128 ≤ b.toNat) : Splits (b :: data) (b :: front) last rest where
  eq := by rw [h.eq, List.cons_append]
  more := List.forall_mem_cons.2 ⟨hb, h.more⟩
  done := h.done

/-- A byte that says that nothing follows is the whole number. -/
theorem Splits.eq_nil (h : Splits (b :: data) front last rest) (hb : b.toNat < 128) :
    front = [] ∧ last = b ∧ rest = data := by
  cases front with
  | nil =>
    obtain ⟨rfl, rfl⟩ := List.cons.inj h.eq
    exact ⟨rfl, rfl, rfl⟩
  | cons c front =>
    obtain ⟨rfl, -⟩ := List.cons.inj h.eq
    exact absurd (h.more b (.head _)) (by omega)

/-- A byte that says that another one follows is not the last one. -/
theorem Splits.tail (h : Splits (b :: data) front last rest) (hb : 128 ≤ b.toNat) :
    ∃ front', front = b :: front' ∧ Splits data front' last rest := by
  cases front with
  | nil =>
    obtain ⟨rfl, rfl⟩ := List.cons.inj h.eq
    exact absurd h.done (by omega)
  | cons c front =>
    obtain ⟨rfl, hdata⟩ := List.cons.inj h.eq
    exact ⟨front, rfl, hdata, fun x hx => h.more x (.tail _ hx), h.done⟩

theorem Splits.unique {data front front' rest rest' : List UInt8} {last last' : UInt8}
    (h : Splits data front last rest) (h' : Splits data front' last' rest') :
    front = front' ∧ last = last' ∧ rest = rest' := by
  induction data generalizing front front' with
  | nil => exact absurd h.eq.symm (by simp)
  | cons b data ih =>
    by_cases hb : b.toNat < 128
    · obtain ⟨rfl, rfl, rfl⟩ := h.eq_nil hb
      obtain ⟨rfl, rfl, rfl⟩ := h'.eq_nil hb
      exact ⟨rfl, rfl, rfl⟩
    · obtain ⟨t, rfl, ht⟩ := h.tail (Nat.le_of_not_lt hb)
      obtain ⟨t', rfl, ht'⟩ := h'.tail (Nat.le_of_not_lt hb)
      obtain ⟨rfl, rfl, rfl⟩ := ih ht ht'
      exact ⟨rfl, rfl, rfl⟩

end Base128
