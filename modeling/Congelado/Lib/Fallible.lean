import Mathlib

/-!
# Computations that may fail

How a sequence of computations ends that may fail: it goes on from a value, stops at an error, and
ends in a value exactly if each of its parts does.
-/

namespace Fallible

open List

variable {ε α β : Type}

theorem ok_bind (a : α) (f : α → Except ε β) : (Except.ok a >>= f) = f a := rfl

theorem error_bind (e : ε) (f : α → Except ε β) : (Except.error e >>= f) = .error e := rfl

theorem bind_eq_ok_iff {x : Except ε α} {f : α → Except ε β} {b : β} :
    (x >>= f) = .ok b ↔ ∃ a, x = .ok a ∧ f a = .ok b := by
  cases x with
  | error e => simp [error_bind]
  | ok a => simp [ok_bind]

/-- What every step of a fold keeps holds of its result. -/
theorem foldlM_invariant {f : β → α → Except ε β} {P : List α → β → Prop} {l : List α} {b r : β}
    (init : P [] b) (step : ∀ pre x b b', P pre b → f b x = .ok b' → P (pre ++ [x]) b')
    (h : l.foldlM f b = .ok r) : P l r := by
  -- the invariant is carried with the part of the list that is behind
  suffices ∀ pre b, P pre b → l.foldlM f b = .ok r → P (pre ++ l) r from this [] b init h
  clear h init b
  induction l with
  | nil =>
    intro pre b hb h
    obtain rfl : b = r := Except.ok.inj h
    rwa [append_nil]
  | cons x l ih =>
    intro pre b hb h
    rw [foldlM_cons, bind_eq_ok_iff] at h
    obtain ⟨b', hb', h⟩ := h
    have hrest := ih (pre ++ [x]) b' (step pre x b b' hb hb') h
    rwa [append_assoc] at hrest

end Fallible
