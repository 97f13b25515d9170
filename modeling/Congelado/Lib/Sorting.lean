import Mathlib

/-!
# Sorting algorithms

What may be assumed of a sort whose order among equal elements is left open. An
`Algorithm` is a template: it compares elements and moves them, and does nothing else with
them. So its result is a rearrangement (`perm`), it does not depend on what the elements
are beyond their comparisons (`map`), and where the comparison is the one of a key the
result is ordered by that key (`ordered`).
-/

namespace Sorting

/-- A comparison sort, stable or not. -/
structure Algorithm where
  sort : {α : Type} → (α → α → Bool) → List α → List α
  perm : ∀ {α : Type} (less : α → α → Bool) (l : List α), (sort less l).Perm l
  map : ∀ {α β : Type} (f : α → β) (less : α → α → Bool) (less' : β → β → Bool) (l : List α),
    (∀ a ∈ l, ∀ b ∈ l, less a b = less' (f a) (f b)) → (sort less l).map f = sort less' (l.map f)
  ordered : ∀ {α : Type} (key : α → ℕ) (less : α → α → Bool) (l : List α),
    (∀ a ∈ l, ∀ b ∈ l, less a b = decide (key a < key b)) →
    (sort less l).Pairwise fun a b => key a ≤ key b

/-- Insertion sort, which is also what library sorts do to short ranges. -/
def insertion : Algorithm where
  sort less l := l.insertionSort fun a b => less b a = false
  perm less l := List.perm_insertionSort _ l
  map := by
    intro α β f less less' l h
    refine List.map_insertionSort _ _ f l fun a ha b hb => ?_
    rw [h b hb a ha]
  ordered := by
    intro α key less l h
    -- the keys come out in order, since sorting commutes with taking the keys
    have hmap : (l.insertionSort fun a b => less b a = false).map key =
        (l.map key).insertionSort (· ≤ ·) := by
      refine List.map_insertionSort _ _ key l fun a ha b hb => ?_
      rw [h b hb a ha, decide_eq_false_iff_not, not_lt]
    have hsorted := List.pairwise_insertionSort (· ≤ ·) (l.map key)
    rw [← hmap] at hsorted
    exact List.pairwise_map.1 hsorted

end Sorting
