import Mathlib.Data.List.Basic
import Mathlib.Order.Lattice

/-!
# Maps in the order of their keys

A map as a list of its entries, in the order of their keys, as an ordered map is iterated. An entry
is put in its place (`put`), and entries are dropped by their keys (`keep`). The rules say what each
does to a lookup.
-/

namespace OrderedMap

variable {κ α : Type} [LinearOrder κ]

/-- The entry of a key. -/
def find (key : κ) : List (κ × α) → Option α
  | [] => none
  | (k, a) :: rest => if k = key then some a else find key rest

/-- The entry takes the place of the one with its key, or the place of its key. -/
def put (key : κ) (value : α) : List (κ × α) → List (κ × α)
  | [] => [(key, value)]
  | (k, a) :: rest =>
    if k = key then (key, value) :: rest
    else if key < k then (key, value) :: (k, a) :: rest
    else (k, a) :: put key value rest

/-- The entries whose keys have a property. -/
def keep (p : κ → Bool) (entries : List (κ × α)) : List (κ × α) := entries.filter fun (k, _) => p k

variable {key other : κ} {value : α} {entries : List (κ × α)}

@[simp] theorem find_put_self : find key (put key value entries) = some value := by
  induction entries with
  | nil => rw [put, find, if_pos rfl]
  | cons entry rest ih =>
    rw [put]
    split_ifs with heq hlt
    · rw [find, if_pos rfl]
    · rw [find, if_pos rfl]
    · rw [find, if_neg heq, ih]

theorem find_put_of_ne (h : other ≠ key) :
    find other (put key value entries) = find other entries := by
  induction entries with
  | nil => simp [put, find, h.symm]
  | cons entry rest ih =>
    rw [put]
    split_ifs with heq hlt
    · rw [find, find, if_neg h.symm, if_neg (heq ▸ h.symm)]
    · rw [find, if_neg h.symm]
    · rw [find, find, ih]

theorem find_eq_some_of_mem_keys (h : key ∈ entries.map Prod.fst) :
    ∃ a, find key entries = some a := by
  induction entries with
  | nil => cases h
  | cons entry rest ih =>
    obtain ⟨k, a⟩ := entry
    rw [find]
    split_ifs with heq
    · exact ⟨a, rfl⟩
    · rw [List.map_cons, List.mem_cons] at h
      exact ih (h.resolve_left fun hkey => heq hkey.symm)

end OrderedMap
