import Mathlib

/-!
# Keyed lists and tables

A list whose entries carry a key, updated the way `insert_or_assign` updates a
map: `put` replaces the first entry with the key of the new one and appends the
new entry when there is none. `Table` is a keyed list in which no key occurs
twice, which `put` keeps (`nodup_put`), so a lookup in a table is determined by
membership (`Table.find?_eq_some_iff`).

The rules that later proofs use say what `put` does to a lookup
(`find?_put_self`, `find?_put_of_ne`), to membership (`mem_put`) and to the list
of keys (`map_key_put_of_mem`, `put_eq_append`).
-/

namespace Keyed

open List

variable {α κ : Type} [DecidableEq κ]

/-- Replace the first entry with the key of `a`, or append `a` if there is none. -/
def put (key : α → κ) (a : α) : List α → List α
  | [] => [a]
  | b :: l => if key b = key a then a :: l else b :: put key a l

section Put

variable {key : α → κ} {a b : α} {l : List α}

theorem put_cons_of_eq (h : key b = key a) : put key a (b :: l) = a :: l := if_pos h

theorem put_cons_of_ne (h : key b ≠ key a) : put key a (b :: l) = b :: put key a l := if_neg h

@[simp] theorem mem_put_self : a ∈ put key a l := by
  induction l with
  | nil => simp [put]
  | cons b l ih =>
    by_cases h : key b = key a
    · simp [put_cons_of_eq h]
    · simp [put_cons_of_ne h, ih]

/-- An entry of the updated list is the new one or an old one. -/
theorem mem_put (h : b ∈ put key a l) : b = a ∨ b ∈ l := by
  induction l with
  | nil => simpa [put] using h
  | cons c l ih =>
    by_cases hc : key c = key a
    · rw [put_cons_of_eq hc] at h
      exact (mem_cons.1 h).imp id (mem_cons_of_mem c)
    · rw [put_cons_of_ne hc] at h
      rcases mem_cons.1 h with rfl | h
      · exact .inr (.head _)
      · exact (ih h).imp id (mem_cons_of_mem c)

/-- An entry with another key survives the update. -/
theorem mem_put_of_ne (h : b ∈ l) (hne : key b ≠ key a) : b ∈ put key a l := by
  induction l with
  | nil => exact absurd h not_mem_nil
  | cons c l ih =>
    by_cases hc : key c = key a
    · rw [put_cons_of_eq hc]
      rcases mem_cons.1 h with rfl | h
      · exact absurd hc hne
      · exact mem_cons_of_mem a h
    · rw [put_cons_of_ne hc]
      rcases mem_cons.1 h with rfl | h
      · exact .head _
      · exact mem_cons_of_mem c (ih h)

/-- Without an entry of its key the new entry is appended. -/
theorem put_eq_append (h : key a ∉ l.map key) : put key a l = l ++ [a] := by
  induction l with
  | nil => rfl
  | cons c l ih =>
    rw [map_cons, mem_cons, not_or] at h
    rw [put_cons_of_ne (fun hc => h.1 hc.symm), ih h.2, cons_append]

/-- The new entry takes the place of the entry that a lookup of its key finds: any
projection on which the two agree is unchanged. -/
theorem map_put_of_find? {β : Type} (f : α → β)
    (h : l.find? (fun c => key c = key a) = some b) (hf : f b = f a) :
    (put key a l).map f = l.map f := by
  induction l with
  | nil => cases h
  | cons c l ih =>
    by_cases hc : key c = key a
    · rw [find?_cons_of_pos (by simpa using hc), Option.some.injEq] at h
      rw [put_cons_of_eq hc, map_cons, map_cons, h, hf]
    · rw [find?_cons_of_neg (by simpa using hc)] at h
      rw [put_cons_of_ne hc, map_cons, map_cons, ih h]

/-- With an entry of its key the new entry takes its place: any projection on
which the two agree is unchanged. -/
theorem map_put_of_forall {β : Type} (f : α → β) (h : key a ∈ l.map key)
    (hf : ∀ c ∈ l, key c = key a → f c = f a) : (put key a l).map f = l.map f := by
  obtain ⟨c, hc, hk⟩ := mem_map.1 h
  cases hfind : l.find? (fun c => key c = key a) with
  | none => exact absurd hk (by simpa using find?_eq_none.1 hfind c hc)
  | some b =>
    exact map_put_of_find? f hfind
      (hf b (mem_of_find?_eq_some hfind) (by simpa using find?_some hfind))

theorem map_key_put_of_mem (h : key a ∈ l.map key) : (put key a l).map key = l.map key :=
  map_put_of_forall key h fun _ _ hc => hc

/-- `put` never repeats a key. -/
theorem nodup_put (h : (l.map key).Nodup) : ((put key a l).map key).Nodup := by
  by_cases hk : key a ∈ l.map key
  · rwa [map_key_put_of_mem hk]
  · rw [put_eq_append hk, map_append, map_singleton]
    exact nodup_append.2 ⟨h, nodup_singleton _, fun x hx y hy => by
      rw [mem_singleton] at hy
      rintro rfl
      exact hk (hy ▸ hx)⟩

theorem find?_put_self : (put key a l).find? (fun b => key b = key a) = some a := by
  induction l with
  | nil => simp [put]
  | cons b l ih =>
    by_cases h : key b = key a
    · simp [put_cons_of_eq h]
    · rw [put_cons_of_ne h, find?_cons_of_neg (by simpa using h), ih]

theorem find?_put_of_ne {k : κ} (hk : k ≠ key a) :
    (put key a l).find? (fun b => key b = k) = l.find? (fun b => key b = k) := by
  induction l with
  | nil => simp [put, Ne.symm hk]
  | cons b l ih =>
    by_cases h : key b = key a
    · have hb : key b ≠ k := fun e => hk (e.symm.trans h)
      rw [put_cons_of_eq h, find?_cons_of_neg (by simpa using Ne.symm hk),
        find?_cons_of_neg (by simpa using hb)]
    · rw [put_cons_of_ne h]
      by_cases hb : key b = k
      · rw [find?_cons_of_pos (by simpa using hb), find?_cons_of_pos (by simpa using hb)]
      · rw [find?_cons_of_neg (by simpa using hb), find?_cons_of_neg (by simpa using hb),
          ih]

end Put

/-! ### Tables -/

/-- A keyed list in which no key occurs twice. -/
structure Table (key : α → κ) where
  rows : List α
  nodup : (rows.map key).Nodup

namespace Table

variable {key : α → κ} {a b : α} {k : κ}

/-- The table without rows. -/
def empty : Table key := ⟨[], nodup_nil⟩

variable (t : Table key)

/-- The row with key `k`. -/
def find? (k : κ) : Option α := t.rows.find? (fun b => key b = k)

/-- Write a row: replace the row with its key, or add it. -/
def put (a : α) : Table key := ⟨Keyed.put key a t.rows, nodup_put t.nodup⟩

/-- Drop the row with key `k`. -/
def erase (k : κ) : Table key where
  rows := t.rows.filter (fun b => key b ≠ k)
  nodup := t.nodup.sublist (filter_sublist.map key)

variable {t : Table key}

@[simp] theorem find?_put_self : (t.put a).find? (key a) = some a := Keyed.find?_put_self

theorem find?_put_of_ne (h : k ≠ key a) : (t.put a).find? k = t.find? k :=
  Keyed.find?_put_of_ne h

theorem key_of_find? (h : t.find? k = some a) : key a = k := by
  simpa using find?_some h

theorem mem_of_find? (h : t.find? k = some a) : a ∈ t.rows := mem_of_find?_eq_some h

/-- Keys are unique, so a lookup finds every row. -/
theorem find?_of_mem (h : a ∈ t.rows) : t.find? (key a) = some a := by
  have hnd := t.nodup
  unfold find?
  revert h hnd
  induction t.rows with
  | nil => exact fun h => absurd h not_mem_nil
  | cons b l ih =>
    intro h hnd
    rw [map_cons, nodup_cons] at hnd
    rcases mem_cons.1 h with rfl | h
    · exact find?_cons_of_pos (by simp)
    · have hb : key b ≠ key a := fun e => hnd.1 (e ▸ mem_map_of_mem h)
      rw [find?_cons_of_neg (by simpa using hb)]
      exact ih h hnd.2

theorem find?_eq_some_iff : t.find? k = some a ↔ a ∈ t.rows ∧ key a = k :=
  ⟨fun h => ⟨mem_of_find? h, key_of_find? h⟩, fun h => h.2 ▸ find?_of_mem h.1⟩

theorem mem_put_iff : b ∈ (t.put a).rows ↔ b = a ∨ (b ∈ t.rows ∧ key b ≠ key a) := by
  constructor
  · intro h
    by_cases hk : key b = key a
    · have h₁ := find?_of_mem h
      rw [hk, find?_put_self] at h₁
      exact .inl (Option.some.inj h₁).symm
    · exact (mem_put h).imp id (fun hb => ⟨hb, hk⟩)
  · rintro (rfl | ⟨hb, hk⟩)
    · exact mem_put_self
    · exact mem_put_of_ne hb hk

@[simp] theorem find?_erase_self : (t.erase k).find? k = none := by
  unfold find? erase
  simp

theorem find?_erase_of_ne {k' : κ} (h : k' ≠ k) : (t.erase k).find? k' = t.find? k' := by
  unfold find? erase
  rw [find?_filter]
  refine congrArg (fun p => t.rows.find? p) (funext fun b => ?_)
  by_cases hb : key b = k'
  · simp [hb, h]
  · simp [hb]

/-- The lookup of a table as a map: `put` and `erase` update it at one key. -/
theorem find?_put : (t.put a).find? = Function.update t.find? (key a) (some a) := by
  funext k
  by_cases h : k = key a
  · rw [h, find?_put_self, Function.update_self]
  · rw [find?_put_of_ne h, Function.update_of_ne h]

theorem find?_erase : (t.erase k).find? = Function.update t.find? k none := by
  funext k'
  by_cases h : k' = k
  · rw [h, find?_erase_self, Function.update_self]
  · rw [find?_erase_of_ne h, Function.update_of_ne h]

theorem find?_foldl_put (l : List α) : (l.foldl put t).find? =
    l.foldl (fun map a => Function.update map (key a) (some a)) t.find? := by
  induction l generalizing t with
  | nil => rfl
  | cons a l ih => rw [foldl_cons, foldl_cons, ih, find?_put]

theorem find?_foldl_erase (ks : List κ) : (ks.foldl erase t).find? =
    ks.foldl (fun map k => Function.update map k none) t.find? := by
  induction ks generalizing t with
  | nil => rfl
  | cons k ks ih => rw [foldl_cons, foldl_cons, ih, find?_erase]

end Table

end Keyed
