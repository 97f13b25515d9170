import Mathlib

/-!
# Forests stored level by level

A forest given by `kids : α → List α` can be stored as a list of rows, one for each depth. The
rows are `Layered` if each row consists of the children of the row before it, in the order of
their parents. Then the children of a node stand next to each other: in the row below, after
the children of the nodes before it (`Layered.slice`). This is the invariant of tables whose
nodes find their children by an offset.

Rows are put `beside` each other when two forests become one, and the rows of a forest below
a parent are put under the row of the parent (`Layered.cons`). `graft` is what an insertion
does to a table that exists: rows are put beside its rows from some depth on.
-/

namespace Levels

open List

variable {α β : Type} {x : α}

/-- Two lists of rows side by side. -/
def beside : List (List α) → List (List α) → List (List α)
  | [], rows => rows
  | rows, [] => rows
  | row :: rows, row' :: rows' => (row ++ row') :: beside rows rows'

variable (rows : List (List α))

/-- The row at a depth. -/
def row (depth : ℕ) : List α := rows.getD depth []

@[simp] theorem nil_beside : beside [] rows = rows := by
  cases rows <;> rfl

@[simp] theorem beside_nil : beside rows [] = rows := by
  cases rows <;> rfl

@[simp] theorem row_nil (depth : ℕ) : row ([] : List (List α)) depth = [] := rfl

@[simp] theorem row_cons_zero (r : List α) (rows : List (List α)) : row (r :: rows) 0 = r := rfl

theorem row_beside (rows rows' : List (List α)) (depth : ℕ) :
    row (beside rows rows') depth = row rows depth ++ row rows' depth := by
  induction rows generalizing rows' depth with
  | nil => simp
  | cons r rows ih =>
    cases rows' with
    | nil => simp
    | cons r' rows' =>
      cases depth with
      | zero => rfl
      | succ depth => exact ih rows' depth

theorem beside_assoc (a b c : List (List α)) :
    beside (beside a b) c = beside a (beside b c) := by
  induction a generalizing b c with
  | nil => simp
  | cons r a ih =>
    cases b with
    | nil => simp
    | cons r' b =>
      cases c with
      | nil => simp
      | cons r'' c =>
        show (r ++ r' ++ r'') :: beside (beside a b) c = (r ++ (r' ++ r'')) :: beside a (beside b c)
        rw [ih, append_assoc]

theorem map_beside (f : List α → List β) (hf : ∀ r r', f (r ++ r') = f r ++ f r')
    (a b : List (List α)) : (beside a b).map f = beside (a.map f) (b.map f) := by
  induction a generalizing b with
  | nil => simp
  | cons r a ih =>
    cases b with
    | nil => simp
    | cons r' b =>
      show f (r ++ r') :: (beside a b).map f = (f r ++ f r') :: beside (a.map f) (b.map f)
      rw [hf, ih]

/-! ### Grafting -/

/-- The rows beside those of the table from a depth on. -/
def graft (depth : ℕ) (rows table : List (List α)) : List (List α) :=
  table.take depth ++ beside (table.drop depth) rows

section Graft

variable {table rows rows' : List (List α)} {depth : ℕ} {r : List α}

@[simp] theorem graft_nil : graft depth [] table = table := by
  rw [graft, beside_nil, take_append_drop]

theorem exists_split (h : depth ≤ table.length) :
    ∃ pre post, table = pre ++ post ∧ depth = pre.length :=
  ⟨table.take depth, table.drop depth, (take_append_drop _ _).symm,
    by rw [length_take, min_eq_left h]⟩

theorem graft_append {pre post : List (List α)} :
    graft pre.length rows (pre ++ post) = pre ++ beside post rows := by
  rw [graft, take_left, drop_left]

theorem graft_graft (h : depth ≤ table.length) :
    graft depth rows' (graft depth rows table) = graft depth (beside rows rows') table := by
  obtain ⟨pre, post, rfl, rfl⟩ := exists_split h
  rw [graft_append, graft_append, graft_append, beside_assoc]

theorem graft_succ (h : depth ≤ table.length) :
    graft (depth + 1) rows (graft depth [r] table) = graft depth (r :: rows) table := by
  obtain ⟨pre, post, rfl, rfl⟩ := exists_split h
  rw [graft_append, graft_append]
  -- the first row of `post` is completed, the others are left
  obtain ⟨r', post', hpost, hrows⟩ : ∃ r' post', beside post [r] = r' :: post' ∧
      beside post (r :: rows) = r' :: beside post' rows := by
    cases post with
    | nil => exact ⟨r, [], rfl, by rw [nil_beside, nil_beside]⟩
    | cons r' post => exact ⟨r' ++ r, post, congrArg _ (beside_nil post), rfl⟩
  have hsplit : pre ++ r' :: post' = (pre ++ [r']) ++ post' := by
    rw [append_assoc]
    rfl
  have hlength : pre.length + 1 = (pre ++ [r']).length := by rw [length_append]; rfl
  rw [hpost, hrows, hsplit, hlength, graft_append, append_assoc]
  rfl

theorem mem_beside {a b : List (List α)} (hr : r ∈ beside a b) (hx : x ∈ r) :
    (∃ r' ∈ a, x ∈ r') ∨ ∃ r' ∈ b, x ∈ r' := by
  induction a generalizing b with
  | nil =>
    exact .inr ⟨r, hr, hx⟩
  | cons r₁ a ih =>
    cases b with
    | nil => exact .inl ⟨r, hr, hx⟩
    | cons r₂ b =>
      obtain rfl | hr := mem_cons.1 hr
      · exact (mem_append.1 hx).imp (fun h => ⟨r₁, .head _, h⟩) fun h => ⟨r₂, .head _, h⟩
      · exact (ih hr).imp (fun ⟨r', hr', h⟩ => ⟨r', .tail _ hr', h⟩)
          fun ⟨r', hr', h⟩ => ⟨r', .tail _ hr', h⟩

theorem mem_graft (hr : r ∈ graft depth rows table) (hx : x ∈ r) :
    (∃ r' ∈ table, x ∈ r') ∨ ∃ r' ∈ rows, x ∈ r' := by
  rcases mem_append.1 hr with hr | hr
  · exact .inl ⟨r, mem_of_mem_take hr, hx⟩
  · exact (mem_beside hr hx).imp_left fun ⟨r', hr', h⟩ => ⟨r', mem_of_mem_drop hr', h⟩

end Graft

/-! ### Layers -/

/-- Where an index of the written rows lies. -/
theorem exists_of_getElem?_flatten {rows : List (List α)} {k : ℕ} (h : rows.flatten[k]? = some x) :
    ∃ pre front back post, rows = pre ++ (front ++ x :: back) :: post ∧
      k = pre.flatten.length + front.length := by
  induction rows generalizing k with
  | nil => cases h
  | cons r rows ih =>
    rw [flatten_cons] at h
    by_cases hk : k < r.length
    · rw [getElem?_append_left hk, getElem?_eq_getElem hk] at h
      cases h
      refine ⟨[], r.take k, r.drop (k + 1), rows, ?_, ?_⟩
      · rw [nil_append, getElem_cons_drop, take_append_drop]
      · rw [length_take, min_eq_left hk.le, flatten_nil, length_nil,
          zero_add]
    · rw [getElem?_append_right (not_lt.1 hk)] at h
      obtain ⟨pre, front, back, post, rfl, hk'⟩ := ih h
      refine ⟨r :: pre, front, back, post, rfl, ?_⟩
      rw [flatten_cons, length_append]
      omega

theorem length_flatten_beside (a b : List (List α)) :
    (beside a b).flatten.length = a.flatten.length + b.flatten.length := by
  induction a generalizing b with
  | nil => simp
  | cons r a ih =>
    cases b with
    | nil => simp
    | cons r' b =>
      show ((r ++ r') ++ (beside a b).flatten).length = _
      rw [length_append, length_append, ih, flatten_cons, flatten_cons,
        length_append, length_append]
      omega

/-- Each row consists of the children of the row before it. -/
def Layered (kids : α → List α) (rows : List (List α)) : Prop :=
  ∀ depth, row rows (depth + 1) = (row rows depth).flatMap kids

section Layered

variable {kids : α → List α} {rows rows' : List (List α)} {r : List α}

theorem Layered.nil : Layered kids [] := fun _ => rfl

theorem Layered.cons (h : Layered kids rows) (hr : row rows 0 = r.flatMap kids) :
    Layered kids (r :: rows) := by
  intro depth
  cases depth with
  | zero => exact hr
  | succ depth => exact h depth

theorem Layered.beside (h : Layered kids rows) (h' : Layered kids rows') :
    Layered kids (beside rows rows') := by
  intro depth
  rw [row_beside, row_beside, h depth, h' depth, flatMap_append]

/-- **Where the children are.** In the rows written one after the other, the children of `x`
start as far behind it as its row goes on, and then as many nodes as the children of the
nodes before it in its row. -/
theorem Layered.slice {pre post : List (List α)} {front back : List α}
    (h : Layered kids (pre ++ (front ++ x :: back) :: post)) :
    ∃ rest, (pre ++ (front ++ x :: back) :: post).flatten.drop
      (pre.flatten.length + (front ++ x :: back).length + (front.flatMap kids).length) =
        kids x ++ rest := by
  induction pre with
  | cons r pre ih =>
    obtain ⟨rest, hrest⟩ := ih (fun depth => h (depth + 1))
    refine ⟨rest, ?_⟩
    rw [cons_append, flatten_cons, flatten_cons, length_append,
      add_assoc, add_assoc, drop_length_add_append, ← add_assoc, hrest]
  | nil =>
    have hnext : row post 0 = (front ++ x :: back).flatMap kids := h 0
    cases post with
    | nil =>
      -- the last row has no children
      have hx : kids x = [] := by
        have hnone : (front ++ x :: back).flatMap kids = [] := hnext.symm
        rw [flatMap_eq_nil_iff] at hnone
        exact hnone x (by simp)
      rw [hx]
      exact ⟨_, (nil_append _).symm⟩
    | cons r post =>
      obtain rfl : r = (front ++ x :: back).flatMap kids := hnext
      refine ⟨back.flatMap kids ++ post.flatten, ?_⟩
      rw [nil_append, flatten_cons, flatten_cons, flatten_nil,
        length_nil, zero_add, drop_length_add_append, flatMap_append,
        append_assoc, drop_left, flatMap_cons, append_assoc]

end Layered

end Levels
