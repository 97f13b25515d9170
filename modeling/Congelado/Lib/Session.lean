import Mathlib

/-!
# Working on copies of stored records

Code that is driven by callbacks reads a record from a store, works on its copy
over several operations and writes the copy back at the end. While it does, the
pending operations hold copies, and the store holds the record as it was.

`Flow` lists what one operation can do with copies: leave them alone, drop the
one it holds, load some, work on one, make a new record, or write one to the
store, with or without going on to the next one it holds. Working on a copy may lose
the other copies the operation held.

The record *as it stands* (`current`) is the copy that is held, or the stored record if
none is. As long as an operation loads a record only while no copy of it is held, no copy is
lost, and what is dropped is what is stored, there is never more than one copy, and the record
as it stands changes only when an operation works on it (`Flow.current_step`): updates are
not lost. Without those assumptions, what is held and stored still comes from what was held
and stored before (`Flow.mem_given`, `Flow.stored_eq_some`).
-/

namespace Session

open List Function

variable {α κ : Type} [DecidableEq κ]

/-- The copies of the record `k` among the copies held. -/
def copies (key : α → κ) (k : κ) (held : List α) : List α := held.filter fun x => key x = k

/-- The record `k` as it stands. -/
def current (key : α → κ) (stored : κ → Option α) (held : List α) (k : κ) : Option α :=
  match copies key k held with
  | [] => stored k
  | x :: _ => some x

section Copies

variable {key : α → κ} {k : κ} {held held' : List α} {x : α} {stored : κ → Option α}

theorem copies_append : copies key k (held ++ held') = copies key k held ++ copies key k held' :=
  filter_append ..

theorem copies_cons_of_eq (h : key x = k) : copies key k (x :: held) = x :: copies key k held :=
  filter_cons_of_pos (by simpa using h)

theorem copies_cons_of_ne (h : key x ≠ k) : copies key k (x :: held) = copies key k held :=
  filter_cons_of_neg (by simpa using h)

theorem copies_eq_nil : copies key k held = [] ↔ ∀ x ∈ held, key x ≠ k := by
  simp [copies, filter_eq_nil_iff]

theorem mem_copies : x ∈ copies key k held ↔ x ∈ held ∧ key x = k := by
  simp [copies]

theorem current_of_not_held (h : ∀ x ∈ held, key x ≠ k) : current key stored held k = stored k := by
  rw [current, copies_eq_nil.2 h]

theorem current_of_copies (h : copies key k held = [x]) : current key stored held k = some x := by
  rw [current, h]

/-- With at most one copy, the order in which copies are held does not matter. -/
theorem copies_eq_of_perm (h : held.Perm held') (hone : (copies key k held).length ≤ 1) :
    copies key k held' = copies key k held := by
  have hperm : (copies key k held).Perm (copies key k held') := h.filter _
  match hc : copies key k held with
  | [] => rw [hc] at hperm; exact hperm.nil_eq.symm
  | [x] => rw [hc] at hperm; exact (singleton_perm.1 hperm).symm
  | x :: y :: l => rw [hc] at hone; simp at hone

theorem current_congr (h : copies key k held' = copies key k held) :
    current key stored held' k = current key stored held k := by
  rw [current, current, h]

end Copies

/-- What one operation may do with records. -/
structure Effects (α κ : Type) where
  /-- work turns the first copy into the second -/
  change : α → α → Prop
  /-- the record may be made -/
  born : α → Prop
  /-- the copy may be dropped -/
  dropped : α → Prop
  /-- the record may be read from the store -/
  read : κ → Prop
  /-- the copies behind the one that is worked on may be lost -/
  lost : Prop
  /-- the copy is written to the store -/
  written : α → Prop

/-- What one operation does: the copies it held, the copies held by the
operations it issued, and the store before and after. -/
inductive Flow (key : α → κ) (E : Effects α κ) (stored : κ → Option α) :
    List α → List α → (κ → Option α) → Prop
  | idle : Flow key E stored [] [] stored
  | drop (x : α) (h : E.dropped x) : Flow key E stored [x] [] stored
  | load (ys : List α)
      (h : ∀ y ∈ ys, E.read (key y) ∧ ∃ x, stored (key x) = some x ∧ E.change x y)
      (nodup : (ys.map key).Nodup) : Flow key E stored [] ys stored
  | work (x y : α) (rest kept : List α) (h : E.change x y)
      (hk : kept = rest ∨ E.lost ∧ kept = []) : Flow key E stored (x :: rest) (y :: kept) stored
  | create (y : α) (rest : List α) (h : E.born y) : Flow key E stored rest (y :: rest) stored
  | write (x : α) (hw : E.written x) :
      Flow key E stored [x] [] (Function.update stored (key x) (some x))
  | writeWork (x x' y : α) (rest : List α) (hw : E.written x) (h : E.change x' y) :
      Flow key E stored (x :: x' :: rest) (y :: rest) (Function.update stored (key x) (some x))

namespace Flow

variable {key : α → κ} {E : Effects α κ} {stored stored' : κ → Option α}
    {taken given others : List α} {k : κ} {x : α}

section

variable (h : Flow key E stored taken given stored')

include h

/-- A copy that is held afterwards was held before, or comes from a copy or a
stored record that was worked on, or is new. -/
theorem mem_given {y : α} (hy : y ∈ given) :
    y ∈ taken ∨ (∃ x, (x ∈ taken ∨ stored (key x) = some x) ∧ E.change x y) ∨ E.born y := by
  cases h with
  | idle | drop | write => exact absurd hy not_mem_nil
  | load ys h nodup =>
    obtain ⟨-, x, hx, hc⟩ := h y hy
    exact .inr (.inl ⟨x, .inr hx, hc⟩)
  | work x y' rest kept h hk =>
    rcases mem_cons.1 hy with rfl | hy
    · exact .inr (.inl ⟨x, .inl (.head _), h⟩)
    · rcases hk with rfl | ⟨-, rfl⟩
      · exact .inl (.tail _ hy)
      · exact absurd hy not_mem_nil
  | create y' rest h =>
    rcases mem_cons.1 hy with rfl | hy
    · exact .inr (.inr h)
    · exact .inl hy
  | writeWork x x' y' rest hw h =>
    rcases mem_cons.1 hy with rfl | hy
    · exact .inr (.inl ⟨x', .inl (.tail _ (.head _)), h⟩)
    · exact .inl (.tail _ (.tail _ hy))

/-- The store is left alone, or the first copy is written and what is held
afterwards comes from the other copies. -/
theorem stored_cases :
    stored' = stored ∨ ∃ x rest, taken = x :: rest ∧ E.written x ∧
      stored' = Function.update stored (key x) (some x) ∧
      ∀ y ∈ given, y ∈ rest ∨ ∃ x' ∈ rest, E.change x' y := by
  cases h with
  | write x hw => exact .inr ⟨x, [], rfl, hw, rfl, fun y hy => absurd hy not_mem_nil⟩
  | writeWork x x' y rest hw h =>
    refine .inr ⟨x, x' :: rest, rfl, hw, rfl, fun z hz => ?_⟩
    rcases mem_cons.1 hz with rfl | hz
    · exact .inr ⟨x', .head _, h⟩
    · exact .inl (.tail _ hz)
  | _ => exact .inl rfl

/-- A record that is stored afterwards was stored before or was held. -/
theorem stored_eq_some (hx : stored' k = some x) : stored k = some x ∨ x ∈ taken ∧ key x = k := by
  rcases h.stored_cases with hsame | ⟨z, rest, rfl, -, hstored, -⟩
  · exact .inl (hsame ▸ hx)
  · rw [hstored] at hx
    by_cases hk : k = key z
    · subst hk
      rw [update_self] at hx
      cases hx
      exact .inr ⟨.head _, rfl⟩
    · rw [update_of_ne hk] at hx
      exact .inl hx

end

/-- What became of the record `k`: nothing, or it was worked on, or it is new. -/
inductive Outcome (key : α → κ) (E : Effects α κ) (k : κ) : Option α → Option α → Prop
  | same (before : Option α) : Outcome key E k before before
  | changed (x y : α) (h : E.change x y) : Outcome key E k (some x) (some y)
  | born (y : α) (before : Option α) (h : E.born y) (hk : key y = k) :
      Outcome key E k before (some y)

/-- A copy in the first list is the only one. -/
theorem copies_of_mem (hone : (copies key k (taken ++ others)).length ≤ 1)
    (hx : x ∈ taken) (hk : key x = k) :
    copies key k taken = [x] ∧ copies key k others = [] := by
  have hmem := mem_copies.2 ⟨hx, hk⟩
  rw [copies_append, length_append] at hone
  match hc : copies key k taken with
  | [] => rw [hc] at hmem; exact absurd hmem not_mem_nil
  | [z] =>
    rw [hc, mem_singleton] at hmem
    rw [hc, length_singleton] at hone
    exact ⟨by rw [hmem], eq_nil_of_length_eq_zero (by omega)⟩
  | _ :: _ :: _ => rw [hc] at hone; simp at hone; omega

section Step

variable (hkey : ∀ x y, E.change x y → key y = key x)

include hkey in
/-- What an operation does with the one copy it holds: it holds it no more, or
still holds it, changed or not. -/
theorem given_of_held (h : Flow key E stored taken given stored')
    (htaken : copies key k taken = [x]) (hborn : ∀ y, E.born y → key y ≠ k) :
    copies key k given = [] ∨ ∃ y, copies key k given = [y] ∧ (y = x ∨ E.change x y) := by
  -- the worked-on copy `z ↦ y` sits in front of the copies that are kept or lost
  have front : ∀ z y rest kept, E.change z y → kept = rest ∨ E.lost ∧ kept = [] →
      copies key k (z :: rest) = [x] → copies key k (y :: kept) = [] ∨
        ∃ v, copies key k (y :: kept) = [v] ∧ (v = x ∨ E.change x v) := by
    intro z y rest kept hzy hkept hz
    by_cases hzk : key z = k
    · rw [copies_cons_of_eq hzk, List.cons.injEq] at hz
      obtain ⟨rfl, hrest⟩ := hz
      have hk : copies key k kept = [] := by
        rcases hkept with rfl | ⟨-, rfl⟩ <;> [exact hrest; rfl]
      rw [copies_cons_of_eq ((hkey z y hzy).trans hzk), hk]
      exact .inr ⟨y, rfl, .inr hzy⟩
    · rw [copies_cons_of_ne hzk] at hz
      rw [copies_cons_of_ne (by rwa [hkey z y hzy])]
      rcases hkept with rfl | ⟨-, rfl⟩
      · exact .inr ⟨x, hz, .inl rfl⟩
      · exact .inl rfl
  cases h with
  | idle | drop | write => exact .inl rfl
  | load ys h nodup => exact absurd htaken (by simp [copies])
  | work z y rest kept h hk => exact front z y rest kept h hk htaken
  | create y rest h =>
    rw [copies_cons_of_ne (hborn y h)]
    exact .inr ⟨x, htaken, .inl rfl⟩
  | writeWork z z' y rest hw h =>
    by_cases hz : key z = k
    · -- the written copy was the only one
      rw [copies_cons_of_eq hz, List.cons.injEq] at htaken
      have hz' := copies_eq_nil.1 htaken.2
      rw [copies_cons_of_ne ((hkey z' y h).symm ▸ hz' z' (.head _))]
      exact .inl (copies_eq_nil.2 fun v hv => hz' v (.tail _ hv))
    · rw [copies_cons_of_ne hz] at htaken
      exact front z' y rest rest h (.inl rfl) htaken

include hkey in
/-- What an operation does with a record it does not hold: nothing, or it loads it
or makes it. -/
theorem given_of_not_held (h : Flow key E stored taken given stored')
    (htaken : copies key k taken = []) :
    stored' k = stored k ∧ (copies key k given = [] ∨
      (∃ x y, copies key k given = [y] ∧ E.read k ∧ stored k = some x ∧ E.change x y) ∨
      ∃ y, copies key k given = [y] ∧ E.born y ∧ key y = k) := by
  have hheld := copies_eq_nil.1 htaken
  cases h with
  | idle | drop => exact ⟨rfl, .inl rfl⟩
  | load ys h nodup =>
    refine ⟨rfl, ?_⟩
    by_cases hmem : ∃ y ∈ given, key y = k
    · obtain ⟨y, hy, rfl⟩ := hmem
      obtain ⟨hread, x, hx, hc⟩ := h y hy
      refine .inr (.inl ⟨x, y, ?_, hread, (hkey x y hc) ▸ hx, hc⟩)
      -- the keys of the loaded copies are distinct
      clear h
      induction given with
      | nil => exact absurd hy not_mem_nil
      | cons z given ih =>
        rw [map_cons, nodup_cons] at nodup
        by_cases hz : key z = key y
        · have hnone : ∀ v ∈ given, key v ≠ key y := fun v hv hvy =>
            nodup.1 (hz.trans hvy.symm ▸ mem_map_of_mem hv)
          rw [copies_cons_of_eq hz, copies_eq_nil.2 hnone]
          rcases mem_cons.1 hy with rfl | hy
          · rfl
          · exact absurd rfl (hnone y hy)
        · rw [copies_cons_of_ne hz]
          exact ih nodup.2 ((mem_cons.1 hy).resolve_left fun e => hz (e ▸ rfl))
    · push Not at hmem
      exact .inl (copies_eq_nil.2 hmem)
  | work x y rest kept h hk =>
    refine ⟨rfl, .inl ?_⟩
    rw [copies_cons_of_ne ((hkey x y h).symm ▸ hheld x (.head _))]
    rcases hk with rfl | ⟨-, rfl⟩
    · exact copies_eq_nil.2 fun v hv => hheld v (.tail _ hv)
    · rfl
  | create y rest h =>
    refine ⟨rfl, ?_⟩
    by_cases hy : key y = k
    · rw [copies_cons_of_eq hy, htaken]
      exact .inr (.inr ⟨y, rfl, h, hy⟩)
    · rw [copies_cons_of_ne hy]
      exact .inl htaken
  | write x hw =>
    exact ⟨update_of_ne (Ne.symm (hheld x (.head _))) _ _, .inl rfl⟩
  | writeWork x x' y rest hw h =>
    refine ⟨update_of_ne (Ne.symm (hheld x (.head _))) _ _, .inl ?_⟩
    rw [copies_cons_of_ne
      ((hkey x' y h).symm ▸ hheld x' (.tail _ (.head _)))]
    exact copies_eq_nil.2 fun v hv => hheld v (.tail _ (.tail _ hv))

/-- A copy that is held no more was written, or was what is stored. -/
theorem stored_of_released (h : Flow key E stored taken given stored')
    (hkey : ∀ x y, E.change x y → key y = key x) (hx : x ∈ taken) (hk : key x = k)
    (hgiven : copies key k given = []) (hdrop : ∀ x, E.dropped x → key x = k → stored k = some x)
    (hlost : E.lost → ∀ x ∈ taken.tail, key x ≠ k) : stored' k = some x := by
  have hnone := copies_eq_nil.1 hgiven
  cases h with
  | idle | load => exact absurd hx not_mem_nil
  | drop z h =>
    obtain rfl := mem_singleton.1 hx
    exact hdrop x h hk
  | work z y rest kept h hkept =>
    rcases mem_cons.1 hx with rfl | hx
    · exact absurd ((hkey x y h).trans hk) (hnone y (.head _))
    · rcases hkept with rfl | ⟨hl, -⟩
      · exact absurd hk (hnone x (.tail _ hx))
      · exact absurd hk (hlost hl x hx)
  | create y rest h => exact absurd hk (hnone x (.tail _ hx))
  | write z hw =>
    obtain rfl := mem_singleton.1 hx
    rw [← hk, update_self]
  | writeWork z z' y rest hw h =>
    rcases mem_cons.1 hx with rfl | hx
    · rw [← hk, update_self]
    · rcases mem_cons.1 hx with rfl | hx
      · exact absurd ((hkey x y h).trans hk) (hnone y (.head _))
      · exact absurd hk (hnone x (.tail _ hx))

include hkey in
/-- **One copy, and no update is lost.** If a record is loaded or made only while no copy of it
is held, what is dropped is what is stored, and no copy of it is lost, then at most one copy of
it is held, and the record as it stands changes only by work on it. -/
theorem current_step (h : Flow key E stored taken given stored')
    (hone : (copies key k (taken ++ others)).length ≤ 1)
    (hborn : ∀ y, E.born y → key y = k → ∀ x ∈ taken ++ others, key x ≠ k)
    (hread : E.read k → ∀ x ∈ others, key x ≠ k)
    (hdrop : ∀ x, E.dropped x → key x = k → stored k = some x)
    (hlost : E.lost → ∀ x ∈ taken.tail, key x ≠ k) :
    (copies key k (others ++ given)).length ≤ 1 ∧
      Outcome key E k (current key stored (taken ++ others) k)
        (current key stored' (others ++ given) k) := by
  by_cases hheld : ∃ x ∈ taken, key x = k
  · obtain ⟨x, hx, hk⟩ := hheld
    have hborn' : ∀ y, E.born y → key y ≠ k := fun y hy hyk =>
      hborn y hy hyk x (mem_append_left _ hx) hk
    obtain ⟨htaken, hothers⟩ := copies_of_mem hone hx hk
    have hbefore : copies key k (taken ++ others) = [x] := by
      rw [copies_append, htaken, hothers, append_nil]
    have hafter : copies key k (others ++ given) = copies key k given := by
      rw [copies_append, hothers, nil_append]
    rw [current_of_copies hbefore, hafter]
    rcases given_of_held hkey h htaken hborn' with hg | ⟨y, hg, hxy⟩
    · -- given up: what it was is what is stored
      rw [current_of_not_held (copies_eq_nil.1 (hafter.trans hg)), hg,
        h.stored_of_released hkey hx hk hg hdrop hlost]
      exact ⟨Nat.zero_le 1, .same _⟩
    · rw [current_of_copies (hafter.trans hg), hg]
      rcases hxy with rfl | hc
      · exact ⟨le_rfl, .same _⟩
      · exact ⟨le_rfl, .changed x y hc⟩
  · push Not at hheld
    have htaken := copies_eq_nil.2 hheld
    have hbefore : copies key k (taken ++ others) = copies key k others := by
      rw [copies_append, htaken, nil_append]
    -- a copy that is given is the only one
    have only : ∀ y, copies key k given = [y] → (∀ x ∈ others, key x ≠ k) →
        copies key k (others ++ given) = [y] := by
      intro y hg hothers
      rw [copies_append, copies_eq_nil.2 hothers, hg, nil_append]
    obtain ⟨hstored, hg | ⟨x, y, hg, hr, hx, hxy⟩ | ⟨y, hg, hb, hyk⟩⟩ :=
      given_of_not_held hkey h htaken
    · -- not touched
      have hafter : copies key k (others ++ given) = copies key k (taken ++ others) := by
        rw [copies_append, hg, append_nil, hbefore]
      have hcur : current key stored' (others ++ given) k =
          current key stored (taken ++ others) k := by
        unfold current
        rw [hafter, hstored]
      rw [hcur, hafter]
      exact ⟨hone, .same _⟩
    · have hnone : ∀ z ∈ taken ++ others, key z ≠ k := fun z hz =>
        (mem_append.1 hz).elim (hheld z) (hread hr z)
      have hafter := only y hg (hread hr)
      rw [current_of_copies hafter, hafter, current_of_not_held hnone, hx]
      exact ⟨le_rfl, .changed x y hxy⟩
    · have hafter := only y hg fun x hx => hborn y hb hyk x (mem_append_right _ hx)
      rw [current_of_copies hafter, hafter]
      exact ⟨le_rfl, .born y _ hb hyk⟩

end Step

end Flow

end Session
