import Mathlib

/-!
# Chains of continuations

A chain of functions each of which is handed a continuation that runs the rest of the chain.
A function may return without calling it, call it and go on with what it left behind, or call
it several times (`Behaviour`). `run` runs a chain and records which positions were entered
and at which ones the continuation was called.

`Passes` says that some sequence of calls gets through the whole chain. If it does, every
position has called its continuation (`Passes.continued`); if it does not, there is a position
that was entered and never called it (`exists_stuck`). In any case nothing after such a position
is entered (`continued_of_entered`).
-/

namespace Chain

open List

variable {S M : Type}

/-- What a function does with its continuation: it returns, or it calls the continuation and
goes on from the state in which the call returns. -/
inductive Behaviour (S : Type)
  | ret (state : S)
  | next (state : S) (after : S → Behaviour S)

inductive Mark
  | entered (index : ℕ)
  | continued (index : ℕ)
  deriving DecidableEq

def Mark.index : Mark → ℕ
  | .entered index => index
  | .continued index => index

variable {mark : Mark}

namespace Behaviour

/-- A function at a position, with its continuation. -/
def exec (next : S → S × List Mark) (index : ℕ) : Behaviour S → S × List Mark
  | .ret state => (state, [])
  | .next state after =>
    let inner := next state
    let outer := (after inner.1).exec next index
    (outer.1, .continued index :: (inner.2 ++ outer.2))

/-- The states in which the continuation is called. -/
def calls (next : S → S) : Behaviour S → List S
  | .ret _ => []
  | .next state after => state :: (after (next state)).calls next

theorem mem_exec {next : S → S × List Mark} {index : ℕ} (b : Behaviour S) :
    mark ∈ (b.exec next index).2 ↔
      ∃ state ∈ b.calls fun s => (next s).1, mark = .continued index ∨ mark ∈ (next state).2 := by
  induction b with
  | ret state => simp [exec, calls]
  | next state after ih =>
    rw [exec, calls]
    simp only [mem_cons, mem_append, ih, exists_eq_or_imp, or_assoc]

end Behaviour

/-- The chain from a position on. -/
def run (behave : M → S → Behaviour S) : ℕ → List M → S → S × List Mark
  | _, [], s => (s, [])
  | index, m :: rest, s =>
    let result := (behave m s).exec (run behave (index + 1) rest) index
    (result.1, .entered index :: result.2)

/-- Some call of the first function is made in a state from which the rest is passed. -/
def Passes (behave : M → S → Behaviour S) : ℕ → List M → S → Prop
  | _, [], _ => True
  | index, m :: rest, s =>
    ∃ state ∈ (behave m s).calls fun s => (run behave (index + 1) rest s).1,
      Passes behave (index + 1) rest state

section Run

variable {behave : M → S → Behaviour S} {index : ℕ} {s : S} {chain : List M} {k : ℕ}

theorem mem_run_cons {m : M} {rest : List M} :
    mark ∈ (run behave index (m :: rest) s).2 ↔ mark = .entered index ∨
      ∃ state ∈ (behave m s).calls fun s => (run behave (index + 1) rest s).1,
        mark = .continued index ∨ mark ∈ (run behave (index + 1) rest state).2 := by
  rw [run, mem_cons, Behaviour.mem_exec]

theorem entered_mem_run (h : chain ≠ []) :
    .entered index ∈ (run behave index chain s).2 := by
  cases chain with
  | nil => exact absurd rfl h
  | cons m rest => exact mem_run_cons.2 (.inl rfl)

/-- The marks of a chain are those of its positions. -/
theorem index_mem_run (h : mark ∈ (run behave index chain s).2) :
    index ≤ mark.index ∧ mark.index < index + chain.length := by
  induction chain generalizing index s with
  | nil => cases h
  | cons m rest ih =>
    rw [length_cons]
    obtain rfl | ⟨state, -, rfl | h⟩ := mem_run_cons.1 h
    · exact ⟨le_rfl, by simp only [Mark.index]; omega⟩
    · exact ⟨le_rfl, by simp only [Mark.index]; omega⟩
    · obtain ⟨hle, hlt⟩ := ih h
      omega

/-- A position is entered only through calls at all positions before it. -/
theorem continued_of_entered {index j k : ℕ}
    (h : .entered k ∈ (run behave index chain s).2) (hj : index ≤ j) (hjk : j < k) :
    .continued j ∈ (run behave index chain s).2 := by
  induction chain generalizing index s with
  | nil => cases h
  | cons m rest ih =>
    obtain hself | ⟨state, hstate, hself | h⟩ := mem_run_cons.1 h
    · cases hself
      omega
    · cases hself
    · refine mem_run_cons.2 (.inr ⟨state, hstate, ?_⟩)
      obtain rfl | hlt := eq_or_lt_of_le hj
      · exact .inl rfl
      · exact .inr (ih h hlt)

/-- A call leads to the next position. -/
theorem entered_of_continued
    (h : .continued k ∈ (run behave index chain s).2) (hk : k + 1 < index + chain.length) :
    .entered (k + 1) ∈ (run behave index chain s).2 := by
  induction chain generalizing index s with
  | nil => cases h
  | cons m rest ih =>
    rw [length_cons] at hk
    obtain hself | ⟨state, hstate, hself | h⟩ := mem_run_cons.1 h
    · cases hself
    · cases hself
      refine mem_run_cons.2 (.inr ⟨state, hstate, .inr (entered_mem_run ?_)⟩)
      exact ne_nil_of_length_pos (by omega)
    · exact mem_run_cons.2 (.inr ⟨state, hstate, .inr (ih h (by omega))⟩)

theorem Passes.continued (h : Passes behave index chain s)
    (hle : index ≤ k) (hlt : k < index + chain.length) :
    .continued k ∈ (run behave index chain s).2 := by
  induction chain generalizing index s with
  | nil =>
    rw [length_nil] at hlt
    omega
  | cons m rest ih =>
    obtain ⟨state, hstate, hrest⟩ := h
    rw [length_cons] at hlt
    refine mem_run_cons.2 (.inr ⟨state, hstate, ?_⟩)
    obtain rfl | hle := eq_or_lt_of_le hle
    · exact .inl rfl
    · exact .inr (ih hrest hle (by omega))

/-- A call at the last position gets through the chain. -/
theorem passes_of_continued
    (h : .continued k ∈ (run behave index chain s).2) (hk : k + 1 = index + chain.length) :
    Passes behave index chain s := by
  induction chain generalizing index s with
  | nil => cases h
  | cons m rest ih =>
    rw [length_cons] at hk
    obtain hself | ⟨state, hstate, hself | h⟩ := mem_run_cons.1 h
    · cases hself
    · cases hself
      have hnil : rest = [] := eq_nil_of_length_eq_zero (by omega)
      exact ⟨state, hstate, by rw [hnil]; trivial⟩
    · exact ⟨state, hstate, ih h (by omega)⟩

/-- A chain that is not passed has a position that was entered and never called its
continuation. -/
theorem exists_stuck (h : ¬Passes behave index chain s) :
    ∃ k, .entered k ∈ (run behave index chain s).2 ∧
      .continued k ∉ (run behave index chain s).2 := by
  by_contra hnone
  have hcontinued : ∀ k, .entered k ∈ (run behave index chain s).2 →
      .continued k ∈ (run behave index chain s).2 :=
    fun k hk => not_not.1 fun hnot => hnone ⟨k, hk, hnot⟩
  have hne : chain ≠ [] := by
    rintro rfl
    exact h trivial
  have hpos : 0 < chain.length := length_pos_of_ne_nil hne
  -- every position is entered and calls its continuation, the last one too
  have hall : ∀ d < chain.length, .continued (index + d) ∈ (run behave index chain s).2 := by
    intro d hd
    induction d with
    | zero => exact hcontinued _ (entered_mem_run hne)
    | succ d ih =>
        exact hcontinued _ (entered_of_continued (ih (by omega)) (show index + d + 1 < _ by omega))
  exact h (passes_of_continued (hall (chain.length - 1) (by omega)) (by omega))

end Run

end Chain
