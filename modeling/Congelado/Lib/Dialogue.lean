import Mathlib

/-!
# Programs that query their environment

Code in continuation-passing style that asks questions and makes reports. A `Program` is
the tree of all the ways it can go on: what it does after a question depends on the
answer, and after a report it may go on or stop. Nothing in the tree forces a program to
make a report, or to make only one; that it does so is a property (`Once`).

`exec` plays a program against an environment that answers the `n`-th question in its
current state. Two rules turn properties of the tree into properties of every play.

* `Once.reports`: a program that reports once on every branch reports once.
* `Stops.trace`: a program that asks nothing more after a bad answer has its bad answers
  at the end of its trace.
-/

namespace Dialogue

variable {Q A R W : Type}

/-- A program with questions `Q`, answers `A` and reports `R`. -/
inductive Program (Q A R : Type)
  | ask (q : Q) (k : A → Program Q A R)
  | report (r : R) (rest : Program Q A R)
  | halt

/-- What a play leaves behind: the state of the environment, the questions with their
answers, and the reports. -/
structure Outcome (W Q A R : Type) where
  world : W
  trace : List (Q × A) := []
  reports : List R := []

namespace Program

variable {bad : Q → A → Prop}

/-- Play a program; `n` counts the questions. -/
def exec (answer : ℕ → Q → W → W × A) : Program Q A R → ℕ → W → Outcome W Q A R
  | .ask q k, n, w =>
    let o := (k (answer n q w).2).exec answer (n + 1) (answer n q w).1
    { o with trace := (q, (answer n q w).2) :: o.trace }
  | .report r rest, n, w =>
    let o := rest.exec answer n w
    { o with reports := r :: o.reports }
  | .halt, _, w => { world := w }

@[simp] theorem exec_ask_world (answer : ℕ → Q → W → W × A) (q : Q) (k : A → Program Q A R)
    (n : ℕ) (w : W) :
    ((ask q k).exec answer n w).world =
      ((k (answer n q w).2).exec answer (n + 1) (answer n q w).1).world := rfl

/-! ### Reports -/

/-- No branch makes a report. -/
def Silent : Program Q A R → Prop
  | .ask _ k => ∀ a, (k a).Silent
  | .report _ _ => False
  | .halt => True

/-- Every branch makes exactly one report. -/
def Once : Program Q A R → Prop
  | .ask _ k => ∀ a, (k a).Once
  | .report _ rest => rest.Silent
  | .halt => False

variable {answer : ℕ → Q → W → W × A} {p : Program Q A R}

theorem Silent.reports (h : p.Silent) (n : ℕ) (w : W) : (p.exec answer n w).reports = [] := by
  induction p generalizing n w with
  | ask q k ih => exact ih _ (h _) _ _
  | report r rest ih => exact h.elim
  | halt => rfl

theorem Once.reports (h : p.Once) (n : ℕ) (w : W) :
    ∃ r, (p.exec answer n w).reports = [r] := by
  induction p generalizing n w with
  | ask q k ih => exact ih _ (h _) _ _
  | report r rest ih => exact ⟨r, congrArg (r :: ·) (Silent.reports h n w)⟩
  | halt => exact h.elim

/-! ### Stopping -/

/-- No branch asks a question. -/
def Quiet : Program Q A R → Prop
  | .ask _ _ => False
  | .report _ rest => rest.Quiet
  | .halt => True

/-- After a bad answer no question is asked. -/
def Stops (bad : Q → A → Prop) : Program Q A R → Prop
  | .ask q k => ∀ a, (k a).Stops bad ∧ (bad q a → (k a).Quiet)
  | .report _ rest => rest.Stops bad
  | .halt => True

theorem Quiet.trace (h : p.Quiet) (n : ℕ) (w : W) : (p.exec answer n w).trace = [] := by
  induction p generalizing n w with
  | ask q k ih => exact h.elim
  | report r rest ih => exact ih h _ _
  | halt => rfl

theorem Quiet.world (h : p.Quiet) (n : ℕ) (w : W) : (p.exec answer n w).world = w := by
  induction p generalizing n w with
  | ask q k ih => exact h.elim
  | report r rest ih => exact ih h _ _
  | halt => rfl

theorem Quiet.stops (h : p.Quiet) : p.Stops bad := by
  induction p with
  | ask q k ih => exact h.elim
  | report r rest ih => exact ih h
  | halt => trivial

theorem Stops.trace (h : p.Stops bad) {n : ℕ} {w : W} {before after : List (Q × A)} {q : Q} {a : A}
    (htrace : (p.exec answer n w).trace = before ++ (q, a) :: after) (hbad : bad q a) :
    after = [] := by
  induction p generalizing n w before with
  | ask q' k ih =>
    obtain ⟨hrest, hquiet⟩ := h (answer n q' w).2
    cases before with
    | nil =>
      -- the question itself got the bad answer
      obtain ⟨hfirst, hafter⟩ := List.cons.inj htrace
      obtain ⟨rfl, rfl⟩ := Prod.mk.inj hfirst
      rw [← hafter]
      exact Quiet.trace (hquiet hbad) _ _
    | cons c before => exact ih _ hrest (List.cons.inj htrace).2
  | report r rest ih => exact ih h htrace
  | halt => cases before <;> cases htrace

end Program

end Dialogue
