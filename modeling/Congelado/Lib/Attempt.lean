import Mathlib.Data.List.Basic

/-!
# Actions that may throw

An action on a state ends with the state it leaves and with what it throws, if anything. What it has
done before it throws stays done, as in a language whose exceptions undo nothing. Actions are put
together with `andThen`, `reading`, `each` and `rescue`, and act on a part of a larger state with
`zoom`.

`o.Ends Q E` says of an outcome that it is a state with `Q`, or that `e` was thrown in a state with
`E e`. For each construct there is a rule that reduces the judgment to its parts, so that the
weakest condition for the end of an action is found by rewriting (`andThen_ends`, `reading_ends`,
`rescue_ends`, `zoom_ends`).

`Keeps R f` says that the state `f` ends in is related to the one it began in, whether it throws or
not. For a preorder `R` the constructs keep what their parts keep.

`o.Related R o'` compares two outcomes: the same is thrown, in related states. An action that
`Respects R` goes the same way from related states, so that it does not depend on what `R` leaves
open.
-/

namespace Attempt

variable {ε σ τ α : Type} {value : σ → Except ε α}

/-- How an action ends. -/
@[ext]
structure Outcome (ε σ : Type) where
  state : σ
  thrown : Option ε := none

/-- The outcome is a state with `Q`, or `e` was thrown in a state with `E e`. -/
def Outcome.Ends (o : Outcome ε σ) (Q : σ → Prop) (E : ε → σ → Prop) : Prop :=
  match o.thrown with
  | none => Q o.state
  | some e => E e o.state

/-- The same end, with another state. -/
def Outcome.map (f : σ → σ) (o : Outcome ε σ) : Outcome ε σ := { o with state := f o.state }

/-- What is done to a state. -/
abbrev Action (ε σ : Type) : Type := σ → Outcome ε σ

namespace Action

def done : Action ε σ := fun s => { state := s }

def throw (e : ε) : Action ε σ := fun s => { state := s, thrown := some e }

def modify (f : σ → σ) : Action ε σ := fun s => { state := f s }

/-- The second action is not taken if the first one throws. -/
def andThen (f g : Action ε σ) : Action ε σ := fun s =>
  match (f s).thrown with
  | none => g (f s).state
  | some _ => f s

/-- A value of the state that may be missing, and what is done with it. -/
def reading (value : σ → Except ε α) (f : α → Action ε σ) : Action ε σ := fun s =>
  match value s with
  | .error e => throw e s
  | .ok a => f a s

/-- One action after the other. -/
def each (f : α → Action ε σ) : List α → Action ε σ
  | [] => done
  | a :: as => (f a).andThen (each f as)

/-- What is thrown is handled in the state that was left. -/
def rescue (f : Action ε σ) (handler : ε → Action ε σ) : Action ε σ := fun s =>
  match (f s).thrown with
  | none => f s
  | some e => handler e (f s).state

/-- An action on a part of the state. -/
def zoom (get : σ → τ) (set : τ → σ → σ) (f : Action ε τ) : Action ε σ := fun s =>
  { state := set (f (get s)).state s, thrown := (f (get s)).thrown }

end Action

/-! ### What an outcome is -/

namespace Outcome

variable {o : Outcome ε σ} {Q Q' : σ → Prop} {E E' : ε → σ → Prop}

theorem Ends.mono (h : o.Ends Q E) (hQ : ∀ s, Q s → Q' s) (hE : ∀ e s, E e s → E' e s) :
    o.Ends Q' E' := by
  unfold Ends at *
  cases hthrown : o.thrown with
  | none =>
    rw [hthrown] at h
    exact hQ _ h
  | some e =>
    rw [hthrown] at h
    exact hE e _ h

theorem Ends.and (h : o.Ends Q E) (h' : o.Ends Q' E') :
    o.Ends (fun s => Q s ∧ Q' s) fun e s => E e s ∧ E' e s := by
  unfold Ends at *
  cases hthrown : o.thrown with
  | none | some =>
    rw [hthrown] at h h'
    exact ⟨h, h'⟩

/-- Nothing is said of what is thrown. -/
theorem Ends.of_state (h : Q o.state) : o.Ends Q fun _ => Q := by
  unfold Ends
  cases o.thrown with
  | none => exact h
  | some e => exact h

theorem Ends.state (h : o.Ends Q fun _ => Q) : Q o.state := by
  unfold Ends at h
  cases hthrown : o.thrown with
  | none | some =>
    rwa [hthrown] at h

theorem ends_iff : o.Ends Q E ↔
    (o.thrown = none → Q o.state) ∧ ∀ e, o.thrown = some e → E e o.state := by
  unfold Ends
  cases o.thrown with
  | none => simp
  | some e => simp

end Outcome

/-! ### The rules -/

namespace Action

variable {f g : Action ε σ} {s : σ} {Q : σ → Prop} {E : ε → σ → Prop} {handler : ε → Action ε σ}

@[simp] theorem done_state : (done s : Outcome ε σ).state = s := rfl

@[simp] theorem throw_state (e : ε) : (throw e s : Outcome ε σ).state = s := rfl

@[simp] theorem modify_state (f : σ → σ) : (modify f s : Outcome ε σ).state = f s := rfl

@[simp] theorem done_ends : (done s : Outcome ε σ).Ends Q E ↔ Q s := Iff.rfl

@[simp] theorem throw_ends {e : ε} : (throw e s : Outcome ε σ).Ends Q E ↔ E e s := Iff.rfl

@[simp] theorem modify_ends {f : σ → σ} : (modify f s : Outcome ε σ).Ends Q E ↔ Q (f s) := Iff.rfl

@[simp] theorem andThen_ends :
    (andThen f g s).Ends Q E ↔ (f s).Ends (fun s => (g s).Ends Q E) E := by
  rw [andThen]
  unfold Outcome.Ends
  cases hthrown : (f s).thrown with
  | none => rfl
  | some e => simp only [hthrown]

theorem reading_ends {f : α → Action ε σ} : (reading value f s).Ends Q E ↔
      (∀ e, value s = .error e → E e s) ∧ ∀ a, value s = .ok a → (f a s).Ends Q E := by
  rw [reading]
  cases value s with
  | error e => simp
  | ok a => simp

@[simp] theorem rescue_ends :
    (rescue f handler s).Ends Q E ↔ (f s).Ends Q fun e s => (handler e s).Ends Q E := by
  rw [rescue]
  unfold Outcome.Ends
  cases hthrown : (f s).thrown with
  | none => simp only [hthrown]
  | some e => rfl

@[simp] theorem zoom_ends {get : σ → τ} {set : τ → σ → σ} {f : Action ε τ} :
    (zoom get set f s).Ends Q E ↔
      (f (get s)).Ends (fun t => Q (set t s)) fun e t => E e (set t s) := Iff.rfl

/-! ### What is kept -/

/-- However the action ends, its state is related to the one it began in. -/
def Keeps (R : σ → σ → Prop) (f : Action ε σ) : Prop := ∀ s, R s (f s).state

variable {R : σ → σ → Prop}

theorem Keeps.done [Std.Refl R] : Keeps R (done : Action ε σ) := fun s => refl_of R s

theorem Keeps.throw [Std.Refl R] (e : ε) : Keeps R (throw e : Action ε σ) := fun s => refl_of R s

theorem Keeps.andThen [IsTrans σ R] (hf : Keeps R f) (hg : Keeps R g) : Keeps R (andThen f g) := by
  intro s
  rw [Action.andThen]
  cases (f s).thrown with
  | none => exact trans_of R (hf s) (hg (f s).state)
  | some e => exact hf s

theorem Keeps.reading [Std.Refl R] {f : α → Action ε σ}
    (h : ∀ a, Keeps R (f a)) : Keeps R (reading value f) := by
  intro s
  rw [Action.reading]
  cases value s with
  | error e => exact refl_of R s
  | ok a => exact h a s

theorem Keeps.each [Std.Refl R] [IsTrans σ R] {f : α → Action ε σ} (h : ∀ a, Keeps R (f a))
    (as : List α) : Keeps R (each f as) := by
  induction as with
  | nil => exact Keeps.done
  | cons a as ih => exact (h a).andThen ih

end Action

/-! ### Two outcomes -/

/-- The same is thrown, in related states. -/
structure Outcome.Related (R : σ → σ → Prop) (o o' : Outcome ε σ) : Prop where
  thrown : o.thrown = o'.thrown
  state : R o.state o'.state

/-- The action goes the same way from related states. -/
def Action.Respects (R : σ → σ → Prop) (f : Action ε σ) : Prop :=
    ∀ s t, R s t → (f s).Related R (f t)

section Related

variable {R R' : σ → σ → Prop} {f g f' g' : Action ε σ} {s t : σ} {handler : ε → Action ε σ}

theorem Action.andThen_related (hf : (f s).Related R (f' t))
    (hg : ∀ s t, R s t → (g s).Related R' (g' t)) (hR : ∀ s t, R s t → R' s t) :
    (andThen f g s).Related R' (andThen f' g' t) := by
  rw [andThen, andThen, ← hf.thrown]
  cases hthrown : (f s).thrown with
  | none => exact hg _ _ hf.state
  | some e => exact ⟨hf.thrown, hR _ _ hf.state⟩

theorem Action.reading_related {value value' : σ → Except ε α} {f f' : α → Action ε σ}
    (hvalue : value s = value' t) (hst : R s t)
    (hf : ∀ a, value s = .ok a → (f a s).Related R (f' a t)) :
    (reading value f s).Related R (reading value' f' t) := by
  rw [reading, reading, ← hvalue]
  cases hcase : value s with
  | error e => exact ⟨rfl, hst⟩
  | ok a => exact hf a hcase

theorem Action.rescue_related (hf : (f s).Related R (f' t))
    (hhandler : ∀ e, Respects R (handler e)) :
    (rescue f handler s).Related R (rescue f' handler t) := by
  rw [rescue, rescue, ← hf.thrown]
  cases hthrown : (f s).thrown with
  | none => exact hf
  | some e => exact hhandler e _ _ hf.state

namespace Action

theorem Respects.done : Respects R (done : Action ε σ) := fun _ _ h => ⟨rfl, h⟩

theorem Respects.throw (e : ε) : Respects R (throw e : Action ε σ) := fun _ _ h => ⟨rfl, h⟩

theorem Respects.modify {f : σ → σ} (h : ∀ s t, R s t → R (f s) (f t)) :
    Respects R (modify f : Action ε σ) := fun s t hst => ⟨rfl, h s t hst⟩

theorem Respects.andThen (hf : Respects R f) (hg : Respects R g) : Respects R (andThen f g) :=
  fun s t h => andThen_related (hf s t h) hg fun _ _ h => h

theorem Respects.reading {f : α → Action ε σ}
    (hvalue : ∀ s t, R s t → value s = value t) (hf : ∀ a, Respects R (f a)) :
    Respects R (reading value f) :=
  fun s t h => reading_related (hvalue s t h) h fun a _ => hf a s t h

theorem Respects.each {f : α → Action ε σ} (h : ∀ a, Respects R (f a)) (as : List α) :
    Respects R (each f as) := by
  induction as with
  | nil => exact Respects.done
  | cons a as ih => exact (h a).andThen ih

theorem Respects.rescue (hf : Respects R f)
    (hhandler : ∀ e, Respects R (handler e)) : Respects R (rescue f handler) :=
  fun s t h => rescue_related (hf s t h) hhandler

theorem Respects.zoom {S : τ → τ → Prop} {get : σ → τ} {set : τ → σ → σ} {f : Action ε τ}
    (hf : Respects S f) (hget : ∀ s t, R s t → S (get s) (get t))
    (hset : ∀ s t a b, R s t → S a b → R (set a s) (set b t)) : Respects R (zoom get set f) := by
  intro s t h
  obtain ⟨hthrown, hstate⟩ := hf _ _ (hget s t h)
  exact ⟨hthrown, hset s t _ _ h hstate⟩

end Action

end Related

end Attempt
