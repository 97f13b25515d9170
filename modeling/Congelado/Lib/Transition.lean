import Mathlib

/-!
# Transition systems

A system of agents that take turns at the granularity of one atomic section. A label
names the section and the agent that runs it; `next` is partial, since an agent can
only run the section it stands before.

`System.Run ok s t` says that `t` is reached from `s` by transitions each of which
meets `ok` in the state it leaves, so that a condition on all the steps of a run is
a run at that condition. `Run.invariant` is the rule by which a property of one
transition becomes a property of every reachable state, and `Run.of_play` turns a
schedule that can be computed into a run.

An `Execution` goes on forever, with stutters where nothing moves. It is `Fair` if no
agent that could move from some time on is left waiting forever, and
`Execution.leadsTo` is the rule for what must happen then: a rank that no transition
raises and that some agent, ready to move, lowers.
-/

namespace Transition

open Option

variable {State Label : Type}

/-- A labelled transition system whose transitions are determined by their labels. -/
structure System (State Label : Type) where
  next : Label → State → Option State

namespace System

variable (sys : System State Label) {labels : List Label} {l : Label}

/-- The states reached from `s` by transitions that meet `ok`. -/
inductive Run (ok : State → Label → Prop) (s : State) : State → Prop
  | refl : Run ok s s
  | tail {t u : State} {l : Label} : Run ok s t → ok t l → sys.next l t = some u → Run ok s u

/-- Every interleaving is allowed. -/
def Any (_ : State) (_ : Label) : Prop := True

variable {sys} {ok : State → Label → Prop} {s t : State}

/-- **Invariant rule.** A property that holds at the start and is kept by every
transition that meets the condition holds in every state of the run. -/
theorem Run.invariant {I : State → Prop} (h : sys.Run ok s t) (init : I s)
    (step : ∀ t l u, I t → ok t l → sys.next l t = some u → I u) : I t := by
  induction h with
  | refl => exact init
  | tail _ hl hnext ih => exact step _ _ _ ih hl hnext

theorem Run.trans {u : State} (h : sys.Run ok s t) (h' : sys.Run ok t u) : sys.Run ok s u :=
  h'.invariant h fun _ _ _ ih hok hnext => ih.tail hok hnext

variable (sys) in
/-- Every transition of every run from `s` is in the relation. -/
def Steps (ok : State → Label → Prop) (R : State → State → Prop) (s : State) : Prop :=
  ∀ t l u, sys.Run ok s t → ok t l → sys.next l t = some u → R t u

/-! ### Playing a fixed schedule -/

variable (sys)

/-- The state a schedule leads to, if each of its transitions can be taken. -/
def play : List Label → State → Option State
  | [], s => some s
  | l :: labels, s => (sys.next l s).bind (play labels)

variable {sys}

theorem Run.head {u : State} (hok : ok s l) (hnext : sys.next l s = some u)
    (h : sys.Run ok u t) : sys.Run ok s t := by
  induction h with
  | refl => exact .tail .refl hok hnext
  | tail _ hl hv ih => exact ih.tail hl hv

/-- A schedule of transitions that meet the condition is a run, if it can be played. -/
theorem Run.of_play_of_forall (hok : ∀ l ∈ labels, ∀ s, ok s l)
    (h : sys.play labels s = some t) : sys.Run ok s t := by
  induction labels generalizing s with
  | nil =>
    obtain rfl : s = t := Option.some.inj h
    exact .refl
  | cons l labels ih =>
    obtain ⟨u, hu, hplay⟩ := bind_eq_some_iff.1 h
    exact .head (hok l (.head _) s) hu (ih (fun l hl => hok l (.tail _ hl)) hplay)

/-- A schedule that can be played is a run. -/
theorem Run.of_play (h : sys.play labels s = some t) :
    sys.Run Any s t :=
  Run.of_play_of_forall (fun _ _ _ => trivial) h

theorem play_append (labels labels' : List Label) (s : State) :
    sys.play (labels ++ labels') s = (sys.play labels s).bind (sys.play labels') := by
  induction labels generalizing s with
  | nil => rfl
  | cons l labels ih =>
    rw [List.cons_append, play, play, bind_assoc]
    exact Option.bind_congr fun t _ => ih t

/-- The last transition of a schedule. -/
theorem Steps.of_play {R : State → State → Prop} {u : State}
    (h : sys.Steps Any R s) (ht : sys.play labels s = some t)
    (hu : sys.play (labels ++ [l]) s = some u) : R t u := by
  rw [play_append, ht, bind_some] at hu
  obtain ⟨v, hnext, hv⟩ := bind_eq_some_iff.1 hu
  obtain rfl : v = u := Option.some.inj hv
  exact h t l v (.of_play ht) trivial hnext

variable (sys) (ok) in
/-- The state a schedule leads to, if each of its transitions can be taken and meets the
condition. -/
def playIf [∀ s l, Decidable (ok s l)] : List Label → State → Option State
  | [], s => some s
  | l :: labels, s => if ok s l then (sys.next l s).bind (playIf labels) else none

/-- A schedule that can be played under the condition is a run at that condition. -/
theorem Run.of_playIf [∀ s l, Decidable (ok s l)]
    (h : sys.playIf ok labels s = some t) : sys.Run ok s t := by
  induction labels generalizing s with
  | nil =>
    obtain rfl : s = t := Option.some.inj h
    exact .refl
  | cons l labels ih =>
    obtain ⟨hok, hplay⟩ := ite_none_right_eq_some.1 h
    obtain ⟨u, hu, hplay⟩ := bind_eq_some_iff.1 hplay
    exact .head hok hu (ih hplay)

/-- A value that can be computed, with what can be decided of it. -/
theorem exists_of_any {α : Type} {P : α → Prop} [DecidablePred P] {o : Option α}
    (h : o.any (fun a => P a) = true) : ∃ a, o = some a ∧ P a := by
  obtain ⟨a, ha, hP⟩ := (Option.any_eq_true _ _).1 h
  exact ⟨a, ha, of_decide_eq_true hP⟩

/-- A state that a schedule leads to, with what can be decided of it. -/
theorem exists_run (sys : System State Label) {P : State → Prop} [DecidablePred P]
    (labels : List Label) (h : (sys.play labels s).any (fun t => P t) = true) :
    ∃ t, sys.Run Any s t ∧ P t := by
  obtain ⟨t, ht, hP⟩ := exists_of_any h
  exact ⟨t, .of_play ht, hP⟩

/-! ### Fair executions -/

section Fairness

variable {Agent : Type} {agent : Label → Agent}

variable (sys) (ok) in
/-- An infinite execution; `none` is a stutter. -/
structure Execution where
  state : ℕ → State
  label : ℕ → Option Label
  stutter : ∀ n, label n = none → state (n + 1) = state n
  step : ∀ n l, label n = some l →
    ok (state n) l ∧ sys.next l (state n) = some (state (n + 1))

variable {e : sys.Execution ok}

variable (sys) (ok) in
/-- An agent can move. -/
def Enabled (agent : Label → Agent) (a : Agent) (s : State) : Prop :=
  ∃ l, agent l = a ∧ ok s l ∧ (sys.next l s).isSome

/-- An agent that can move from some time on moves. -/
def Execution.Fair (agent : Label → Agent) (e : sys.Execution ok) : Prop :=
  ∀ a n, (∀ m ≥ n, sys.Enabled ok agent a (e.state m)) →
    ∃ m ≥ n, ∃ l, e.label m = some l ∧ agent l = a

theorem Execution.run (e : sys.Execution ok) (n : ℕ) : sys.Run ok (e.state 0) (e.state n) := by
  induction n with
  | zero => exact .refl
  | succ n ih =>
    cases hlabel : e.label n with
    | none => exact e.stutter n hlabel ▸ ih
    | some l => exact ih.tail (e.step n l hlabel).1 (e.step n l hlabel).2

open scoped Classical in
/-- The agents take turns, and one that cannot move passes. -/
noncomputable def turnLabel (sys : System State Label) (ok : State → Label → Prop)
    (agent : Label → Agent) (a : Agent) (s : State) : Option Label :=
  if h : sys.Enabled ok agent a s then some h.choose else none

noncomputable def turnState (sys : System State Label) (ok : State → Label → Prop)
    (agent : Label → Agent) (turn : ℕ → Agent) (s : State) : ℕ → State
  | 0 => s
  | n + 1 =>
    let t := turnState sys ok agent turn s n
    ((sys.turnLabel ok agent (turn n) t).bind (sys.next · t)).getD t

theorem turnLabel_spec {a : Agent} (h : sys.turnLabel ok agent a s = some l) :
    agent l = a ∧ ok s l ∧ ∃ t, sys.next l s = some t := by
  unfold turnLabel at h
  split_ifs at h with henabled
  cases h
  have hspec := henabled.choose_spec
  exact ⟨hspec.1, hspec.2.1, isSome_iff_exists.1 hspec.2.2⟩

/-- From every state there is a fair execution. -/
theorem exists_fair [Countable Agent] [Nonempty Agent] (agent : Label → Agent) (s : State) :
    ∃ e : sys.Execution ok, e.state 0 = s ∧ e.Fair agent := by
  obtain ⟨f, hf⟩ := exists_surjective_nat Agent
  -- `f n.unpair.1` comes back to every agent again and again
  let turn : ℕ → Agent := fun n => f n.unpair.1
  let state := turnState sys ok agent turn s
  let label := fun n => sys.turnLabel ok agent (turn n) (state n)
  have hsucc : ∀ n, state (n + 1) = ((label n).bind (sys.next · (state n))).getD (state n) :=
    fun _ => rfl
  refine ⟨⟨state, label, fun n hnone => ?_, fun n l hl => ?_⟩, rfl, fun a n henabled => ?_⟩
  · rw [hsucc, hnone]
    rfl
  · obtain ⟨-, hok, t, ht⟩ := turnLabel_spec hl
    refine ⟨hok, ?_⟩
    rw [hsucc, hl, bind_some, ht]
    rfl
  · obtain ⟨i, rfl⟩ := hf a
    have hturn : turn (Nat.pair i n) = f i := by simp [turn]
    have hlabel := henabled (Nat.pair i n) (Nat.right_le_pair i n)
    refine ⟨Nat.pair i n, Nat.right_le_pair i n, hlabel.choose, ?_, hlabel.choose_spec.1⟩
    show sys.turnLabel ok agent (turn (Nat.pair i n)) _ = _
    rw [hturn, turnLabel, dif_pos hlabel]

/-- One transition before an execution. -/
def Execution.cons (e : sys.Execution ok) {l : Label} (hok : ok s l)
    (hnext : sys.next l s = some (e.state 0)) : sys.Execution ok where
  state
    | 0 => s
    | n + 1 => e.state n
  label
    | 0 => some l
    | n + 1 => e.label n
  stutter
    | 0, h => nomatch h
    | n + 1, h => e.stutter n h
  step
    | 0, _, h => Option.some.inj h ▸ ⟨hok, hnext⟩
    | n + 1, l, h => e.step n l h

theorem Execution.Fair.cons (hfair : e.Fair agent) (hok : ok s l)
    (hnext : sys.next l s = some (e.state 0)) :
    (e.cons hok hnext).Fair agent := by
  intro a n henabled
  obtain ⟨m, hm, hmove⟩ := hfair a n fun m hm => henabled (m + 1) (hm.trans m.le_succ)
  exact ⟨m + 1, hm.trans m.le_succ, hmove⟩

/-- A run before a fair execution. -/
theorem Run.prepend (h : sys.Run ok s t) (he : e.state 0 = t) (hfair : e.Fair agent) :
    ∃ e' : sys.Execution ok, e'.state 0 = s ∧ e'.Fair agent ∧
      ∃ n, ∀ m, e'.state (n + m) = e.state m := by
  induction h generalizing e with
  | refl => exact ⟨e, he, hfair, 0, fun m => by rw [zero_add]⟩
  | tail _ hok hnext ih =>
    obtain ⟨e', hs, hfair', n, hn⟩ :=
      ih (e := e.cons hok (he ▸ hnext)) rfl (hfair.cons hok (he ▸ hnext))
    refine ⟨e', hs, hfair', n + 1, fun m => ?_⟩
    rw [add_assoc, add_comm 1 m]
    exact hn (m + 1)

/-- Every run is the beginning of a fair execution. -/
theorem Run.exists_fair [Countable Agent] [Nonempty Agent] (h : sys.Run ok s t)
    (agent : Label → Agent) :
    ∃ e : sys.Execution ok, e.state 0 = s ∧ e.Fair agent ∧ ∃ n, e.state n = t := by
  obtain ⟨e, he, hfair⟩ : ∃ e : sys.Execution ok, e.state 0 = t ∧ e.Fair agent :=
    System.exists_fair agent t
  obtain ⟨e', hs, hfair', n, hn⟩ := h.prepend he hfair
  exact ⟨e', hs, hfair', n, (hn 0).trans he⟩

/-- **Progress rule.** Suppose that in every state of a situation `H` some agent helps:
it can move, its moves lead to the goal or to a lower rank, and the moves of the others
do so too or leave the situation as it is. Then a fair execution reaches the goal. -/
theorem Execution.leadsTo {R : Type} [Preorder R] [WellFoundedLT R] (hfair : e.Fair agent)
    {H : R → Agent → State → Prop}
    {goal : State → Prop} (henabled : ∀ r a s, H r a s → sys.Enabled ok agent a s)
    (hstep : ∀ r a s l s', H r a s → ok s l → sys.next l s = some s' →
      goal s' ∨ (∃ r' a', r' < r ∧ H r' a' s') ∨ agent l ≠ a ∧ H r a s')
    {r : R} {a : Agent} {n : ℕ} (h : H r a (e.state n)) : ∃ m ≥ n, goal (e.state m) := by
  induction r using WellFoundedLT.induction generalizing a n with
  | _ r ih =>
    by_cases hlower : ∃ m ≥ n, goal (e.state m) ∨ ∃ r' a', r' < r ∧ H r' a' (e.state m)
    · obtain ⟨m, hm, hgoal | ⟨r', a', hr, h'⟩⟩ := hlower
      · exact ⟨m, hm, hgoal⟩
      · obtain ⟨k, hk, hgoal⟩ := ih r' hr h'
        exact ⟨k, hm.trans hk, hgoal⟩
    · -- otherwise the situation stays as it is forever, and the helping agent is left waiting
      exfalso
      push Not at hlower
      have hnext : ∀ m ≥ n, ∀ l, H r a (e.state m) → e.label m = some l →
          agent l ≠ a ∧ H r a (e.state (m + 1)) := by
        intro m hm l hH hl
        obtain ⟨hok, hmove⟩ := e.step m l hl
        obtain ⟨hnot, hno⟩ := hlower (m + 1) (hm.trans m.le_succ)
        obtain hgoal | ⟨r', a', hr, h'⟩ | hsame := hstep r a _ l _ hH hok hmove
        · exact absurd hgoal hnot
        · exact absurd h' (hno r' a' hr)
        · exact hsame
      have hstay : ∀ m ≥ n, H r a (e.state m) := by
        intro m hm
        induction m, hm using Nat.le_induction with
        | base => exact h
        | succ m hm ih =>
          cases hlabel : e.label m with
          | none => exact e.stutter m hlabel ▸ ih
          | some l => exact (hnext m hm l ih hlabel).2
      obtain ⟨m, hm, l, hl, hagent⟩ := hfair a n fun m hm => henabled r a _ (hstay m hm)
      exact (hnext m hm l (hstay m hm) hl).1 hagent

end Fairness

end System

end Transition
