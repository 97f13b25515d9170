import Congelado.Lib.Transition

/-!
# The connector's queue and its wake protocol

With a database configured, `Connector::enqueue` pushes an operation into `m_pending`
and wakes the handler if the queue was empty and no operation is being executed;
`Connector::on_execute` pops one operation, runs it, and schedules itself again if
there is more. Both touch the queue in sections under `m_pending_mutex`, and these
sections are the transitions here:

* `enqueue op` is the section of `enqueue`, run by any thread, also by the thread that
  is inside an operation;
* `enter` is the first section of a tick, `finish i` its second one, made when the
  operation has returned, and `leave i` is what follows it, the call of `shedule()`.

A wake or a self-schedule makes one later tick run (`ticks`). Nothing keeps two ticks
from overlapping in this model; that at most one of them is at work is a theorem
(`Handler.Inv.one`). `wake_protocol` is the result: operations are taken in the order
in which they were queued, each once, and a handler at rest has an empty queue.
-/

namespace Congelado.Connector

open Transition List

variable {Op : Type}

/-- The handler's members, the ticks that are scheduled or under way, and the
operations that were pushed and taken so far. -/
structure Handler (Op : Type) where
  /-- `m_pending`. -/
  pending : List Op
  /-- `m_executing`. -/
  executing : Bool
  /-- The ticks that a wake or a self-schedule has made due. -/
  ticks : ℕ
  /-- The ticks between their two sections, with the operation each one runs. -/
  operating : List Op
  /-- The ticks past their second section, with the `has_more` each one read. -/
  leaving : List Bool
  /-- The operations in the order of their pushes. -/
  pushed : List Op
  /-- The operations in the order in which they were taken to be run. -/
  executed : List Op
  deriving DecidableEq, Repr

/-- A connector nobody has used. -/
def Handler.idle : Handler Op where
  pending := []
  executing := false
  ticks := 0
  operating := []
  leaving := []
  pushed := []
  executed := []

/-- The atomic sections of `enqueue` and of a tick of `on_execute`. -/
inductive Section (Op : Type)
  | enqueue (op : Op)
  | enter
  | finish (tick : ℕ)
  | leave (tick : ℕ)
  deriving DecidableEq, Repr

namespace Handler

/-- The section of `enqueue`: wake the handler only out of idleness. While a tick is
executing, its trailing check sees the push. -/
def enqueue (op : Op) (h : Handler Op) : Handler Op :=
  let wasIdle := h.pending.isEmpty
  { h with
    pending := h.pending ++ [op]
    pushed := h.pushed ++ [op]
    ticks := if wasIdle && !h.executing then h.ticks + 1 else h.ticks }

/-- The first section of a tick, which returns at once if nothing is queued. -/
def enter (h : Handler Op) : Option (Handler Op) :=
  if h.ticks = 0 then none
  else
    match h.pending with
    | [] => some { h with ticks := h.ticks - 1 }
    | op :: pending =>
      some { h with
        ticks := h.ticks - 1
        pending := pending
        executing := true
        operating := h.operating ++ [op]
        executed := h.executed ++ [op] }

/-- The second section of a tick: its operation has returned. -/
def finish (tick : ℕ) (h : Handler Op) : Option (Handler Op) :=
  if tick < h.operating.length then
    some { h with
      executing := false
      operating := h.operating.eraseIdx tick
      leaving := h.leaving ++ [!h.pending.isEmpty] }
  else none

/-- The end of a tick, which schedules the handler again if `has_more` was read. -/
def leave (tick : ℕ) (h : Handler Op) : Option (Handler Op) :=
  h.leaving[tick]?.map fun hasMore =>
    { h with
      ticks := if hasMore then h.ticks + 1 else h.ticks
      leaving := h.leaving.eraseIdx tick }

end Handler

/-- The connector under every interleaving of its sections. -/
def handler (Op : Type) : System (Handler Op) (Section Op) where
  next
    | .enqueue op, h => some (h.enqueue op)
    | .enter, h => h.enter
    | .finish tick, h => h.finish tick
    | .leave tick, h => h.leave tick

/-! ### The invariant -/

namespace Handler

/-- The ticks that are due, at work, or about to schedule another one. -/
def active (h : Handler Op) : ℕ :=
  h.ticks + h.operating.length + h.leaving.count true

/-- No tick is due or under way. -/
def AtRest (h : Handler Op) : Prop :=
  h.ticks = 0 ∧ h.operating = [] ∧ h.leaving = []

theorem AtRest.active_eq {h : Handler Op} (hrest : h.AtRest) : h.active = 0 := by
  obtain ⟨hticks, hop, hleave⟩ := hrest
  simp [active, hticks, hop, hleave]

/-- What holds between any two sections. The wake is neither lost (`queued`) nor given
twice (`one`): outside an operation, the queue is non-empty exactly when one tick is
due or about to be scheduled. -/
structure Inv (h : Handler Op) : Prop where
  /-- What was pushed has been taken or is still queued, in this order. -/
  order : h.executed ++ h.pending = h.pushed
  executing : h.executing = true ↔ h.operating ≠ []
  one : h.active ≤ 1
  queued : h.operating = [] → (h.pending ≠ [] ↔ h.active = 1)

theorem inv_idle : Inv (idle : Handler Op) where
  order := rfl
  executing := by simp [idle]
  one := by simp [idle, active]
  queued := by simp [idle, active]

section Step

variable {h h' : Handler Op}

theorem Inv.enqueue (hinv : Inv h) (op : Op) : Inv (h.enqueue op) where
  order := by
    show h.executed ++ (h.pending ++ [op]) = h.pushed ++ [op]
    rw [← append_assoc, hinv.order]
  executing := hinv.executing
  one := by
    have hone := hinv.one
    by_cases hwake : h.pending.isEmpty = true ∧ h.executing = false
    · -- the one case that adds a tick: the handler was at rest before
      have hop : h.operating = [] := by simpa [hwake.2] using hinv.executing
      have hidle : h.pending = [] := List.isEmpty_iff.1 hwake.1
      have hactive : h.active ≠ 1 := fun hactive => (hinv.queued hop).2 hactive hidle
      simp only [active, Handler.enqueue, hwake, Bool.not_false, Bool.and_self, if_true] at *
      omega
    · have hsame : (h.enqueue op).active = h.active := by
        rw [not_and, Bool.not_eq_false] at hwake
        by_cases hidle : h.pending.isEmpty = true
        · simp [active, Handler.enqueue, hwake hidle]
        · simp [active, Handler.enqueue, hidle]
      omega
  queued := by
    intro hop
    have hop : h.operating = [] := hop
    have hexec : h.executing = false := by
      simpa [hop] using not_iff_not.2 hinv.executing
    have hone := hinv.one
    have hqueued := hinv.queued hop
    refine ⟨fun _ => ?_, fun _ => by simp [Handler.enqueue]⟩
    by_cases hidle : h.pending = []
    · have : h.active ≠ 1 := by simpa [hidle] using hqueued
      simp only [active, Handler.enqueue, hidle, hexec, isEmpty_nil, Bool.not_false,
        Bool.and_self, if_true] at *
      omega
    · have hactive := hqueued.1 hidle
      simpa [active, Handler.enqueue, hidle] using hactive

theorem Inv.enter (hinv : Inv h) (hnext : h.enter = some h') : Inv h' := by
  obtain ⟨horder, hexec, hone, hqueued⟩ := hinv
  unfold Handler.enter at hnext
  split at hnext
  · cases hnext
  · rename_i hticks
    split at hnext
    · -- a tick that is due on an empty queue does not occur, but would do no harm
      rename_i hpending
      cases hnext
      have hop : h.operating = [] := by
        simp only [active] at hone
        exact eq_nil_of_length_eq_zero (by omega)
      have : h.active ≠ 1 := by simpa [hpending] using hqueued hop
      simp only [active] at this hone
      omega
    · rename_i op pending hpending
      cases hnext
      have hop : h.operating = [] := by
        simp only [active] at hone
        exact eq_nil_of_length_eq_zero (by omega)
      refine ⟨?_, by simp, ?_, by simp⟩
      · rw [← horder, hpending]
        simp
      · simp only [active, hop, nil_append, length_cons, length_nil] at hone ⊢
        omega

theorem Inv.finish {tick : ℕ} (hinv : Inv h) (hnext : h.finish tick = some h') : Inv h' := by
  obtain ⟨horder, hexec, hone, hqueued⟩ := hinv
  unfold Handler.finish at hnext
  split at hnext
  · rename_i htick
    cases hnext
    have hlen : h.operating.length = 1 := by
      simp only [active] at hone
      omega
    have hop : h.operating.eraseIdx tick = [] :=
      eq_nil_of_length_eq_zero (by rw [length_eraseIdx_of_lt htick]; omega)
    refine ⟨horder, by simp [hop], ?_, fun _ => ?_⟩
    · simp only [active, hop, length_nil, count_append] at hone ⊢
      have : List.count true [!h.pending.isEmpty] ≤ 1 := count_le_length
      omega
    · -- the tick has read under the lock whether it has to schedule another one
      simp only [active, hop, length_nil, count_append] at hone ⊢
      have hzero : h.ticks = 0 ∧ h.leaving.count true = 0 := by omega
      cases h.pending with
      | nil => simp [hzero]
      | cons op pending => simp [hzero]
  · cases hnext

/-- Removing one entry of a list takes its own contribution from a count. -/
theorem count_eraseIdx_add {l : List Bool} {i : ℕ} {b : Bool} (hi : l[i]? = some b) :
    (l.eraseIdx i).count true + (if b then 1 else 0) = l.count true := by
  induction l generalizing i with
  | nil => simp at hi
  | cons a l ih =>
    cases i with
    | zero =>
      obtain rfl : a = b := by simpa using hi
      cases a <;> simp
    | succ i =>
      have := ih (by simpa using hi)
      simp only [eraseIdx_cons_succ, count_cons]
      omega

theorem Inv.leave {tick : ℕ} (hinv : Inv h) (hnext : h.leave tick = some h') : Inv h' := by
  obtain ⟨horder, hexec, hone, hqueued⟩ := hinv
  obtain ⟨hasMore, htick, rfl⟩ := Option.map_eq_some_iff.1 hnext
  have hcount := count_eraseIdx_add htick
  have hactive : ({ h with
      ticks := if hasMore then h.ticks + 1 else h.ticks
      leaving := h.leaving.eraseIdx tick } : Handler Op).active = h.active := by
    -- a tick that leaves to schedule another one is counted as the tick it schedules
    simp only [active, ← hcount]
    cases hasMore with
    | false => simp
    | true =>
      simp only [if_true]
      omega
  exact ⟨horder, hexec, by rw [hactive]; exact hone, fun hop => by rw [hactive]; exact hqueued hop⟩

end Step

theorem Inv.next {h h' : Handler Op} {l : Section Op} (hinv : Inv h)
    (hnext : (handler Op).next l h = some h') : Inv h' := by
  cases l with
  | enqueue op =>
    obtain rfl : h.enqueue op = h' := Option.some.inj hnext
    exact hinv.enqueue op
  | enter => exact hinv.enter hnext
  | finish tick => exact hinv.finish hnext
  | leave tick => exact hinv.leave hnext

end Handler

/-- **The wake protocol.** In every state reached by any interleaving of `enqueue` and
ticks, the operations taken so far are the first ones that were pushed, in the order
of their pushes and each once; at most one of them is being run; and when no tick is
due or under way, nothing is left in the queue. -/
theorem wake_protocol {h : Handler Op} (hrun : (handler Op).Run System.Any .idle h) :
    h.executed ++ h.pending = h.pushed ∧ h.operating.length ≤ 1 ∧
      (h.AtRest → h.pending = [] ∧ h.executed = h.pushed) := by
  have hinv : Handler.Inv h :=
    hrun.invariant Handler.inv_idle fun _ _ _ hinv _ hnext => hinv.next hnext
  refine ⟨hinv.order, ?_, fun hrest => ?_⟩
  · have hone := hinv.one
    simp only [Handler.active] at hone
    omega
  · have hpending : h.pending = [] := by
      by_contra hne
      have hactive := (hinv.queued hrest.2.1).1 hne
      rw [hrest.active_eq] at hactive
      cases hactive
    have horder := hinv.order
    rw [hpending, append_nil] at horder
    exact ⟨hpending, horder⟩

/-- Two operations are pushed from outside and a third one from inside the first: after
three ticks the handler is at rest. -/
theorem wake_protocol_reentrant :
    ∃ h : Handler ℕ, (handler ℕ).play
        [.enqueue 0, .enqueue 1, .enter, .enqueue 2, .finish 0, .leave 0, .enter, .finish 0,
          .leave 0, .enter, .finish 0, .leave 0] .idle = some h ∧
      h.AtRest ∧ h.pending = [] ∧ h.executed = [0, 1, 2] := by
  obtain ⟨h, hplay⟩ : ∃ h : Handler ℕ, (handler ℕ).play
      [.enqueue 0, .enqueue 1, .enter, .enqueue 2, .finish 0, .leave 0, .enter, .finish 0,
        .leave 0, .enter, .finish 0, .leave 0] .idle = some h := ⟨_, rfl⟩
  have hrest : h.AtRest := by
    cases hplay
    exact ⟨rfl, rfl, rfl⟩
  have hres := (wake_protocol (System.Run.of_play hplay)).2.2 hrest
  refine ⟨h, hplay, hrest, hres.1, ?_⟩
  rw [hres.2]
  cases hplay
  rfl

/-! ### Nothing waits forever -/

variable {ok : Handler Op → Section Op → Prop}

/-- The sections of a tick. -/
def Section.isTick : Section Op → Bool
  | .enqueue _ => false
  | _ => true

/-- A bound on the sections that ticks run before `k + 1` operations are taken. -/
def Handler.ahead (k : ℕ) (h : Handler Op) : ℕ :=
  3 * (k - h.executed.length) + 3 * h.operating.length + 2 * h.leaving.length + h.ticks

/-- The operation pushed at place `k` is not yet taken, and the ticks help it. -/
structure Handler.Waits (k : ℕ) (op : Op) (rank : ℕ) (tick : Bool) (h : Handler Op) : Prop where
  tick : tick = true
  inv : h.Inv
  pushed : h.pushed[k]? = some op
  waiting : h.executed.length ≤ k
  rank : h.ahead k = rank

namespace Handler

variable {k rank : ℕ} {op : Op} {tick : Bool} {h h' : Handler Op} {l : Section Op}

theorem Inv.taken (hinv : h.Inv) (hpushed : h.pushed[k]? = some op) (hlt : k < h.executed.length) :
    h.executed[k]? = some op := by
  rwa [← hinv.order, getElem?_append_left hlt] at hpushed

variable (hwaits : h.Waits k op rank tick)

include hwaits

theorem Waits.pending_ne_nil : h.pending ≠ [] := by
  intro hnil
  have hlt := (List.getElem?_eq_some_iff.1 hwaits.pushed).1
  rw [← hwaits.inv.order, hnil, append_nil] at hlt
  exact hwaits.waiting.not_gt hlt

/-- A tick is due, at work or about to leave. -/
theorem Waits.enabled (hok : ∀ h l, l.isTick → ok h l) :
    (handler Op).Enabled ok Section.isTick tick h := by
  rw [hwaits.tick]
  by_cases hop : h.operating = []
  · have hactive := (hwaits.inv.queued hop).1 hwaits.pending_ne_nil
    by_cases hticks : h.ticks = 0
    · have hleaving : h.leaving ≠ [] := by
        rintro hnil
        simp [active, hop, hticks, hnil] at hactive
      refine ⟨.leave 0, rfl, hok _ _ rfl, ?_⟩
      simpa [handler, Handler.leave, length_pos_iff] using hleaving
    · refine ⟨.enter, rfl, hok _ _ rfl, ?_⟩
      show h.enter.isSome = true
      rw [Handler.enter, if_neg hticks]
      split <;> rfl
  · exact ⟨.finish 0, rfl, hok _ _ rfl, by simp [handler, Handler.finish, length_pos_iff.2 hop]⟩

/-- What was pushed stays in its place, and a section of a tick lowers the bound. A push behind an
operation that waits makes no tick due. -/
theorem Waits.next (hnext : (handler Op).next l h = some h') :
    h'.pushed[k]? = some op ∧ (h'.executed.length ≤ k →
      h'.ahead k < rank ∨ l.isTick = false ∧ h'.ahead k = rank) := by
  have hpending := hwaits.pending_ne_nil
  obtain ⟨-, -, hpushed, -, rfl⟩ := hwaits
  cases l with
  | enqueue new =>
    cases hnext
    refine ⟨?_, fun _ => .inr ⟨rfl, ?_⟩⟩
    · exact (getElem?_append_left (List.getElem?_eq_some_iff.1 hpushed).1).trans hpushed
    · simp [ahead, Handler.enqueue, hpending]
  | enter =>
    change h.enter = some h' at hnext
    unfold Handler.enter at hnext
    split_ifs at hnext with hticks
    obtain ⟨first, rest, hcons⟩ := exists_cons_of_ne_nil hpending
    rw [hcons] at hnext
    cases hnext
    refine ⟨hpushed, fun hwaiting => .inl ?_⟩
    simp only [ahead, length_append, length_singleton] at hwaiting ⊢
    omega
  | finish i =>
    change h.finish i = some h' at hnext
    unfold Handler.finish at hnext
    split_ifs at hnext with hi
    cases hnext
    refine ⟨hpushed, fun _ => .inl ?_⟩
    simp only [ahead, length_append, length_singleton, length_eraseIdx_of_lt hi]
    omega
  | leave i =>
    obtain ⟨hasMore, hi, rfl⟩ := Option.map_eq_some_iff.1 hnext
    have hlt := (List.getElem?_eq_some_iff.1 hi).1
    have hticks : (if hasMore then h.ticks + 1 else h.ticks) ≤ h.ticks + 1 := by
      split <;> simp
    refine ⟨hpushed, fun _ => .inl ?_⟩
    simp only [ahead, length_eraseIdx_of_lt hlt]
    omega

theorem Waits.step (hnext : (handler Op).next l h = some h') :
    h'.executed[k]? = some op ∨ (∃ rank' tick', rank' < rank ∧ h'.Waits k op rank' tick') ∨
      l.isTick ≠ tick ∧ h'.Waits k op rank tick := by
  have hinv := hwaits.inv.next hnext
  obtain ⟨hpushed, hstep⟩ := hwaits.next hnext
  obtain hdone | hdone := lt_or_ge k h'.executed.length
  · exact .inl (hinv.taken hpushed hdone)
  obtain hlower | ⟨hother, hsame⟩ := hstep hdone
  · exact .inr (.inl ⟨_, true, hlower, rfl, hinv, hpushed, hdone, rfl⟩)
  · have hne : l.isTick ≠ tick := by simp [hother, hwaits.tick]
    exact .inr (.inr ⟨hne, hwaits.tick, hinv, hpushed, hdone, hsame⟩)

end Handler

/-- **Every operation is run.** However pushes are limited, in every execution from an idle
connector in which ticks are not held back forever, the operation pushed at some place is taken,
at the same place of the order. -/
theorem pushed_is_executed (hok : ∀ h l, l.isTick → ok h l) {e : (handler Op).Execution ok}
    (hinit : e.state 0 = .idle) (hfair : e.Fair Section.isTick) {n k : ℕ} {op : Op}
    (hop : (e.state n).pushed[k]? = some op) :
    ∃ m ≥ n, (e.state m).executed[k]? = some op := by
  have hinv : (e.state n).Inv :=
    (hinit ▸ e.run n).invariant Handler.inv_idle fun _ _ _ hinv _ hnext => hinv.next hnext
  by_cases hlt : k < (e.state n).executed.length
  · exact ⟨n, le_rfl, hinv.taken hop hlt⟩
  have hwaits : (e.state n).Waits k op _ true := ⟨rfl, hinv, hop, not_lt.1 hlt, rfl⟩
  have hleads := System.Execution.leadsTo hfair (fun _ _ _ h => h.enabled hok)
    (fun _ _ _ _ _ h _ hnext => h.step hnext) hwaits
  exact hleads

/-- At most `n` operations are pushed. -/
abbrev AtMost (n : ℕ) (h : Handler Op) (l : Section Op) : Prop := l.isTick ∨ h.pushed.length < n

/-- The second of two operations, pushed while the first one is run. -/
theorem pushed_is_executed_second : ∃ e : (handler ℕ).Execution (AtMost 2), ∃ n,
    (e.state n).executed = [7] ∧ ∃ m ≥ n, (e.state m).executed[1]? = some 8 := by
  have hplay : (handler ℕ).playIf (AtMost 2) [.enqueue 7, .enter, .enqueue 8] .idle = some _ := rfl
  obtain ⟨e, hinit, hfair, n, hn⟩ := (System.Run.of_playIf hplay).exists_fair Section.isTick
  exact ⟨e, n, by rw [hn]; rfl, pushed_is_executed (fun _ _ => .inl) hinit hfair (by rw [hn]; rfl)⟩

end Congelado.Connector
