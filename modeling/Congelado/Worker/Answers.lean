import Congelado.Worker.Manager

/-!
# Every claimed task is answered

A task that a slot has received is in one place at a time: with the slot, in the queue of
its worker, at the worker that runs it, or on its way back (`Loc`). `Inv` ties the place to
the phase of the slot, to where its tick stands and to its log, and `Inv.next` shows that
every section moves the task from one place to the next. Three consequences:

* the log of a slot consists of polls and of tasks that were received, executed and
  submitted with their own outcome, apart from the task it holds (`Closed`);
* when the queues are empty and at rest, no slot is left in phase `AWAITING`;
* under fair scheduling the task is answered, and the slot polls again.

The one exit that leaves the cycle is an exception: `TaskQueue::on_execute` swallows it, and
nobody tells the slot. `Returns` excludes it. This file is about what holds in every state;
what happens in the end is in `Congelado.Worker.Progress`.
-/

namespace Congelado.Worker

open Transition List Function

variable {log : List Event} {result : Bool × Output} {slot : Slot}

/-! ### Logs -/

/-- Polls, and tasks that were answered with the outcome of their own execution. -/
inductive Closed : List Event → Prop
  | nil : Closed []
  | polled {log : List Event} : Closed log → Closed (log ++ [.polled])
  | answered {log : List Event} {task input : String} {behaviour : Behaviour}
      {result : Bool × Output} : Closed log → behaviour.Yields result →
      Closed (log ++ [.received task input, .executed input behaviour, .submitted task result])

/-- The last task was received and nothing has happened to it. -/
def Open (log : List Event) (task input : String) : Prop :=
  ∃ before, Closed before ∧ log = before ++ [.received task input]

/-- The last task was executed, and `result` is its outcome. -/
def Done (log : List Event) (task : String) (result : Bool × Output) : Prop :=
  ∃ before input behaviour, Closed before ∧ behaviour.Yields result ∧
    log = before ++ [.received task input, .executed input behaviour]

theorem Open.executed {task input : String} (h : Open log task input)
    {behaviour : Behaviour} (hyields : behaviour.Yields result) :
    Done (log ++ [.executed input behaviour]) task result := by
  obtain ⟨before, hclosed, rfl⟩ := h
  exact ⟨before, input, behaviour, hclosed, hyields, by simp⟩

theorem Done.submitted {task : String}
    (h : Done log task result) : Closed (log ++ [.submitted task result]) := by
  obtain ⟨before, input, behaviour, hclosed, hyields, rfl⟩ := h
  have hlog : Closed (before ++ [.received task input, .executed input behaviour,
      .submitted task result]) := hclosed.answered hyields
  simpa using hlog

theorem Closed.received (h : Closed log) (task input : String) :
    Open (log ++ [.polled, .received task input]) task input :=
  ⟨log ++ [.polled], h.polled, by simp⟩

/-! ### Places -/

/-- Where the task of a slot is: with the slot, which may also have none; in a queue or at
its worker; executed, on its way into the slot; or in the slot, whose contract its worker is
about to wake. -/
inductive Loc
  | home
  | queued (w : ℕ)
  | completing (w : ℕ) (result : Bool × Output)
  | waker (w : ℕ)
  deriving DecidableEq

namespace Slot

/-- The tick that has handed out `task` has not looked for its result yet. -/
def OnTick (slot : Slot) (task : String) : Prop :=
  slot.onStack = true ∧ slot.scheduled = false ∧
    ∃ rest, (∃ w, slot.pc = .waking w task rest) ∨ slot.pc = .returning task rest

/-- No tick is under way or due. -/
def Parked (slot : Slot) : Prop :=
  slot.onStack = false ∧ slot.scheduled = false ∧ slot.pc = .idle

/-- The slot while its task is in a place. -/
inductive At : Loc → Slot → Prop
  | ready {slot : Slot} (hphase : slot.phase = .polling) (hpc : slot.pc = .idle)
      (hlog : Closed slot.log) (hdue : slot.scheduled = true ∨ slot.log = []) : At .home slot
  | scanning {slot : Slot} {rest : List ℕ} (hphase : slot.phase = .polling)
      (hpc : slot.pc = .scanning rest) (hsched : slot.scheduled = false)
      (hlog : Closed slot.log) : At .home slot
  | submitting {slot : Slot} {task : String} {result : Bool × Output}
      (hphase : slot.phase = .polling) (hpc : slot.pc = .submitting task result)
      (hsched : slot.scheduled = false) (hlog : Done slot.log task result) : At .home slot
  | answering {slot : Slot} {task : String} {result : Bool × Output} {rest : List ℕ}
      (hphase : slot.phase = .polling) (hpc : slot.pc = .answering task result rest)
      (hsched : slot.scheduled = false) (hlog : Done slot.log task result) : At .home slot
  | launching {slot : Slot} {w : ℕ} {input : String} {rest : List ℕ}
      (hphase : slot.phase = .awaiting) (hpc : slot.pc = .launching w slot.taskId input rest)
      (hstack : slot.onStack = true) (hsched : slot.scheduled = false)
      (hlog : Open slot.log slot.taskId input) : At .home slot
  | landed {slot : Slot} (hphase : slot.phase = .resuming) (htick : slot.OnTick slot.taskId)
      (hlog : Done slot.log slot.taskId (slot.success, slot.output)) : At .home slot
  | woken {slot : Slot} (hphase : slot.phase = .resuming) (hpc : slot.pc = .idle)
      (hsched : slot.scheduled = true)
      (hlog : Done slot.log slot.taskId (slot.success, slot.output)) : At .home slot
  | queued {slot : Slot} {w : ℕ} {input : String} (hphase : slot.phase = .awaiting)
      (hheld : slot.OnTick slot.taskId ∨ slot.Parked)
      (hlog : Open slot.log slot.taskId input) : At (.queued w) slot
  | completing {slot : Slot} {w : ℕ} {result : Bool × Output} (hphase : slot.phase = .awaiting)
      (hheld : slot.OnTick slot.taskId ∨ slot.Parked)
      (hlog : Done slot.log slot.taskId result) : At (.completing w result) slot
  | waker {slot : Slot} {w : ℕ} (hphase : slot.phase = .resuming) (hparked : slot.Parked)
      (hlog : Done slot.log slot.taskId (slot.success, slot.output)) : At (.waker w) slot

end Slot

/-- The jobs of a queue that have not been executed, the one in hand first. -/
def Queue.waiting (queue : Queue) : List Job :=
  match queue.pc with
  | .executing job => job :: queue.jobs
  | _ => queue.jobs

/-- A tick of the queue is under way or due. -/
def Queue.Active (queue : Queue) : Prop := queue.pc ≠ .idle ∨ queue.scheduled = true

/-- What holds between any two sections, with the place of every slot's task. -/
structure Inv (loc : ℕ → Loc) (σ : State) : Prop where
  slot : ∀ s, (σ.slots s).At (loc s)
  nodup : ∀ w, ((σ.queues w).waiting.map Job.slot).Nodup
  /-- A job stands for the task that its slot received. -/
  waiting : ∀ w, ∀ job ∈ (σ.queues w).waiting, loc job.slot = .queued w ∧
    Open (σ.slots job.slot).log (σ.slots job.slot).taskId job.input
  queued : ∀ s w, loc s = .queued w → ∃ job ∈ (σ.queues w).waiting, job.slot = s
  completing : ∀ s w result, loc s = .completing w result ↔
    ∃ job, (σ.queues w).pc = .completing job result ∧ job.slot = s
  waker : ∀ s w, loc s = .waker w ↔ (σ.queues w).pc = .waking s
  /-- A push that finds the queue running need not wake it. -/
  running : ∀ w, (σ.queues w).running = true → (σ.queues w).Active
  /-- A queue with jobs is active, or the slot that pushed one is about to wake it. -/
  due : ∀ w, (σ.queues w).jobs ≠ [] → (σ.queues w).Active ∨
    ∃ s task rest, (σ.slots s).pc = .waking w task rest

theorem inv_initial (n : ℕ) : Inv (fun _ => .home) (initial n) where
  slot := by
    intro s
    exact .ready rfl rfl .nil (.inr rfl)
  nodup := fun _ => nodup_nil
  waiting := fun _ _ h => absurd h not_mem_nil
  queued := fun _ _ h => nomatch h
  completing := by
    intro s w result
    constructor
    · intro h
      cases h
    · rintro ⟨job, h, -⟩
      cases h
  waker := by
    intro s w
    constructor
    · intro h
      cases h
    · intro h
      cases h
  running := fun _ h => nomatch h
  due := fun _ h => absurd rfl h

/-! ### Frames -/

section Frames

variable {loc : ℕ → Loc} {σ : State} {queue : Queue}

@[simp] theorem setSlot_queues (s : ℕ) (slot : Slot) : (σ.setSlot s slot).queues = σ.queues := rfl

@[simp] theorem setQueue_slots (w : ℕ) (queue : Queue) : (σ.setQueue w queue).slots = σ.slots := rfl

@[simp] theorem setSlot_slots_self (s : ℕ) (slot : Slot) : (σ.setSlot s slot).slots s = slot :=
  update_self ..

theorem setSlot_slots_of_ne {s s' : ℕ} (h : s' ≠ s) (slot : Slot) :
    (σ.setSlot s slot).slots s' = σ.slots s' :=
  update_of_ne h ..

@[simp] theorem setQueue_queues_self (w : ℕ) (queue : Queue) :
    (σ.setQueue w queue).queues w = queue :=
  update_self ..

theorem setQueue_queues_of_ne {w w' : ℕ} (h : w' ≠ w) (queue : Queue) :
    (σ.setQueue w queue).queues w' = σ.queues w' :=
  update_of_ne h ..

/-- What holds of the new queue and held of the others holds of every queue. -/
theorem forall_setQueue {p : ℕ → Queue → Prop} {w : ℕ} (hself : p w queue)
    (hother : ∀ w', p w' (σ.queues w')) (w' : ℕ) : p w' ((σ.setQueue w queue).queues w') :=
  (forall_update_iff σ.queues p).2 ⟨hself, fun w' _ => hother w'⟩ w'

/-- A slot that is with its task moves on by itself: unless its task is in a queue its log
is free to change, and it forgets to wake a queue only when that queue is active. -/
theorem Inv.setSlot (h : Inv loc σ) {s : ℕ} (hat : slot.At (loc s))
    (hlog : (∃ w, loc s = .queued w) →
      slot.log = (σ.slots s).log ∧ slot.taskId = (σ.slots s).taskId)
    (hwake : ∀ w task rest, (σ.slots s).pc = .waking w task rest →
      slot.pc = .waking w task rest ∨ (σ.queues w).Active) :
    Inv loc (σ.setSlot s slot) where
  slot := by
    intro s'
    by_cases hs : s' = s
    · subst hs
      rwa [setSlot_slots_self]
    · rw [setSlot_slots_of_ne hs]
      exact h.slot s'
  nodup := h.nodup
  waiting := by
    intro w job hjob
    obtain ⟨hloc, hopen⟩ := h.waiting w job hjob
    refine ⟨hloc, ?_⟩
    by_cases hs : job.slot = s
    · subst hs
      obtain ⟨hlog, htask⟩ := hlog ⟨w, hloc⟩
      rwa [setSlot_slots_self, hlog, htask]
    · rwa [setSlot_slots_of_ne hs]
  queued := h.queued
  completing := h.completing
  waker := h.waker
  running := h.running
  due := by
    intro w hjobs
    rcases h.due w hjobs with hactive | ⟨s', task, rest, hpc⟩
    · exact .inl hactive
    · by_cases hs : s' = s
      · subst hs
        rcases hwake w task rest hpc with hpc | hactive
        · exact .inr ⟨s', task, rest, by rwa [setSlot_slots_self]⟩
        · exact .inl hactive
      · exact .inr ⟨s', task, rest, by rwa [setSlot_slots_of_ne hs]⟩

theorem Inv.setHome (h : Inv loc σ) {s : ℕ} (hhome : loc s = .home)
    (hpc : ∀ w task rest, (σ.slots s).pc ≠ .waking w task rest) (hat : slot.At .home) :
    Inv loc (σ.setSlot s slot) :=
  h.setSlot (hhome ▸ hat) (by simp [hhome]) fun w task rest hw => absurd hw (hpc w task rest)

/-- A queue that keeps its jobs and hands no result on changes only how active it is. -/
theorem Inv.setQueue (h : Inv loc σ) {w : ℕ} (hwaiting : queue.waiting = (σ.queues w).waiting)
    (hcompleting : ∀ job result, queue.pc = .completing job result ↔
      (σ.queues w).pc = .completing job result)
    (hwaker : ∀ s, queue.pc = .waking s ↔ (σ.queues w).pc = .waking s)
    (hrunning : queue.running = true → queue.Active)
    (hdue : queue.jobs ≠ [] → queue.Active ∨ (σ.queues w).jobs ≠ [] ∧ ¬(σ.queues w).Active) :
    Inv loc (σ.setQueue w queue) := by
  have hwaiting' := forall_setQueue (p := fun w q => q.waiting = (σ.queues w).waiting) hwaiting
    fun _ => rfl
  have hcompleting' := forall_setQueue (p := fun w q => ∀ job result,
    q.pc = .completing job result ↔ (σ.queues w).pc = .completing job result) hcompleting
    fun _ _ _ => Iff.rfl
  have hwaker' := forall_setQueue (p := fun w q => ∀ s,
    q.pc = .waking s ↔ (σ.queues w).pc = .waking s) hwaker fun _ _ => Iff.rfl
  refine ⟨h.slot, fun w' => ?_, fun w' => ?_, fun s w' => ?_, fun s w' result => ?_,
    fun s w' => (h.waker s w').trans (hwaker' w' s).symm, ?_, ?_⟩
  · rw [hwaiting']
    exact h.nodup w'
  · rw [hwaiting']
    exact h.waiting w'
  · rw [hwaiting']
    exact h.queued s w'
  · simp only [hcompleting']
    exact h.completing s w' result
  · exact forall_setQueue (p := fun _ q => q.running = true → q.Active) hrunning h.running
  · refine forall_setQueue (p := fun w q => q.jobs ≠ [] → q.Active ∨
      ∃ s task rest, (σ.slots s).pc = .waking w task rest) (fun hjobs => ?_) h.due
    exact (hdue hjobs).imp_right fun ⟨hjobs', hidle⟩ => (h.due w hjobs').resolve_left hidle

/-- The task is with its slot or at one worker. -/
def Loc.Near (w : ℕ) : Loc → Prop
  | .home => True
  | .queued w' | .completing w' _ | .waker w' => w' = w

/-- A place at a worker that the queues show is shown after a move at one worker, if the queue of
that worker shows it for the slot that moves and, as before, for the others. -/
theorem located {L : ℕ → Loc} {Q : Queue → ℕ → Prop} {s w : ℕ} {l : Loc}
    (hL : ∀ w w', (L w').Near w → w' = w) (hold : ∀ s w, loc s = L w ↔ Q (σ.queues w) s)
    (hfrom : (loc s).Near w) (hto : l.Near w) (hown : l = L w ↔ Q queue s)
    (hother : ∀ s', s' ≠ s → (Q queue s' ↔ Q (σ.queues w) s')) (s' w' : ℕ) :
    Function.update loc s l s' = L w' ↔ Q ((σ.setQueue w queue).queues w') s' := by
  by_cases hw : w' = w
  · subst hw
    rw [setQueue_queues_self]
    by_cases hs : s' = s
    · subst hs
      rwa [update_self]
    · rw [update_of_ne hs, hold, hother s' hs]
  · rw [setQueue_queues_of_ne hw]
    by_cases hs : s' = s
    · subst hs
      rw [update_self]
      refine ⟨fun h => absurd (hL w w' (h ▸ hto)) hw, fun h => absurd (hL w w' ?_) hw⟩
      exact (hold s' w').2 h ▸ hfrom
    · rw [update_of_ne hs]
      exact hold s' w'

/-- The task of slot `s` moves at worker `w`: what concerns the other slots is as before, and
slot and queue agree on the new place. -/
theorem Inv.move (h : Inv loc σ) {s w : ℕ} {l : Loc}
    (hfrom : (loc s).Near w) (hto : l.Near w) (hat : slot.At l)
    (hnodup : (queue.waiting.map Job.slot).Nodup)
    (hother : ∀ job, job.slot ≠ s → (job ∈ queue.waiting ↔ job ∈ (σ.queues w).waiting))
    (hown : ∀ job ∈ queue.waiting, job.slot = s →
      l = .queued w ∧ Open slot.log slot.taskId job.input)
    (hqueued : l = .queued w → ∃ job ∈ queue.waiting, job.slot = s)
    (hcompleting : ∀ result, l = .completing w result ↔
      ∃ job, queue.pc = .completing job result ∧ job.slot = s)
    (hcompleting' : ∀ job result, job.slot ≠ s →
      (queue.pc = .completing job result ↔ (σ.queues w).pc = .completing job result))
    (hwaker : l = .waker w ↔ queue.pc = .waking s)
    (hwaker' : ∀ s', s' ≠ s → (queue.pc = .waking s' ↔ (σ.queues w).pc = .waking s'))
    (hrunning : queue.running = true → queue.Active)
    (hdue : queue.jobs ≠ [] → queue.Active ∨ ∃ task rest, slot.pc = .waking w task rest)
    (hwake : ∀ w' task rest, (σ.slots s).pc = .waking w' task rest →
      slot.pc = .waking w' task rest) :
    Inv (Function.update loc s l) ((σ.setQueue w queue).setSlot s slot) := by
  have hqueued' := located (L := .queued) (Q := fun q s => ∃ job ∈ q.waiting, job.slot = s)
    (fun _ _ => id)
    (fun s w => ⟨h.queued s w, fun ⟨job, hjob, hs⟩ => hs ▸ (h.waiting w job hjob).1⟩) hfrom hto
    ⟨hqueued, fun ⟨job, hjob, hs⟩ => (hown job hjob hs).1⟩
    fun s' hs => exists_congr fun job => and_congr_left fun hj => hother job (hj ▸ hs)
  have hslot' : ∀ s', s' ≠ s → ((σ.setQueue w queue).setSlot s slot).slots s' = σ.slots s' :=
    fun s' hs => setSlot_slots_of_ne hs slot
  refine ⟨?_, ?_, ?_, fun s' w' => (hqueued' s' w').1, fun s' w' result => ?_, ?_, ?_, ?_⟩
  · intro s'
    by_cases hs : s' = s
    · subst hs
      rwa [setSlot_slots_self, update_self]
    · rw [hslot' s' hs, update_of_ne hs]
      exact h.slot s'
  · exact forall_setQueue (p := fun _ q => (q.waiting.map Job.slot).Nodup) hnodup h.nodup
  · intro w' job hjob
    have hloc := (hqueued' job.slot w').2 ⟨job, hjob, rfl⟩
    refine ⟨hloc, ?_⟩
    by_cases hs : job.slot = s
    · -- no other queue has a job of the slot
      rw [hs, update_self] at hloc
      rw [hloc] at hto
      obtain rfl : w' = w := hto
      rw [setSlot_queues, setQueue_queues_self] at hjob
      rw [hs, setSlot_slots_self]
      exact (hown job hjob hs).2
    · rw [hslot' _ hs]
      by_cases hw : w' = w
      · subst hw
        rw [setSlot_queues, setQueue_queues_self] at hjob
        exact (h.waiting w' job ((hother job hs).1 hjob)).2
      · rw [setSlot_queues, setQueue_queues_of_ne hw] at hjob
        exact (h.waiting w' job hjob).2
  · exact located (L := (.completing · result))
      (Q := fun q s => ∃ job, q.pc = .completing job result ∧ job.slot = s) (fun _ _ => id)
      (h.completing · · result) hfrom hto (hcompleting result) (fun s' hs => exists_congr fun job =>
        and_congr_left fun hj => hcompleting' job result (hj ▸ hs)) s' w'
  · exact located (L := .waker) (Q := fun q s => q.pc = .waking s) (fun _ _ => id) h.waker hfrom hto
      hwaker hwaker'
  · exact forall_setQueue (p := fun _ q => q.running = true → q.Active) hrunning h.running
  · intro w' hjobs
    by_cases hw : w' = w
    · subst hw
      rw [setSlot_queues, setQueue_queues_self] at hjobs ⊢
      rcases hdue hjobs with hactive | ⟨task, rest, hpc⟩
      · exact .inl hactive
      · exact .inr ⟨s, task, rest, by rwa [setSlot_slots_self]⟩
    · rw [setSlot_queues, setQueue_queues_of_ne hw] at hjobs ⊢
      rcases h.due w' hjobs with hactive | ⟨s', task, rest, hpc⟩
      · exact .inl hactive
      · refine .inr ⟨s', task, rest, ?_⟩
        by_cases hs : s' = s
        · subst hs
          rw [setSlot_slots_self]
          exact hwake w' task rest hpc
        · rwa [hslot' s' hs]

end Frames

/-! ### The sections of a slot -/

namespace Slot

section Inversion

variable {l : Loc} {task : String} {rest : List ℕ}

section

variable (h : slot.At l)

include h

/-- A slot whose tick is due has nothing to do, or a result to submit. -/
theorem At.of_due (hpc : slot.pc = .idle) (hsched : slot.scheduled = true) :
    l = .home ∧ (slot.phase = .polling ∧ Closed slot.log ∨
      slot.phase = .resuming ∧ Done slot.log slot.taskId (slot.success, slot.output)) := by
  cases h <;> simp_all [OnTick, Parked]

theorem At.of_scanning (hpc : slot.pc = .scanning rest) :
    l = .home ∧ slot.phase = .polling ∧ slot.scheduled = false ∧ Closed slot.log := by
  cases h <;> simp_all [OnTick, Parked]

theorem At.of_submitting (hpc : slot.pc = .submitting task result) :
    l = .home ∧ slot.phase = .polling ∧ Done slot.log task result := by
  cases h <;> simp_all [OnTick, Parked]

theorem At.of_answering (hpc : slot.pc = .answering task result rest) :
    l = .home ∧ slot.phase = .polling ∧ slot.scheduled = false ∧ Done slot.log task result := by
  cases h <;> simp_all [OnTick, Parked]

theorem At.of_launching {w : ℕ} {task input : String}
    (hpc : slot.pc = .launching w task input rest) :
    l = .home ∧ slot.phase = .awaiting ∧ slot.taskId = task ∧ slot.onStack = true ∧
      slot.scheduled = false ∧ Open slot.log slot.taskId input := by
  cases h <;> simp_all [OnTick, Parked]

/-- The tick goes on behind the wake. -/
theorem At.wakeQueue {w : ℕ}
    (hpc : slot.pc = .waking w task rest) : At l { slot with pc := .returning task rest } := by
  have htick : slot.OnTick slot.taskId →
      ({ slot with pc := .returning task rest } : Slot).OnTick slot.taskId := by
    rintro ⟨hstack, hsched, rest', hwaking | hreturning⟩
    · obtain ⟨w', hw⟩ := hwaking
      rw [hpc] at hw
      cases hw
      exact ⟨hstack, hsched, rest, .inr rfl⟩
    · rw [hpc] at hreturning
      cases hreturning
  have hheld : slot.OnTick slot.taskId ∨ slot.Parked →
      ({ slot with pc := .returning task rest } : Slot).OnTick slot.taskId := by
    rintro (ht | ⟨-, -, hidle⟩)
    · exact htick ht
    · rw [hpc] at hidle
      cases hidle
  cases h with
  | landed hphase ht hlog => exact .landed hphase (htick ht) hlog
  | queued hphase hh hlog => exact .queued hphase (.inl (hheld hh)) hlog
  | completing hphase hh hlog => exact .completing hphase (.inl (hheld hh)) hlog
  | waker hphase hparked hlog => simp_all [Parked]
  | _ => simp_all

/-- A result that landed during the tick. -/
theorem At.of_returning_resuming
    (hpc : slot.pc = .returning task rest) (hphase : slot.phase = .resuming) :
    l = .home ∧ slot.scheduled = false ∧ Done slot.log task (slot.success, slot.output) := by
  cases h with
  | landed _ ht hlog =>
    obtain ⟨-, hsched, rest', hwaking | hreturning⟩ := ht
    · obtain ⟨w', hw⟩ := hwaking
      rw [hpc] at hw
      cases hw
    · rw [hpc] at hreturning
      obtain ⟨htask, -⟩ := SlotPc.returning.inj hreturning
      exact ⟨rfl, hsched, htask ▸ hlog⟩
  | _ => simp_all [Parked]

/-- The slot is parked without a result. -/
theorem At.park (hpc : slot.pc = .returning task rest) (hphase : slot.phase ≠ .resuming) :
    At l { slot with onStack := false, pc := .idle } := by
  have hparked : slot.OnTick slot.taskId ∨ slot.Parked →
      ({ slot with onStack := false, pc := .idle } : Slot).Parked := by
    rintro (⟨-, hsched, -⟩ | ⟨-, hsched, -⟩) <;> exact ⟨rfl, hsched, rfl⟩
  cases h with
  | queued hph hh hlog => exact .queued hph (.inr (hparked hh)) hlog
  | completing hph hh hlog => exact .completing hph (.inr (hparked hh)) hlog
  | _ => simp_all

end

end Inversion

end Slot

section SlotSections

variable {types : List ℕ} {loc : ℕ → Loc} {σ σ' : State} {s : ℕ}

theorem Inv.wakeQueue (h : Inv loc σ) (hnext : Section types σ (.wakeQueue s) σ') :
    Inv loc σ' := by
  cases hnext
  rename_i w task rest hpc
  have hactive : ({ σ.queues w with scheduled := true } : Queue).Active := .inr rfl
  have hqueue : Inv loc (σ.setQueue w { σ.queues w with scheduled := true }) :=
    h.setQueue rfl (fun _ _ => Iff.rfl) (fun _ => Iff.rfl) (fun _ => hactive)
      (fun _ => .inl hactive)
  refine hqueue.setSlot ((h.slot s).wakeQueue hpc) (fun _ => ⟨rfl, rfl⟩) ?_
  intro w' task' rest' hw
  rw [setQueue_slots, hpc] at hw
  obtain ⟨rfl, -, -⟩ := SlotPc.waking.inj hw
  rw [setQueue_queues_self]
  exact .inr hactive

/-- The task goes from its slot into the queue. -/
theorem Inv.launch (h : Inv loc σ) (hnext : Section types σ (.launch s) σ') :
    ∃ loc', Inv loc' σ' := by
  cases hnext
  rename_i w task input rest hpc
  obtain ⟨hhome, hphase, htask, hstack, hsched, hopen⟩ := (h.slot s).of_launching hpc
  -- no job of this slot is in the queue yet
  have hnone : ∀ job ∈ (σ.queues w).waiting, job.slot ≠ s := by
    intro job hjob hs
    have hloc := (h.waiting w job hjob).1
    rw [hs, hhome] at hloc
    cases hloc
  have hwaiting : ({ σ.queues w with jobs := (σ.queues w).jobs ++ [⟨s, input⟩] } : Queue).waiting =
      (σ.queues w).waiting ++ [⟨s, input⟩] := by
    unfold Queue.waiting
    split <;> simp_all
  have hactive : (σ.queues w).Active →
      ({ σ.queues w with jobs := (σ.queues w).jobs ++ [⟨s, input⟩] } : Queue).Active := id
  refine ⟨_, h.move (l := .queued w) ?_ rfl ?_ ?_ ?_ ?_ ?_ ?_ ?_ ?_ ?_ ?_ ?_ ?_⟩
  · rw [hhome]
    trivial
  · refine .queued hphase (.inl ⟨hstack, hsched, rest, ?_⟩) hopen
    rw [htask]
    by_cases hrun : (σ.queues w).running = true
    · exact .inr (by simp [hrun])
    · exact .inl ⟨w, by simp [hrun]⟩
  · rw [hwaiting, map_append, nodup_append]
    refine ⟨h.nodup w, nodup_singleton _, ?_⟩
    rintro a ha b hb rfl
    obtain ⟨job, hjob, rfl⟩ := mem_map.1 ha
    exact hnone job hjob (by simpa using hb)
  · intro job hs
    rw [hwaiting, mem_append, mem_singleton]
    refine ⟨fun hmem => hmem.resolve_right ?_, .inl⟩
    rintro rfl
    exact hs rfl
  · intro job hjob hs
    rw [hwaiting, mem_append, mem_singleton] at hjob
    obtain hjob | rfl := hjob
    · exact absurd hs (hnone job hjob)
    · exact ⟨rfl, hopen⟩
  · intro _
    rw [hwaiting]
    exact ⟨⟨s, input⟩, by simp, rfl⟩
  · intro result
    refine ⟨fun hl => (nomatch hl), ?_⟩
    rintro ⟨job, hjob, hs⟩
    have hloc := (h.completing s w result).2 ⟨job, hjob, hs⟩
    rw [hhome] at hloc
    cases hloc
  · exact fun _ _ _ => Iff.rfl
  · refine ⟨fun hl => (nomatch hl), fun hw => ?_⟩
    have hloc := (h.waker s w).2 hw
    rw [hhome] at hloc
    cases hloc
  · exact fun _ _ => Iff.rfl
  · exact fun hrun => hactive (h.running w hrun)
  · intro _
    by_cases hrun : (σ.queues w).running = true
    · exact .inl (hactive (h.running w hrun))
    · exact .inr ⟨task, rest, by simp [hrun]⟩
  · intro w' task' rest' hw
    rw [hpc] at hw
    cases hw

end SlotSections

/-! ### The sections of a queue -/

namespace Slot

section Inversion

variable {w : ℕ}

theorem At.of_queued (h : slot.At (.queued w)) :
    slot.phase = .awaiting ∧ (slot.OnTick slot.taskId ∨ slot.Parked) := by
  cases h with
  | queued hphase hheld hlog => exact ⟨hphase, hheld⟩

theorem At.of_completing (h : slot.At (.completing w result)) :
    slot.phase = .awaiting ∧ (slot.OnTick slot.taskId ∨ slot.Parked) ∧
      Done slot.log slot.taskId result := by
  cases h with
  | completing hphase hheld hlog => exact ⟨hphase, hheld, hlog⟩

theorem At.of_waker (h : slot.At (.waker w)) :
    slot.phase = .resuming ∧ slot.Parked ∧
      Done slot.log slot.taskId (slot.success, slot.output) := by
  cases h with
  | waker hphase hparked hlog => exact ⟨hphase, hparked, hlog⟩

end Inversion

end Slot

section QueueSections

variable {types : List ℕ} {loc : ℕ → Loc} {σ σ' : State} {w : ℕ}

section

variable (h : Inv loc σ)

include h

/-- The job that was in hand is executed; what it returned is on its way. -/
theorem Inv.execute {result : WorkerResult}
    (hnext : Section types σ (.execute w (.returned result)) σ') : ∃ loc', Inv loc' σ' := by
  cases hnext
  rename_i job pc hpc hcompleting
  obtain rfl := hcompleting result rfl
  have hwaiting : (σ.queues w).waiting = job :: (σ.queues w).jobs := by simp [Queue.waiting, hpc]
  have hafter : ({ σ.queues w with pc := .completing job (resultOf result) } : Queue).waiting =
      (σ.queues w).jobs := rfl
  obtain ⟨hloc, hopen⟩ := h.waiting w job (by rw [hwaiting]; exact .head _)
  have hat := h.slot job.slot
  rw [hloc] at hat
  obtain ⟨hphase, hheld⟩ := hat.of_queued
  have hnodup := h.nodup w
  rw [hwaiting, map_cons, nodup_cons] at hnodup
  -- the job in hand was the only one of its slot
  have hnone : ∀ job' ∈ (σ.queues w).jobs, job'.slot ≠ job.slot := by
    intro job' hjob' hs
    exact hnodup.1 (hs ▸ mem_map_of_mem hjob')
  refine ⟨_, h.move (l := .completing w (resultOf result)) ?_ rfl ?_ ?_ ?_ ?_ ?_ ?_ ?_ ?_ ?_ ?_ ?_
    ?_⟩
  · rw [hloc]
    rfl
  · exact .completing hphase hheld (hopen.executed rfl)
  · rw [hafter]
    exact hnodup.2
  · intro job' hs
    rw [hafter, hwaiting, mem_cons]
    refine ⟨.inr, fun hmem => hmem.resolve_left ?_⟩
    rintro rfl
    exact hs rfl
  · intro job' hjob' hs
    exact absurd hs (hnone job' hjob')
  · exact fun hl => nomatch hl
  · intro result'
    constructor
    · intro hl
      obtain ⟨-, rfl⟩ := Loc.completing.inj hl
      exact ⟨job, rfl, rfl⟩
    · rintro ⟨job', hjob', -⟩
      obtain ⟨-, rfl⟩ := QueuePc.completing.inj hjob'
      rfl
  · intro job' result' hs
    rw [hpc]
    refine ⟨fun hjob' => ?_, fun hjob' => nomatch hjob'⟩
    obtain ⟨rfl, -⟩ := QueuePc.completing.inj hjob'
    exact absurd rfl hs
  · exact ⟨fun hl => (nomatch hl), fun hw => nomatch hw⟩
  · intro s' hs
    rw [hpc]
    exact ⟨fun hw => (nomatch hw), fun hw => nomatch hw⟩
  · exact fun _ => .inl (by simp)
  · exact fun _ => .inl (.inl (by simp))
  · exact fun _ _ _ hw => hw

/-- The worker hands on what it held for the slot: it is done with it, or has to wake the slot. -/
theorem Inv.handOn {s : ℕ} {l : Loc} {pc : QueuePc}
    (hfrom : (∃ result, loc s = .completing w result) ∨ loc s = .waker w)
    (hto : l = .home ∧ pc = .leaving ∨ l = .waker w ∧ pc = .waking s) (hat : slot.At l)
    (hslot : slot.pc = (σ.slots s).pc) :
    Inv (Function.update loc s l) ((σ.setQueue w { σ.queues w with pc := pc }).setSlot s slot) := by
  -- the worker held nothing else
  have hpc : (∃ job result, (σ.queues w).pc = .completing job result ∧ job.slot = s) ∨
      (σ.queues w).pc = .waking s := by
    rcases hfrom with ⟨result, hloc⟩ | hloc
    · obtain ⟨job, hjob⟩ := (h.completing s w result).1 hloc
      exact .inl ⟨job, result, hjob⟩
    · exact .inr ((h.waker s w).1 hloc)
  have hwaiting : ({ σ.queues w with pc := pc } : Queue).waiting = (σ.queues w).waiting := by
    obtain ⟨-, rfl⟩ | ⟨-, rfl⟩ := hto <;>
      obtain ⟨job, result, hpc, -⟩ | hpc := hpc <;> simp [Queue.waiting, hpc]
  have hactive : ({ σ.queues w with pc := pc } : Queue).Active := by
    obtain ⟨-, rfl⟩ | ⟨-, rfl⟩ := hto <;> exact .inl (by simp)
  refine h.move ?_ ?_ hat ?_ ?_ ?_ ?_ ?_ ?_ ?_ ?_ (fun _ => hactive) (fun _ => .inl hactive) ?_
  · obtain ⟨result, hloc⟩ | hloc := hfrom <;> rw [hloc] <;> rfl
  · obtain ⟨rfl, -⟩ | ⟨rfl, -⟩ := hto
    · trivial
    · rfl
  · rw [hwaiting]
    exact h.nodup w
  · intro job' hs
    rw [hwaiting]
  · intro job' hjob' hs
    rw [hwaiting] at hjob'
    have hloc := (h.waiting w job' hjob').1
    rw [hs] at hloc
    obtain ⟨result, hfrom⟩ | hfrom := hfrom <;> simp [hfrom] at hloc
  · obtain ⟨rfl, -⟩ | ⟨rfl, -⟩ := hto <;> exact fun hl => nomatch hl
  · obtain ⟨rfl, rfl⟩ | ⟨rfl, rfl⟩ := hto <;> simp
  · intro job' result' hs
    obtain ⟨-, rfl⟩ | ⟨-, rfl⟩ := hto <;>
      obtain ⟨job, result, hpc, rfl⟩ | hpc :=
        hpc <;> simp [hpc] <;> rintro rfl <;> exact absurd rfl hs
  · obtain ⟨rfl, rfl⟩ | ⟨rfl, rfl⟩ := hto <;> simp
  · intro s' hs
    obtain ⟨-, rfl⟩ | ⟨-, rfl⟩ := hto <;>
      obtain ⟨job, result, hpc, -⟩ | hpc := hpc <;> simp [hpc, Ne.symm hs]
  · rw [hslot]
    exact fun _ _ _ hw => hw

/-- The result lands in its slot, which either finds it in its tick or has to be woken. -/
theorem Inv.complete (hnext : Section types σ (.complete w) σ') :
    ∃ loc', Inv loc' σ' := by
  cases hnext
  rename_i job result hpc
  have hloc := (h.completing job.slot w result).2 ⟨job, hpc, rfl⟩
  have hat := h.slot job.slot
  rw [hloc] at hat
  obtain ⟨-, hheld, hdone⟩ := hat.of_completing
  by_cases hstack : (σ.slots job.slot).onStack = true
  · have htick := hheld.resolve_right fun hparked => by simp [hparked.1] at hstack
    rw [hstack, Bool.not_true, if_neg (by simp)]
    exact ⟨_, h.handOn (.inl ⟨_, hloc⟩) (.inl ⟨rfl, rfl⟩) (.landed rfl htick hdone) rfl⟩
  · have hparked := hheld.resolve_left fun htick => hstack htick.1
    rw [Bool.not_eq_true] at hstack
    rw [hstack, Bool.not_false, if_pos rfl]
    exact ⟨_, h.handOn (.inl ⟨_, hloc⟩) (.inr ⟨rfl, rfl⟩) (.waker rfl hparked hdone) rfl⟩

/-- The slot is woken. -/
theorem Inv.wakeSlot (hnext : Section types σ (.wakeSlot w) σ') :
    ∃ loc', Inv loc' σ' := by
  cases hnext
  rename_i s hpc
  have hloc := (h.waker s w).2 hpc
  have hat := h.slot s
  rw [hloc] at hat
  obtain ⟨hphase, hparked, hdone⟩ := hat.of_waker
  exact ⟨_, h.handOn (.inr hloc) (.inl ⟨rfl, rfl⟩) (.woken hphase hparked.2.2 rfl hdone) rfl⟩

end

end QueueSections

/-! ### Runs without exceptions -/

/-- No call of `execute()` throws. -/
def Returns (_ : State) : Label → Prop
  | .execute _ behaviour => ∃ result, behaviour = .returned result
  | _ => True

theorem Inv.next {types : List ℕ} {loc : ℕ → Loc} {σ σ' : State} {l : Label} (h : Inv loc σ)
    (hreturns : Returns σ l) (hnext : Section types σ l σ') : ∃ loc', Inv loc' σ' := by
  have hsection := hnext
  cases hnext with
  | resume hpc hsched hphase =>
    obtain ⟨hhome, hat⟩ := (h.slot _).of_due hpc hsched
    have hdone := (hat.resolve_left (by simp [hphase])).2
    exact ⟨loc, h.setHome hhome (by simp [hpc]) (.submitting rfl rfl rfl hdone)⟩
  | scan hpc hsched hphase =>
    obtain ⟨hhome, hat⟩ := (h.slot _).of_due hpc hsched
    obtain ⟨hpolling, hclosed⟩ := hat.resolve_right fun hres => hphase hres.1
    exact ⟨loc, h.setHome hhome (by simp [hpc]) (.scanning hpolling rfl rfl hclosed)⟩
  | submit hpc =>
    obtain ⟨hhome, hphase, hdone⟩ := (h.slot _).of_submitting hpc
    exact ⟨loc, h.setHome hhome (by simp [hpc]) (.ready hphase rfl hdone.submitted (.inl rfl))⟩
  | pass hpc =>
    obtain ⟨hhome, hphase, hsched, hclosed⟩ := (h.slot _).of_scanning hpc
    exact ⟨loc, h.setHome hhome (by simp [hpc]) (.scanning hphase rfl hsched hclosed.polled)⟩
  -- the slot stays at home until its job is in a queue
  | receive hpc =>
    obtain ⟨hhome, -, hsched, hclosed⟩ := (h.slot _).of_scanning hpc
    exact ⟨loc, h.setHome hhome (by simp [hpc])
      (.launching rfl rfl rfl hsched (hclosed.received _ _))⟩
  | launch hpc => exact h.launch hsection
  | wakeQueue hpc => exact ⟨loc, h.wakeQueue hsection⟩
  | land hpc hphase =>
    obtain ⟨hhome, hsched, hdone⟩ := (h.slot _).of_returning_resuming hpc hphase
    exact ⟨loc, h.setHome hhome (by simp [hpc]) (.answering rfl rfl hsched hdone)⟩
  | park hpc hphase =>
    exact ⟨loc, h.setSlot ((h.slot _).park hpc hphase) (fun _ => ⟨rfl, rfl⟩) (by simp [hpc])⟩
  | answer hpc =>
    obtain ⟨hhome, hphase, hsched, hdone⟩ := (h.slot _).of_answering hpc
    exact ⟨loc, h.setHome hhome (by simp [hpc]) (.scanning hphase rfl hsched hdone.submitted)⟩
  | restTick hpc =>
    obtain ⟨hhome, hphase, -, hclosed⟩ := (h.slot _).of_scanning hpc
    exact ⟨loc, h.setHome hhome (by simp [hpc]) (.ready hphase rfl hclosed (.inl rfl))⟩
  | rest hpc hsched hjobs =>
    exact ⟨loc, h.setQueue rfl (fun _ _ => Iff.rfl) (fun _ => Iff.rfl) nofun
      fun hne => absurd hjobs hne⟩
  | take hpc hsched hjobs =>
    refine ⟨loc, h.setQueue ?_ (by simp [hpc]) (by simp [hpc]) (fun _ => .inl (by simp))
      fun _ => .inl (.inl (by simp))⟩
    simp [Queue.waiting, hpc, hjobs]
  | execute hpc hcompleting =>
    obtain ⟨result, rfl⟩ := hreturns
    exact h.execute hsection
  | complete hpc => exact h.complete hsection
  | wakeSlot hpc => exact h.wakeSlot hsection
  | leave hpc =>
    refine ⟨loc, h.setQueue ?_ (by simp [hpc]) (by simp [hpc]) (fun _ => .inr rfl)
      fun _ => .inl (.inr rfl)⟩
    simp [Queue.waiting, hpc]

theorem exists_inv {types : List ℕ} {n : ℕ} {σ : State}
    (h : (manager types).Run Returns (initial n) σ) : ∃ loc, Inv loc σ :=
  h.invariant (I := fun σ => ∃ loc, Inv loc σ) ⟨_, inv_initial n⟩
    fun _ _ _ ⟨_, hinv⟩ hreturns hnext => hinv.next hreturns (.of_next hnext)

end Congelado.Worker
