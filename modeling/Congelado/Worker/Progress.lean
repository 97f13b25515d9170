import Congelado.Worker.Answers

/-!
# Answers under fair scheduling

From the moment a slot has received a task there is always a contract that can move and
whose moves bring the answer closer: the slot until its job is pushed, then the queue that
holds the job or the slot that is about to wake that queue, then the worker on its way to
the slot, and the slot again. `Helps` names that contract together with a rank: jobs ahead
of the task first, then the sections that are left. Nobody else's moves raise the rank, so
the progress rule applies (`answered_of_received`).
-/

namespace Congelado.Worker

open Transition List

variable {s : ℕ} {task' : String} {result : Bool × Output} {a : Agent} {n : ℕ}

/-! ### Frames -/

section Frames

variable {types : List ℕ} {loc : ℕ → Loc} {σ σ' : State} {l : Label}

/-- What a section does to a slot whose tick it does not belong to: nothing, or one of the
three things a worker does to the slot of its job. -/
theorem slot_cases (hnext : Section types σ l σ') (hagent : l.agent ≠ .slot s) :
    σ'.slots s = σ.slots s ∨ ∃ w, l.agent = .queue w ∧
      ((∃ job behaviour, l = .execute w behaviour ∧ (σ.queues w).pc = .executing job ∧
          job.slot = s ∧ σ'.slots s = { σ.slots s with
            log := (σ.slots s).log ++ [.executed job.input behaviour] }) ∨
        (∃ job result, (σ.queues w).pc = .completing job result ∧ job.slot = s ∧
          σ'.slots s = { σ.slots s with
            success := result.1, output := result.2, phase := .resuming }) ∨
        (σ.queues w).pc = .waking s ∧ σ'.slots s = { σ.slots s with scheduled := true }) := by
  have hslot : ∀ {s' : ℕ} {slot : Slot} {τ : State}, τ.slots = σ.slots → s' ≠ s →
      (τ.setSlot s' slot).slots s = σ.slots s := by
    intro s' slot τ hτ hs
    rw [setSlot_slots_of_ne (Ne.symm hs), hτ]
  have hne : ∀ {s' : ℕ}, l.agent = .slot s' → s' ≠ s := by
    rintro s' ha rfl
    exact hagent ha
  cases hnext with
  | @execute w job behaviour pc hpc =>
    by_cases hs : job.slot = s
    · subst hs
      exact .inr ⟨w, rfl, .inl ⟨job, behaviour, rfl, hpc, rfl, setSlot_slots_self ..⟩⟩
    · exact .inl (hslot rfl hs)
  | @complete w job result hpc =>
    by_cases hs : job.slot = s
    · subst hs
      exact .inr ⟨w, rfl, .inr (.inl ⟨job, result, hpc, rfl, setSlot_slots_self ..⟩)⟩
    · exact .inl (hslot rfl hs)
  | @wakeSlot w s' hpc =>
    by_cases hs : s' = s
    · subst hs
      exact .inr ⟨w, rfl, .inr (.inr ⟨hpc, setSlot_slots_self ..⟩)⟩
    · exact .inl (hslot rfl hs)
  | rest | take | leave => exact .inl rfl
  | _ => exact .inl (hslot rfl (hne rfl))

/-- Where the tick of a slot stands is changed by its own sections only. -/
theorem slot_pc_frame (hnext : Section types σ l σ')
    (hagent : l.agent ≠ .slot s) : (σ'.slots s).pc = (σ.slots s).pc := by
  obtain hsame | ⟨w, -, ⟨_, _, -, -, -, hslot⟩ | ⟨_, _, -, -, hslot⟩ | ⟨-, hslot⟩⟩ :=
    slot_cases hnext hagent
  · rw [hsame]
  all_goals rw [hslot]

/-- A slot that has its task, or none, is changed by its own sections only. -/
theorem slot_frame (h : Inv loc σ) (hhome : loc s = .home)
    (hnext : Section types σ l σ') (hagent : l.agent ≠ .slot s) :
    σ'.slots s = σ.slots s := by
  obtain hsame | ⟨w, -, ⟨job, _, -, hpc, hs, -⟩ | ⟨job, result, hpc, hs, -⟩ | ⟨hpc, -⟩⟩ :=
    slot_cases hnext hagent
  · exact hsame
  · have hloc := (h.waiting w job (by simp [Queue.waiting, hpc])).1
    rw [hs, hhome] at hloc
    cases hloc
  · have hloc := (h.completing s w result).2 ⟨job, hpc, hs⟩
    rw [hhome] at hloc
    cases hloc
  · have hloc := (h.waker s w).2 hpc
    rw [hhome] at hloc
    cases hloc

/-- While a task is under way, the log of its slot changes by its execution only. -/
theorem log_frame (h : Inv loc σ) (haway : loc s ≠ .home) (hnext : Section types σ l σ')
    (hexecute : ∀ w behaviour, l = .execute w behaviour →
      ∀ job, (σ.queues w).pc = .executing job → job.slot ≠ s) :
    (σ'.slots s).log = (σ.slots s).log := by
  by_cases hagent : l.agent = .slot s
  · -- the slot itself can only wake the queue and settle
    cases hnext with
    | submit hpc =>
      cases hagent
      exact absurd ((h.slot s).of_submitting hpc).1 haway
    | pass hpc | receive hpc =>
      cases hagent
      exact absurd ((h.slot s).of_scanning hpc).1 haway
    | answer hpc =>
      cases hagent
      exact absurd ((h.slot s).of_answering hpc).1 haway
    | rest | take | execute | complete | wakeSlot | leave => cases hagent
    | _ =>
      cases hagent
      rw [setSlot_slots_self]
  · obtain hsame | ⟨w, -, ⟨job, b, hl, hpc, hs, -⟩ | ⟨_, _, -, -, hslot⟩ | ⟨-, hslot⟩⟩ :=
      slot_cases hnext hagent
    · rw [hsame]
    · exact absurd hs (hexecute w b hl job hpc)
    · rw [hslot]
    · rw [hslot]

/-- The other contracts only push jobs and wake a queue. -/
theorem queue_frame {w : ℕ} (hnext : Section types σ l σ') (hagent : l.agent ≠ .queue w) :
    (σ'.queues w).pc = (σ.queues w).pc ∧
      (∃ pushed, (σ'.queues w).jobs = (σ.queues w).jobs ++ pushed) ∧
      ((σ.queues w).scheduled = true → (σ'.queues w).scheduled = true) := by
  have hsame : ∀ {queue : Queue}, queue = σ.queues w → queue.pc = (σ.queues w).pc ∧
      (∃ pushed, queue.jobs = (σ.queues w).jobs ++ pushed) ∧
      ((σ.queues w).scheduled = true → queue.scheduled = true) := by
    rintro _ rfl
    exact ⟨rfl, ⟨[], (append_nil _).symm⟩, id⟩
  have hother : ∀ {w' : ℕ} {queue : Queue}, l.agent = .queue w' →
      (σ.setQueue w' queue).queues w = σ.queues w := by
    intro w' queue ha
    refine setQueue_queues_of_ne ?_ queue
    rintro rfl
    exact hagent ha
  cases hnext with
  | @launch s w' =>
    rw [setSlot_queues]
    by_cases hw : w = w'
    · subst hw
      rw [setQueue_queues_self]
      exact ⟨rfl, ⟨_, rfl⟩, id⟩
    · exact hsame (setQueue_queues_of_ne hw _)
  | @wakeQueue s w' =>
    rw [setSlot_queues]
    by_cases hw : w = w'
    · subst hw
      rw [setQueue_queues_self]
      exact ⟨rfl, ⟨[], (append_nil _).symm⟩, fun _ => rfl⟩
    · exact hsame (setQueue_queues_of_ne hw _)
  | rest | take | execute | complete | wakeSlot | leave => exact hsame (hother rfl)
  | _ => exact hsame rfl

end Frames

/-! ### Who can move -/

section Enabled

variable {types : List ℕ} {σ : State}

theorem enabled_slot (h : (σ.slots s).pc ≠ .idle ∨ (σ.slots s).scheduled = true) :
    (manager types).Enabled Returns Label.agent (.slot s) σ := by
  cases hpc : (σ.slots s).pc with
  | idle =>
    have hdue := h.resolve_left (not_not.2 hpc)
    refine ⟨.beginTick s, rfl, trivial, ?_⟩
    show (beginTick types s σ).isSome = true
    rw [beginTick, if_pos ⟨hpc, hdue⟩]
    split <;> rfl
  | submitting task result =>
    exact ⟨.submit s, rfl, trivial, by simp [manager, submit, hpc]⟩
  | scanning rest =>
    cases rest with
    | nil => exact ⟨.restTick s, rfl, trivial, by simp [manager, restTick, hpc]⟩
    | cons w rest => exact ⟨.poll s none, rfl, trivial, by simp [manager, poll, hpc]⟩
  | launching w task input rest =>
    exact ⟨.launch s, rfl, trivial, by simp [manager, launch, hpc]⟩
  | waking w task rest => exact ⟨.wakeQueue s, rfl, trivial, by simp [manager, wakeQueue, hpc]⟩
  | returning task rest =>
    refine ⟨.settle s, rfl, trivial, ?_⟩
    simp only [manager, settle, hpc]
    split <;> rfl
  | answering task result rest =>
    exact ⟨.answer s, rfl, trivial, by simp [manager, answer, hpc]⟩

theorem enabled_queue {w : ℕ} (h : (σ.queues w).Active) :
    (manager types).Enabled Returns Label.agent (.queue w) σ := by
  cases hpc : (σ.queues w).pc with
  | idle =>
    have hdue := h.resolve_left (not_not.2 hpc)
    refine ⟨.take w, rfl, trivial, ?_⟩
    show (take w σ).isSome = true
    rw [take, if_pos ⟨hpc, hdue⟩]
    split <;> rfl
  | executing job =>
    exact ⟨.execute w (.returned (.ok [])), rfl, ⟨_, rfl⟩, by simp [manager, execute, hpc]⟩
  | completing job result =>
    exact ⟨.complete w, rfl, trivial, by simp [manager, complete, hpc]⟩
  | waking s => exact ⟨.wakeSlot w, rfl, trivial, by simp [manager, wakeSlot, hpc]⟩
  | leaving => exact ⟨.leave w, rfl, trivial, by simp [manager, leave, hpc]⟩

end Enabled

/-! ### Ranks -/

/-- The jobs of a queue that are not handed on, the one in hand first. -/
def Queue.held (queue : Queue) : List Job :=
  match queue.pc with
  | .executing job | .completing job _ => job :: queue.jobs
  | _ => queue.jobs

/-- The sections that a queue has before it until it hands on its first job. -/
def Queue.rank (queue : Queue) : ℕ :=
  match queue.pc with
  | .waking _ => 8
  | .leaving => 7
  | .idle => if queue.scheduled then 5 else 6
  | .executing _ => 4
  | .completing _ _ => 3

/-- The sections that a slot has before it until it submits the result it got. -/
def Slot.resumeRank (slot : Slot) : ℕ :=
  match slot.pc with
  | .idle => 8
  | .submitting _ _ => 7
  | .waking _ _ _ => 6
  | .returning _ _ => 5
  | _ => 4

/-- The sections that a slot has before it until it polls. -/
def Slot.pollRank (slot : Slot) : ℕ :=
  match slot.pc with
  | .scanning [] => 3
  | .scanning _ => 1
  | _ => 2

/-- Stages first, then the jobs ahead, then sections. -/
abbrev Rank := ℕ ×ₗ ℕ ×ₗ ℕ

variable {r : Rank}

def rank (stage ahead sections : ℕ) : Rank := toLex (stage, toLex (ahead, sections))

theorem rank_lt {a b c a' b' c' : ℕ} :
    rank a b c < rank a' b' c' ↔ a < a' ∨ a = a' ∧ (b < b' ∨ b = b' ∧ c < c') := by
  simp [rank, Prod.Lex.toLex_lt_toLex]

section Helps

variable (s : ℕ) (before : List Event) (task input : String)

/-- The contract that helps the task which slot `s` received after `before`, and how far the
task is. -/
inductive Helps : Rank → Agent → State → Prop
  | launching {σ : State} {loc : ℕ → Loc} {w : ℕ} {rest : List ℕ} (hinv : Inv loc σ)
      (hlog : (σ.slots s).log = before ++ [.received task input])
      (hpc : (σ.slots s).pc = .launching w task input rest) : Helps (rank 2 0 0) (.slot s) σ
  | queued {σ : State} {loc : ℕ → Loc} {w : ℕ} {job : Job} {ahead behind : List Job}
      (hinv : Inv loc σ) (hlog : (σ.slots s).log = before ++ [.received task input])
      (hheld : (σ.queues w).held = ahead ++ job :: behind) (hjob : job.slot = s)
      (hactive : (σ.queues w).Active) :
      Helps (rank 1 ahead.length (σ.queues w).rank) (.queue w) σ
  | unwoken {σ : State} {loc : ℕ → Loc} {w : ℕ} {job : Job} {ahead behind : List Job}
      {s' : ℕ} {task' : String} {rest : List ℕ}
      (hinv : Inv loc σ) (hlog : (σ.slots s).log = before ++ [.received task input])
      (hheld : (σ.queues w).held = ahead ++ job :: behind) (hjob : job.slot = s)
      (hidle : ¬(σ.queues w).Active) (hpc : (σ.slots s').pc = .waking w task' rest) :
      Helps (rank 1 ahead.length 6) (.slot s') σ
  | completing {σ : State} {loc : ℕ → Loc} {w : ℕ} {behaviour : Behaviour}
      {result : Bool × Output} (hinv : Inv loc σ)
      (hlog : (σ.slots s).log = before ++ [.received task input, .executed input behaviour])
      (hloc : loc s = .completing w result) : Helps (rank 0 0 10) (.queue w) σ
  | waker {σ : State} {loc : ℕ → Loc} {w : ℕ} {behaviour : Behaviour} (hinv : Inv loc σ)
      (hlog : (σ.slots s).log = before ++ [.received task input, .executed input behaviour])
      (hloc : loc s = .waker w) : Helps (rank 0 0 9) (.queue w) σ
  | resuming {σ : State} {loc : ℕ → Loc} {behaviour : Behaviour} (hinv : Inv loc σ)
      (hlog : (σ.slots s).log = before ++ [.received task input, .executed input behaviour])
      (hloc : loc s = .home) : Helps (rank 0 0 (σ.slots s).resumeRank) (.slot s) σ
  | submitted {σ : State} {loc : ℕ → Loc} {behaviour : Behaviour} {result : Bool × Output}
      (hinv : Inv loc σ) (hyields : behaviour.Yields result)
      (hlog : (σ.slots s).log = before ++ [.received task input, .executed input behaviour,
        .submitted task result]) : Helps (rank 0 0 (σ.slots s).pollRank) (.slot s) σ

/-- The task is answered with the outcome of its execution, and the slot has polled again. -/
def AnsweredIn (log : List Event) : Prop :=
  ∃ behaviour result, behaviour.Yields result ∧
    before ++ [.received task input, .executed input behaviour, .submitted task result, .polled]
      <+: log

end Helps

/-! ### Reading the log -/

/-- A closed log does not end inside a task. -/
theorem Closed.last {log front : List Event} {e : Event} (h : Closed log)
    (hlog : log = front ++ [e]) : e = .polled ∨ ∃ task result, e = .submitted task result := by
  cases h with
  | nil => simp at hlog
  | polled _ =>
    have hlast := append_inj_right' hlog rfl
    exact .inl (by simpa using hlast.symm)
  | answered hclosed hyields =>
    rename_i log task input behaviour result
    have hsplit : log ++ [.received task input, .executed input behaviour] ++
        [.submitted task result] = front ++ [e] := by simpa using hlog
    have hlast := append_inj_right' hsplit rfl
    exact .inr ⟨task, result, by simpa using hlast.symm⟩

section Reading

variable {before : List Event} {task input : String} {behaviour : Behaviour}

theorem not_closed_received : ¬Closed (before ++ [.received task input]) := by
  intro h
  obtain h | ⟨_, _, h⟩ := h.last rfl <;> cases h

theorem not_closed_executed :
    ¬Closed (before ++ [.received task input, .executed input behaviour]) := by
  intro h
  have hsplit : before ++ [.received task input, .executed input behaviour] =
      before ++ [.received task input] ++ [.executed input behaviour] := by simp
  obtain h | ⟨_, _, h⟩ := h.last hsplit <;> cases h

theorem not_done_received :
    ¬Done (before ++ [.received task input]) task' result := by
  rintro ⟨before', input', behaviour', -, -, heq⟩
  have hsplit : before ++ [.received task input] =
      before' ++ [.received task' input'] ++ [.executed input' behaviour'] := by simpa using heq
  simpa using append_inj_right' hsplit rfl

theorem not_open_executed {task' input' : String} :
    ¬Open (before ++ [.received task input, .executed input behaviour]) task' input' := by
  rintro ⟨before', -, heq⟩
  have hsplit : before ++ [.received task input] ++ [.executed input behaviour] =
      before' ++ [.received task' input'] := by simpa using heq
  simpa using append_inj_right' hsplit rfl

/-- The log determines the task and the outcome it waits to submit. -/
theorem Done.eq
    (h : Done (before ++ [.received task input, .executed input behaviour]) task' result) :
    task' = task ∧ behaviour.Yields result := by
  obtain ⟨before', input', behaviour', -, hyields, heq⟩ := h
  have hlast := append_inj_right' heq rfl
  obtain ⟨⟨rfl, -⟩, ⟨-, rfl⟩, -⟩ := hlast
  exact ⟨rfl, hyields⟩

end Reading

namespace Slot

variable {slot : Slot} {l : Loc}

/-- A slot cannot have its task and be without it. -/
theorem At.home_unique (h : slot.At .home) (h' : slot.At l) : l = .home := by
  cases h <;> cases h' <;> simp_all [OnTick, Parked]

/-- The slot with a result that it has not submitted. -/
theorem At.of_executed {before : List Event} {task input : String} {behaviour : Behaviour}
    (h : slot.At .home)
    (hlog : slot.log = before ++ [.received task input, .executed input behaviour]) :
    (slot.pc = .idle ∧ slot.scheduled = true ∧ slot.phase = .resuming) ∨
      (∃ task' result, slot.pc = .submitting task' result) ∨
      (∃ task' result rest, slot.pc = .answering task' result rest) ∨
      slot.phase = .resuming ∧ ∃ task' rest,
        (∃ w, slot.pc = .waking w task' rest) ∨ slot.pc = .returning task' rest := by
  cases h with
  | ready _ _ hclosed | scanning _ _ _ hclosed =>
    exact absurd (hlog ▸ hclosed) not_closed_executed
  | submitting _ hpc _ _ => exact .inr (.inl ⟨_, _, hpc⟩)
  | answering _ hpc _ _ => exact .inr (.inr (.inl ⟨_, _, _, hpc⟩))
  | launching _ _ _ _ hopen => exact absurd (hlog ▸ hopen) not_open_executed
  | landed hphase htick _ => exact .inr (.inr (.inr ⟨hphase, _, htick.2.2⟩))
  | woken hphase hpc hsched _ => exact .inl ⟨hpc, hsched, hphase⟩

theorem At.log_cases (h : slot.At l) :
    Closed slot.log ∨ (∃ task input, Open slot.log task input) ∨
      ∃ task result, Done slot.log task result := by
  cases h with
  | ready _ _ hlog | scanning _ _ _ hlog => exact .inl hlog
  | launching _ _ _ _ hlog | queued _ _ hlog => exact .inr (.inl ⟨_, _, hlog⟩)
  | submitting _ _ _ hlog | answering _ _ _ hlog | landed _ _ hlog | woken _ _ _ hlog
  | completing _ _ hlog | waker _ _ hlog => exact .inr (.inr ⟨_, _, hlog⟩)

/-- A slot that awaits a result outside of a tick has its task at a worker. -/
theorem At.of_awaiting (h : slot.At l) (hpc : slot.pc = .idle) (hphase : slot.phase = .awaiting) :
    ∃ w, l = .queued w ∨ ∃ result, l = .completing w result := by
  cases h with
  | queued _ _ _ => exact ⟨_, .inl rfl⟩
  | completing _ _ _ => exact ⟨_, .inr ⟨_, rfl⟩⟩
  | _ => simp_all

/-- The slot that has submitted its result. -/
theorem At.of_submitted {task : String} (h : slot.At l)
    (front : List Event) (hlog : slot.log = front ++ [.submitted task result]) :
    l = .home ∧ slot.phase = .polling ∧
      (slot.pc = .idle ∧ slot.scheduled = true ∨ ∃ rest, slot.pc = .scanning rest) := by
  have hdone : ∀ task' result', ¬Done slot.log task' result' := by
    rintro task' result' ⟨before, input, behaviour, -, -, heq⟩
    have hsplit : front ++ [.submitted task result] =
        before ++ [.received task' input] ++ [.executed input behaviour] := by
      rw [← hlog, heq]
      simp
    simpa using append_inj_right' hsplit rfl
  have hopen : ∀ task' input, ¬Open slot.log task' input := by
    rintro task' input ⟨before, -, heq⟩
    rw [hlog] at heq
    simpa using append_inj_right' heq rfl
  cases h with
  | ready hphase hpc _ hdue =>
    refine ⟨rfl, hphase, .inl ⟨hpc, hdue.resolve_right ?_⟩⟩
    simp [hlog]
  | scanning hphase hpc _ _ => exact ⟨rfl, hphase, .inr ⟨_, hpc⟩⟩
  | launching _ _ _ _ h | queued _ _ h => exact absurd h (hopen _ _)
  | submitting _ _ _ h | answering _ _ _ h | landed _ _ h | woken _ _ _ h | completing _ _ h
  | waker _ _ h => exact absurd h (hdone _ _)

end Slot

/-! ### The sections by where a tick stands -/

section Sections

variable {types : List ℕ} {σ σ' : State} {l : Label}

/-- The section that a slot makes next. -/
theorem slot_section {pc : SlotPc} (hnext : Section types σ l σ') (hagent : l.agent = .slot s) :
    (σ.slots s).pc = pc → match pc with
    | .idle => l = .beginTick s
    | .submitting _ _ => l = .submit s
    | .scanning [] => l = .restTick s
    | .scanning (_ :: _) => ∃ response, l = .poll s response
    | .launching _ _ _ _ => l = .launch s
    | .waking _ _ _ => l = .wakeQueue s
    | .returning _ _ => l = .settle s
    | .answering _ _ _ => l = .answer s := by
  rintro rfl
  cases hnext <;> cases hagent <;> simp_all

/-- The section that a queue makes next. -/
theorem queue_section {w : ℕ} {pc : QueuePc} (hnext : Section types σ l σ')
    (hagent : l.agent = .queue w) : (σ.queues w).pc = pc → match pc with
    | .idle => l = .take w
    | .executing _ => ∃ behaviour, l = .execute w behaviour
    | .completing _ _ => l = .complete w
    | .waking _ => l = .wakeSlot w
    | .leaving => l = .leave w := by
  rintro rfl
  cases hnext <;> cases hagent <;> simp_all

end Sections

/-! ### One section brings the answer closer -/

section Steps

variable {types : List ℕ} {σ σ' : State} {l : Label} {loc : ℕ → Loc} {before : List Event}
    {task input : String} {behaviour : Behaviour} {w : ℕ} {job : Job} {ahead behind : List Job}
    {rest : List ℕ}

/-- What a section may do to the task: answer it, bring it closer, or be one of somebody who
does not help. -/
def Advances (s : ℕ) (before : List Event) (task input : String) (r : Rank) (a : Agent)
    (l : Label) (σ' : State) : Prop :=
  AnsweredIn before task input (σ'.slots s).log ∨
    (∃ r' a', r' < r ∧ Helps s before task input r' a' σ') ∨
    l.agent ≠ a ∧ Helps s before task input r a σ'

/-- The slot has the result, at a later section. -/
theorem advances_of_resuming (hinv : Inv loc σ')
    (hlog : (σ'.slots s).log = before ++ [.received task input, .executed input behaviour])
    (hhome : loc s = .home) (hlt : (σ'.slots s).resumeRank < n) :
    Advances s before task input (rank 0 0 n) a l σ' :=
  .inr (.inl ⟨_, _, rank_lt.2 (by omega), .resuming hinv hlog hhome⟩)

/-- The slot has submitted the result, and is closer to its poll. -/
theorem advances_of_submitted (hinv : Inv loc σ') (hyields : behaviour.Yields result)
    (hlog : (σ'.slots s).log = before ++ [.received task input, .executed input behaviour,
      .submitted task result]) (hlt : (σ'.slots s).pollRank < n) :
    Advances s before task input (rank 0 0 n) a l σ' :=
  .inr (.inl ⟨_, _, rank_lt.2 (by omega), .submitted hinv hyields hlog⟩)

variable {loc' : ℕ → Loc} (hinv : Inv loc σ) (hnext : Section types σ l σ')

include hinv hnext

/-- A task that was executed is not executed again. -/
theorem log_of_executed (haway : loc s ≠ .home) (hqueued : ∀ w, loc s ≠ .queued w) :
    (σ'.slots s).log = (σ.slots s).log := by
  refine log_frame hinv haway hnext ?_
  rintro w behaviour - job hjob rfl
  exact hqueued w (hinv.waiting w job (by simp [Queue.waiting, hjob])).1

variable (hinv' : Inv loc' σ')

include hinv'

/-- The result is submitted: the slot polls next. -/
theorem advances_submitted (htypes : types ≠ []) (hyields : behaviour.Yields result)
    (hlog : (σ.slots s).log = before ++ [.received task input, .executed input behaviour,
      .submitted task result]) :
    Advances s before task input (rank 0 0 (σ.slots s).pollRank) (.slot s) l σ' := by
  obtain ⟨hhome, hphase, hpc⟩ := (hinv.slot s).of_submitted
    (before ++ [.received task input, .executed input behaviour]) (by simpa using hlog)
  by_cases hagent : l.agent = .slot s
  · obtain ⟨hpc, hsched⟩ | ⟨rest, hpc⟩ := hpc
    · obtain rfl := slot_section hnext hagent hpc
      cases hnext with
      | resume _ _ hres =>
        rw [hphase] at hres
        cases hres
      | scan =>
        exact advances_of_submitted hinv' hyields (by rwa [setSlot_slots_self])
          (by simp [Slot.pollRank, hpc])
    · cases rest with
      | nil =>
        obtain rfl := slot_section hnext hagent hpc
        cases hnext
        exact advances_of_submitted hinv' hyields (by rwa [setSlot_slots_self])
          (by simp [Slot.pollRank, hpc])
      | cons w rest =>
        obtain ⟨response, rfl⟩ := slot_section hnext hagent hpc
        refine .inl ⟨behaviour, result, hyields, ?_⟩
        cases hnext <;> simp [hlog]
  · have hframe := slot_frame hinv hhome hnext hagent
    refine .inr (.inr ⟨hagent, ?_⟩)
    rw [← hframe] at hlog ⊢
    exact .submitted hinv' hyields hlog

section

variable (hlog : (σ.slots s).log = before ++ [.received task input, .executed input behaviour])

include hlog

/-- The slot has a result to submit. -/
theorem advances_resuming (hhome : loc s = .home) :
    Advances s before task input (rank 0 0 (σ.slots s).resumeRank) (.slot s) l σ' := by
  have hat := hinv.slot s
  rw [hhome] at hat
  have hat' := hinv'.slot s
  by_cases hagent : l.agent = .slot s
  · obtain ⟨hpc, -, hphase⟩ | ⟨task', result, hpc⟩ | ⟨task', result, rest, hpc⟩ |
      ⟨hphase, task', rest, ⟨w, hpc⟩ | hpc⟩ := hat.of_executed hlog
    · obtain rfl := slot_section hnext hagent hpc
      cases hnext with
      | resume =>
        exact advances_of_resuming hinv' (by rwa [setSlot_slots_self])
          (hat'.of_submitting (by rw [setSlot_slots_self])).1 (by simp [Slot.resumeRank, hpc])
      | scan _ _ hres => exact absurd hphase hres
    -- the result is submitted in this section, and the answer with it
    · obtain ⟨-, -, hdone⟩ := hat.of_submitting hpc
      rw [hlog] at hdone
      obtain ⟨rfl, hyields⟩ := hdone.eq
      obtain rfl := slot_section hnext hagent hpc
      cases hnext with
      | submit hpc' =>
        cases hpc.symm.trans hpc'
        exact advances_of_submitted hinv' hyields (by simp [hlog])
          (by simp [Slot.resumeRank, Slot.pollRank, hpc])
    · obtain ⟨-, -, -, hdone⟩ := hat.of_answering hpc
      rw [hlog] at hdone
      obtain ⟨rfl, hyields⟩ := hdone.eq
      obtain rfl := slot_section hnext hagent hpc
      cases hnext with
      | answer hpc' =>
        cases hpc.symm.trans hpc'
        refine advances_of_submitted hinv' hyields (by simp [hlog]) ?_
        cases rest <;> simp [Slot.resumeRank, Slot.pollRank, hpc]
    · obtain rfl := slot_section hnext hagent hpc
      cases hnext with
      | wakeQueue hpc' =>
        cases hpc.symm.trans hpc'
        rw [setSlot_slots_self] at hat'
        exact advances_of_resuming hinv' (by rwa [setSlot_slots_self])
          ((hat.wakeQueue hpc).home_unique hat') (by simp [Slot.resumeRank, hpc])
    · obtain rfl := slot_section hnext hagent hpc
      cases hnext with
      | land =>
        exact advances_of_resuming hinv' (by rwa [setSlot_slots_self])
          (hat'.of_answering (by rw [setSlot_slots_self])).1 (by simp [Slot.resumeRank, hpc])
      | park _ hres => exact absurd hphase hres
  -- another agent leaves the slot as it is
  · have hframe := slot_frame hinv hhome hnext hagent
    rw [hframe] at hat'
    rw [← hframe] at hlog ⊢
    exact .inr (.inr ⟨hagent, .resuming hinv' hlog (hat.home_unique hat')⟩)

/-- The worker is about to wake the slot. -/
theorem advances_waker
    (hloc : loc s = .waker w) : Advances s before task input (rank 0 0 9) (.queue w) l σ' := by
  have hpc := (hinv.waker s w).1 hloc
  have hlog' := (log_of_executed hinv hnext (by simp [hloc]) (by simp [hloc])).trans hlog
  by_cases hagent : l.agent = .queue w
  · obtain rfl := queue_section hnext hagent hpc
    cases hnext with
    | wakeSlot hpc' =>
      cases hpc.symm.trans hpc'
      have hat := hinv.slot s
      rw [hloc] at hat
      obtain ⟨-, ⟨-, -, hidle⟩, -⟩ := hat.of_waker
      have hdue := (hinv'.slot s).of_due (by rwa [setSlot_slots_self]) (by rw [setSlot_slots_self])
      exact advances_of_resuming hinv' hlog' hdue.1 (by simp [Slot.resumeRank, hidle])
  · refine .inr (.inr ⟨hagent, .waker hinv' hlog' ?_⟩)
    rw [hinv'.waker, (queue_frame hnext hagent).1, hpc]

/-- The worker is about to put the result into the slot. -/
theorem advances_completing (hloc : loc s = .completing w result) :
    Advances s before task input (rank 0 0 10) (.queue w) l σ' := by
  obtain ⟨job, hpc, rfl⟩ := (hinv.completing s w result).1 hloc
  have hlog' := (log_of_executed hinv hnext (by simp [hloc]) (by simp [hloc])).trans hlog
  by_cases hagent : l.agent = .queue w
  · obtain rfl := queue_section hnext hagent hpc
    cases hnext with
    | complete hpc' =>
      cases hpc.symm.trans hpc'
      by_cases hstack : (σ.slots job.slot).onStack = true
      · -- the slot finds the result in its tick
        have hat := hinv.slot job.slot
        rw [hloc] at hat
        obtain ⟨-, hheld, hdone⟩ := hat.of_completing
        have htick := hheld.resolve_right fun hparked => by simp [hparked.1] at hstack
        have hlanded : ({ σ.slots job.slot with
            success := result.1, output := result.2, phase := .resuming } : Slot).At .home :=
          .landed rfl htick hdone
        have hat' := hinv'.slot job.slot
        rw [setSlot_slots_self] at hat'
        refine advances_of_resuming hinv' hlog' (hlanded.home_unique hat') ?_
        obtain ⟨-, -, rest, ⟨w', hw⟩ | hret⟩ := htick
        · simp [Slot.resumeRank, hw]
        · simp [Slot.resumeRank, hret]
      · refine .inr (.inl ⟨_, _, rank_lt.2 (by omega), .waker (w := w) hinv' hlog' ?_⟩)
        rw [hinv'.waker, setSlot_queues, setQueue_queues_self]
        simp [hstack]
  · have hloc' := (hinv'.completing job.slot w result).2
      ⟨job, (queue_frame hnext hagent).1.trans hpc, rfl⟩
    exact .inr (.inr ⟨hagent, .completing hinv' hlog' hloc'⟩)

end

omit hinv hnext hinv' in
theorem Queue.rank_of_not_active {queue : Queue} (h : ¬queue.Active) :
    queue.pc = .idle ∧ queue.rank = 6 := by
  rw [Queue.Active, not_or, not_not, Bool.not_eq_true] at h
  refine ⟨h.1, ?_⟩
  simp [Queue.rank, h.1, h.2]

omit hnext hinv' in
/-- A queue that holds the job of the slot is active, or about to be woken. -/
theorem exists_helps_of_held (hlog : (σ.slots s).log = before ++ [.received task input])
    (hheld : (σ.queues w).held = ahead ++ job :: behind) (hjob : job.slot = s) :
    ∃ a, Helps s before task input (rank 1 ahead.length (σ.queues w).rank) a σ := by
  by_cases hactive : (σ.queues w).Active
  · exact ⟨_, .queued hinv hlog hheld hjob hactive⟩
  · obtain ⟨hpc, hrank⟩ := Queue.rank_of_not_active hactive
    have hjobs : (σ.queues w).jobs ≠ [] := by
      rw [Queue.held, hpc] at hheld
      simp [hheld]
    obtain ⟨s', task', rest, hwaking⟩ := (hinv.due w hjobs).resolve_left hactive
    rw [hrank]
    exact ⟨_, .unwoken hinv hlog hheld hjob hactive hwaking⟩

omit hnext hinv' in
/-- The task that a queue holds is in the queue or at its worker. -/
theorem loc_of_held (hlog : (σ.slots job.slot).log = before ++ [.received task input])
    (hjob : job ∈ (σ.queues w).held) : job ∈ (σ.queues w).waiting ∧ loc job.slot = .queued w := by
  have hwaiting : job ∈ (σ.queues w).waiting := by
    unfold Queue.held at hjob
    cases hpc : (σ.queues w).pc with
    | completing job' result =>
      rw [hpc] at hjob
      obtain rfl | hjob := mem_cons.1 hjob
      · -- a task on its way back has been executed
        have hat := hinv.slot job.slot
        rw [(hinv.completing job.slot w result).2 ⟨job, hpc, rfl⟩] at hat
        obtain ⟨-, -, hdone⟩ := hat.of_completing
        exact absurd (hlog ▸ hdone) not_done_received
      · simpa [Queue.waiting, hpc] using hjob
    | _ =>
      simpa [Queue.waiting, hpc] using hjob
  exact ⟨hwaiting, (hinv.waiting w job hwaiting).1⟩

/-- The slot pushes its job. -/
theorem advances_launching (hlog : (σ.slots s).log = before ++ [.received task input])
    (hpc : (σ.slots s).pc = .launching w task input rest) :
    Advances s before task input (rank 2 0 0) (.slot s) l σ' := by
  by_cases hagent : l.agent = .slot s
  · obtain rfl := slot_section hnext hagent hpc
    cases hnext with
    | launch hpc' =>
      cases hpc.symm.trans hpc'
      have hheld : ({ σ.queues w with
          jobs := (σ.queues w).jobs ++ [⟨s, input⟩] } : Queue).held =
            (σ.queues w).held ++ ⟨s, input⟩ :: [] := by
        unfold Queue.held
        cases (σ.queues w).pc <;> simp
      obtain ⟨a, hhelps⟩ := exists_helps_of_held (s := s) (w := w) hinv'
        (by rwa [setSlot_slots_self]) (by rwa [setSlot_queues, setQueue_queues_self]) rfl
      exact .inr (.inl ⟨_, a, rank_lt.2 (by omega), hhelps⟩)
  · have hhome := ((hinv.slot s).of_launching hpc).1
    have hframe := slot_frame hinv hhome hnext hagent
    rw [← hframe] at hlog hpc
    exact .inr (.inr ⟨hagent, .launching hinv' hlog hpc⟩)

omit hinv' in
/-- While the job waits, only its execution changes the log of its slot. -/
theorem log_of_held (hlog : (σ.slots job.slot).log = before ++ [.received task input])
    (hjob : job ∈ (σ.queues w).held)
    (hexecute : ∀ behaviour, l = .execute w behaviour → (σ.queues w).pc ≠ .executing job) :
    (σ'.slots job.slot).log = before ++ [.received task input] := by
  obtain ⟨hwaiting, hloc⟩ := loc_of_held hinv hlog hjob
  refine (log_frame hinv (by simp [hloc]) hnext ?_).trans hlog
  intro w' behaviour hl job' hjob' hs
  have hmem : job' ∈ (σ.queues w').waiting := by simp [Queue.waiting, hjob']
  have hloc' := (hinv.waiting w' job' hmem).1
  rw [hs, hloc] at hloc'
  obtain rfl := Loc.queued.inj hloc'
  -- both are jobs of one slot in one queue
  obtain rfl := inj_on_of_nodup_map (hinv.nodup w) hmem hwaiting hs
  exact hexecute behaviour hl hjob'

omit hinv hinv' in
/-- Another contract pushes behind the job. -/
theorem held_frame (hheld : (σ.queues w).held = ahead ++ job :: behind)
    (hagent : l.agent ≠ .queue w) :
    ∃ behind', (σ'.queues w).held = ahead ++ job :: behind' := by
  obtain ⟨hpc, ⟨pushed, hjobs⟩, -⟩ := queue_frame hnext hagent
  refine ⟨behind ++ pushed, ?_⟩
  have happend : (σ'.queues w).held = (σ.queues w).held ++ pushed := by
    unfold Queue.held
    rw [hpc, hjobs]
    cases (σ.queues w).pc <;> rfl
  rw [happend, hheld]
  simp

omit hinv hnext in
/-- The job is still held, closer to the head or at a later section. -/
theorem advances_of_held (hlog : (σ'.slots job.slot).log = before ++ [.received task input])
    (hheld : (σ'.queues w).held = ahead ++ job :: behind)
    (hlt : rank 1 ahead.length (σ'.queues w).rank < r) :
    Advances job.slot before task input r a l σ' := by
  obtain ⟨a', hhelps⟩ := exists_helps_of_held hinv' hlog hheld rfl
  exact .inr (.inl ⟨_, a', hlt, hhelps⟩)

/-- The worker executes a job: it was this one, which is on its way back, or one ahead. -/
theorem advances_execute {first job : Job} {result : WorkerResult}
    (hl : l = .execute w (.returned result))
    (hlog : (σ.slots job.slot).log = before ++ [.received task input])
    (hpc : (σ.queues w).pc = .executing first)
    (hcons : first :: (σ.queues w).jobs = ahead ++ job :: behind) :
    Advances job.slot before task input (rank 1 ahead.length 4) (.queue w) l σ' := by
  have hmem : job ∈ (σ.queues w).held := by simp [Queue.held, hpc, hcons]
  have hlater := log_of_held hinv hnext hlog hmem
  subst hl
  cases hnext with
  | execute hpc' hreturned =>
    cases hpc.symm.trans hpc'
    obtain rfl := hreturned result rfl
    cases ahead with
    | nil =>
      obtain ⟨rfl, -⟩ := List.cons.inj hcons
      obtain ⟨-, front, -, heq⟩ := hinv.waiting w first (loc_of_held hinv hlog hmem).1
      have hinput : first.input = input := by
        rw [hlog] at heq
        have hlast := append_inj_right' heq rfl
        simp only [List.cons.injEq, Event.received.injEq] at hlast
        exact hlast.1.2.symm
      have hloc := (hinv'.completing first.slot w (resultOf result)).2 ⟨first, by simp, rfl⟩
      refine .inr (.inl ⟨_, _, rank_lt.2 (by omega), .completing hinv'
        (?_ : _ = before ++ [_, .executed input (.returned result)]) hloc⟩)
      simp [hlog, hinput]
    | cons first' ahead =>
      obtain ⟨rfl, hjobs⟩ := List.cons.inj hcons
      have hne : (σ.queues w).pc ≠ .executing job := by
        intro heq
        obtain rfl := QueuePc.executing.inj (hpc.symm.trans heq)
        have hnodup := hinv.nodup w
        rw [Queue.waiting, hpc] at hnodup
        simp [hjobs] at hnodup
      refine advances_of_held (w := w) hinv' (hlater fun _ _ => hne)
        (?_ : _ = (first :: ahead) ++ job :: behind) ?_
      · rwa [setSlot_queues, setQueue_queues_self]
      · rw [rank_lt, setSlot_queues, setQueue_queues_self]
        simp [Queue.rank]

section

variable (hlog : (σ.slots job.slot).log = before ++ [.received task input])

include hlog

section

variable (hheld : (σ.queues w).held = ahead ++ job :: behind)

include hheld

/-- The queue works itself towards the job. -/
theorem advances_own
    (hreturns : Returns σ l) (hagent : l.agent = .queue w) :
    Advances job.slot before task input (rank 1 ahead.length (σ.queues w).rank)
      (.queue w) l σ' := by
  have hmem : job ∈ (σ.queues w).held := by simp [hheld]
  have hsection := hnext
  have hlog' := log_of_held hinv hnext hlog hmem
  cases hnext <;> cases hagent
  case rest hpc hsched hjobs => simp [Queue.held, hpc, hjobs] at hheld
  case take hpc hsched hjobs =>
    rw [Queue.held, hpc] at hheld
    refine advances_of_held (w := w) hinv' hlog (?_ : _ = ahead ++ job :: behind) ?_
    · rw [setQueue_queues_self]
      exact hjobs.symm.trans hheld
    · rw [rank_lt, setQueue_queues_self]
      simp [Queue.rank, hpc, hsched]
  case execute behaviour first pc hreturned hpc =>
    obtain ⟨result, rfl⟩ := hreturns
    have hrank : (σ.queues w).rank = 4 := by rw [Queue.rank, hpc]
    rw [Queue.held, hpc] at hheld
    rw [hrank]
    exact advances_execute hinv hsection hinv' rfl hlog hpc hheld
  case complete first result hpc =>
    have hcons : first :: (σ.queues w).jobs = ahead ++ job :: behind := by
      rwa [Queue.held, hpc] at hheld
    cases ahead with
    -- the job in front was executed, and this one was not
    | nil =>
      obtain ⟨rfl, -⟩ := List.cons.inj hcons
      have hloc := (loc_of_held hinv hlog hmem).2
      rw [(hinv.completing first.slot w result).2 ⟨first, hpc, rfl⟩] at hloc
      cases hloc
    | cons first' ahead =>
      refine advances_of_held (w := w) hinv' (hlog' fun _ _ => by simp [hpc])
        (?_ : _ = ahead ++ job :: behind) (rank_lt.2 (by simp))
      rw [setSlot_queues, setQueue_queues_self]
      cases (σ.slots first.slot).onStack <;> exact (List.cons.inj hcons).2
  case wakeSlot s' hpc =>
    refine advances_of_held (w := w) hinv' (hlog' fun _ _ => by simp [hpc])
      (?_ : _ = ahead ++ job :: behind) ?_
    · rw [setSlot_queues, setQueue_queues_self, ← hheld]
      simp [Queue.held, hpc]
    · rw [rank_lt, setSlot_queues, setQueue_queues_self]
      simp [Queue.rank, hpc]
  case leave hpc =>
    refine advances_of_held (w := w) hinv' hlog (?_ : _ = ahead ++ job :: behind) ?_
    · rw [setQueue_queues_self, ← hheld]
      simp [Queue.held, hpc]
    · rw [rank_lt, setQueue_queues_self]
      simp [Queue.rank, hpc]

/-- The queue holds the job and is active. -/
theorem advances_queued (hactive : (σ.queues w).Active)
    (hreturns : Returns σ l) :
    Advances job.slot before task input (rank 1 ahead.length (σ.queues w).rank)
      (.queue w) l σ' := by
  have hmem : job ∈ (σ.queues w).held := by simp [hheld]
  by_cases hagent : l.agent = .queue w
  · exact advances_own hinv hnext hinv' hlog hheld hreturns hagent
  · obtain ⟨hpc, -, hsched⟩ := queue_frame hnext hagent
    obtain ⟨behind', hheld'⟩ := held_frame hnext hheld hagent
    have hlog' := log_of_held hinv hnext hlog hmem fun behaviour hl => by
      rw [hl] at hagent
      exact absurd rfl hagent
    have hactive' : (σ'.queues w).Active := by
      rcases hactive with hne | hdue
      · exact .inl (hpc ▸ hne)
      · exact .inr (hsched hdue)
    have hrank : (σ'.queues w).rank = (σ.queues w).rank := by
      rw [Queue.rank, Queue.rank, hpc]
      cases hidle : (σ.queues w).pc with
      | idle =>
        have hdue := hactive.resolve_left (not_not.2 hidle)
        rw [hdue, hsched hdue]
      | _ => rfl
    rw [← hrank]
    exact .inr (.inr ⟨hagent, .queued hinv' hlog' hheld' rfl hactive'⟩)

end

end

/-- The queue of the job is about to be woken. -/
theorem advances_unwoken {s' : ℕ} (hlog : (σ.slots s).log = before ++ [.received task input])
    (hheld : (σ.queues w).held = ahead ++ job :: behind) (hjob : job.slot = s)
    (hidle : ¬(σ.queues w).Active) (hpc : (σ.slots s').pc = .waking w task' rest) :
    Advances s before task input (rank 1 ahead.length 6) (.slot s') l σ' := by
  subst hjob
  obtain ⟨hqueue, hrank⟩ := Queue.rank_of_not_active hidle
  have hmem : job ∈ (σ.queues w).held := by simp [hheld]
  have hlog' := log_of_held hinv hnext hlog hmem fun _ _ => by simp [hqueue]
  have hagent : l.agent ≠ .queue w := by
    intro hagent
    obtain rfl := queue_section hnext hagent hqueue
    cases hnext with
    | rest _ hsched | take _ hsched => exact hidle (.inr hsched)
  obtain ⟨behind', hheld'⟩ := held_frame hnext hheld hagent
  obtain ⟨hqueue', -, -⟩ := queue_frame hnext hagent
  by_cases hactive : (σ'.queues w).Active
  · -- somebody has woken the queue
    refine .inr (.inl ⟨_, _, ?_, .queued hinv' hlog' hheld' rfl hactive⟩)
    have hdue := hactive.resolve_left (not_not.2 (hqueue'.trans hqueue))
    rw [rank_lt]
    simp [Queue.rank, hqueue', hqueue, hdue]
  · have hother : l.agent ≠ .slot s' := by
      intro hs
      obtain rfl := slot_section hnext hs hpc
      cases hnext with
      | wakeQueue hpc' =>
        cases hpc.symm.trans hpc'
        refine hactive (.inr ?_)
        rw [setSlot_queues, setQueue_queues_self]
    exact .inr (.inr ⟨hother, .unwoken hinv' hlog' hheld' rfl hactive
      ((slot_pc_frame hnext hother).trans hpc)⟩)

end Steps

/-! ### Every claimed task is answered -/

section Answered

variable {types : List ℕ} {σ σ' : State} {before : List Event} {task input : String}

theorem Helps.enabled (h : Helps s before task input r a σ) :
    (manager types).Enabled Returns Label.agent a σ := by
  cases h with
  | launching _ _ hpc | unwoken _ _ _ _ _ hpc => exact enabled_slot (.inl (by simp [hpc]))
  | queued hinv hlog hheld hjob hactive => exact enabled_queue hactive
  | completing hinv hlog hloc =>
    obtain ⟨job, hpc, -⟩ := (hinv.completing ..).1 hloc
    exact enabled_queue (.inl (by simp [hpc]))
  | waker hinv hlog hloc =>
    have hpc := (hinv.waker ..).1 hloc
    exact enabled_queue (.inl (by simp [hpc]))
  | resuming hinv hlog hloc =>
    have hat := hinv.slot s
    rw [hloc] at hat
    obtain ⟨-, hsched, -⟩ | ⟨_, _, hpc⟩ | ⟨_, _, _, hpc⟩ | ⟨-, _, _, ⟨_, hpc⟩ | hpc⟩ :=
      hat.of_executed hlog
    · exact enabled_slot (.inr hsched)
    all_goals exact enabled_slot (.inl (by simp [hpc]))
  | @submitted _ _ behaviour result hinv hyields hlog =>
    obtain ⟨-, -, ⟨-, hsched⟩ | ⟨rest, hpc⟩⟩ := (hinv.slot s).of_submitted
      (before ++ [.received task input, .executed input behaviour]) (by simpa using hlog)
    · exact enabled_slot (.inr hsched)
    · exact enabled_slot (.inl (by simp [hpc]))

theorem Helps.inv (h : Helps s before task input r a σ) : ∃ loc, Inv loc σ := by
  cases h <;> exact ⟨_, ‹_›⟩

theorem Helps.advances {l : Label} (htypes : types ≠ [])
    (h : Helps s before task input r a σ) (hreturns : Returns σ l)
    (hnext : Section types σ l σ') : Advances s before task input r a l σ' := by
  obtain ⟨loc, hinv⟩ := h.inv
  obtain ⟨loc', hinv'⟩ := hinv.next hreturns hnext
  cases h with
  | launching hinv hlog hpc => exact advances_launching hinv hnext hinv' hlog hpc
  | queued hinv hlog hheld hjob hactive =>
    subst hjob
    exact advances_queued hinv hnext hinv' hlog hheld hactive hreturns
  | unwoken hinv hlog hheld hjob hidle hpc =>
    exact advances_unwoken hinv hnext hinv' hlog hheld hjob hidle hpc
  | completing hinv hlog hloc => exact advances_completing hinv hnext hinv' hlog hloc
  | waker hinv hlog hloc => exact advances_waker hinv hnext hinv' hlog hloc
  | resuming hinv hlog hloc => exact advances_resuming hinv hnext hinv' hlog hloc
  | submitted hinv hyields hlog => exact advances_submitted hinv hnext hinv' htypes hyields hlog

/-- A task that was received is with its slot or in a queue, and somebody helps it. -/
theorem exists_helps_of_received {loc : ℕ → Loc} (hinv : Inv loc σ)
    (hlog : (σ.slots s).log = before ++ [.received task input]) :
    ∃ r a, Helps s before task input r a σ := by
  have hat := hinv.slot s
  generalize hloc : loc s = place at hat
  cases hat with
  | ready _ _ hclosed | scanning _ _ _ hclosed =>
    exact absurd (hlog ▸ hclosed) not_closed_received
  | submitting _ _ _ hdone | answering _ _ _ hdone | landed _ _ hdone | woken _ _ _ hdone
  | completing _ _ hdone | waker _ _ hdone => exact absurd (hlog ▸ hdone) not_done_received
  | launching _ hpc _ _ hopen =>
    obtain ⟨front, -, heq⟩ := hopen
    rw [hlog] at heq
    have hlast := append_inj_right' heq rfl
    simp only [List.cons.injEq, Event.received.injEq] at hlast
    obtain ⟨⟨htask, rfl⟩, -⟩ := hlast
    rw [← htask] at hpc
    exact ⟨_, _, .launching hinv hlog hpc⟩
  | @queued _ w _ _ _ _ =>
    obtain ⟨job, hjob, hs⟩ := hinv.queued s w hloc
    have hmem : job ∈ (σ.queues w).held := by
      unfold Queue.waiting at hjob
      unfold Queue.held
      split at hjob
      · rename_i hpc
        simpa [hpc] using hjob
      · split
        · exact .tail _ hjob
        · exact .tail _ hjob
        · exact hjob
    obtain ⟨ahead, behind, hheld⟩ := append_of_mem hmem
    obtain ⟨a, hhelps⟩ := exists_helps_of_held hinv hlog hheld hs
    exact ⟨_, a, hhelps⟩

/-- A slot that has nothing to poll. -/
def Slot.Unused (slot : Slot) : Prop :=
  slot.log = [] ∧ slot.phase = .polling ∧ (slot.pc = .idle ∨ slot.pc = .scanning [])

/-- Nothing was polled and nothing was pushed. -/
structure Unused (σ : State) : Prop where
  slot : ∀ s, (σ.slots s).Unused
  queue : ∀ w, (σ.queues w).pc = .idle ∧ (σ.queues w).jobs = []

theorem Unused.setSlot (h : Unused σ) {slot : Slot} (hslot : slot.Unused) :
    Unused (σ.setSlot s slot) where
  slot := by
    intro s'
    by_cases hs : s' = s
    · subst hs
      rwa [setSlot_slots_self]
    · rw [setSlot_slots_of_ne hs]
      exact h.slot s'
  queue := h.queue

/-- Without workers only empty ticks are made. -/
theorem Unused.next {l : Label} (h : Unused σ) (hnext : Section [] σ l σ') : Unused σ' := by
  cases hnext with
  | @resume s _ _ hphase =>
    rw [(h.slot s).2.1] at hphase
    cases hphase
  | @scan s => exact h.setSlot ⟨(h.slot s).1, (h.slot s).2.1, .inr rfl⟩
  | @restTick s => exact h.setSlot ⟨(h.slot s).1, (h.slot s).2.1, .inl rfl⟩
  | @rest w =>
    exact ⟨h.slot, forall_setQueue (p := fun _ q => q.pc = .idle ∧ q.jobs = []) (h.queue w) h.queue⟩
  | @take w _ _ _ _ hjobs =>
    rw [(h.queue w).2] at hjobs
    cases hjobs
  | @execute w _ _ _ hpc | @complete w _ _ hpc | @wakeSlot w _ hpc | @leave w hpc =>
    rw [(h.queue w).1] at hpc
    cases hpc
  -- the other sections of a slot are behind a poll
  | @submit s _ _ hpc | @pass s _ _ hpc | @receive s _ _ _ _ hpc | @launch s _ _ _ _ hpc
  | @wakeQueue s _ _ _ hpc | @land s _ _ hpc | @park s _ _ hpc | @answer s _ _ _ hpc =>
    simpa [hpc] using (h.slot s).2.2

theorem types_ne_nil (h : (manager types).Run Returns (initial n) σ)
    (hlog : (σ.slots s).log ≠ []) : types ≠ [] := by
  rintro rfl
  have hunused : Unused σ :=
    h.invariant ⟨fun _ => ⟨rfl, rfl, .inl rfl⟩, fun _ => ⟨rfl, rfl⟩⟩
      fun _ _ _ hunused _ hnext => hunused.next (.of_next hnext)
  exact hlog (hunused.slot s).1

/-- Under fair scheduling a task that was received is answered, and the slot polls again. -/
theorem answered_of_received {k : ℕ} {e : (manager types).Execution Returns}
    (hinit : e.state 0 = initial n) (hfair : e.Fair Label.agent)
    (hlog : ((e.state k).slots s).log = before ++ [.received task input]) :
    ∃ m ≥ k, AnsweredIn before task input ((e.state m).slots s).log := by
  have hrun : (manager types).Run Returns (initial n) (e.state k) := hinit ▸ e.run k
  have hne : ((e.state k).slots s).log ≠ [] := by simp [hlog]
  have htypes : types ≠ [] := types_ne_nil hrun hne
  obtain ⟨loc, hinv⟩ := exists_inv hrun
  obtain ⟨r, a, hhelps⟩ := exists_helps_of_received hinv hlog
  have hleads := System.Execution.leadsTo hfair (fun _ _ _ h => Helps.enabled h)
    (fun _ _ _ _ _ h hreturns hnext => Helps.advances htypes h hreturns (.of_next hnext)) hhelps
  exact hleads

end Answered

/-- **Every claimed task is answered**, in every run in which no `execute()` throws. In every
state reached, the log of a slot consists of polls and of tasks that were each executed and
submitted once, under their own id and with the outcome of their own execution, up to one
task that is still under way; and when the queues are empty and at rest, no slot is left in
phase `AWAITING`. In every fair execution a task that was received is answered, and the slot
polls again after that. -/
theorem claimed_tasks_answered (types : List ℕ) (n : ℕ) :
    (∀ σ, (manager types).Run Returns (initial n) σ →
      (∀ s, Closed (σ.slots s).log ∨ (∃ task input, Open (σ.slots s).log task input) ∨
        ∃ task result, Done (σ.slots s).log task result) ∧
      ((∀ w, (σ.queues w).jobs = [] ∧ (σ.queues w).pc = .idle) →
        ∀ s, (σ.slots s).pc = .idle → (σ.slots s).phase ≠ .awaiting)) ∧
    ∀ e : (manager types).Execution Returns, e.state 0 = initial n → e.Fair Label.agent →
      ∀ k s before task input, ((e.state k).slots s).log = before ++ [.received task input] →
        ∃ m ≥ k, AnsweredIn before task input ((e.state m).slots s).log := by
  refine ⟨fun σ hrun => ?_, fun e hinit hfair k s before task input hlog =>
    answered_of_received hinit hfair hlog⟩
  obtain ⟨loc, hinv⟩ := exists_inv hrun
  refine ⟨fun s => ?_, fun hempty s hpc hphase => ?_⟩
  · exact (hinv.slot s).log_cases
  · obtain ⟨w, hloc | ⟨result, hloc⟩⟩ := (hinv.slot s).of_awaiting hpc hphase
    · obtain ⟨job, hjob, -⟩ := hinv.queued s w hloc
      simp [Queue.waiting, hempty w] at hjob
    · obtain ⟨job, hjob, -⟩ := (hinv.completing s w result).1 hloc
      rw [(hempty w).2] at hjob
      cases hjob

/-- A slot receives a task. -/
def receiving (task input : String) : List Label := [.beginTick 0, .poll 0 (some (task, input))]

/-- The task is executed and answered, and the slot polls again. -/
def answering (output : Output) : List Label :=
  [.launch 0, .wakeQueue 0, .settle 0, .take 0, .execute 0 (.returned (.ok output)), .complete 0,
    .wakeSlot 0, .beginTick 0, .submit 0, .beginTick 0, .poll 0 none]

theorem claimed_tasks_answered_round : (∃ σ, (manager [0]).Run Returns (initial 1) σ ∧
      (σ.slots 0).log = [.polled, .received "7" "x", .executed "x" (.returned (.ok [("y", "z")])),
        .submitted "7" (true, [("y", "z")]), .polled] ∧
      (Closed (σ.slots 0).log ∨ (∃ task input, Open (σ.slots 0).log task input) ∨
        ∃ task result, Done (σ.slots 0).log task result)) ∧
    ∃ e : (manager [0]).Execution Returns, e.state 0 = initial 1 ∧ e.Fair Label.agent ∧
      (∃ k, ((e.state k).slots 0).log = [.polled] ++ [.received "7" "x"]) ∧
      ∃ m, AnsweredIn [.polled] "7" "x" ((e.state m).slots 0).log := by
  constructor
  · have hplay : (manager [0]).play (receiving "7" "x" ++ answering [("y", "z")]) (initial 1) =
        some _ := rfl
    have hrun := System.Run.of_play_of_forall (fun l hl σ => show Returns σ l by
      fin_cases hl <;> simp [Returns]) hplay
    exact ⟨_, hrun, rfl, ((claimed_tasks_answered [0] 1).1 _ hrun).1 0⟩
  · have hplay : (manager [0]).play (receiving "7" "x") (initial 1) = some _ := rfl
    have hrun := System.Run.of_play_of_forall (fun l hl σ => show Returns σ l by
      fin_cases hl <;> simp [Returns]) hplay
    have : Nonempty Agent := ⟨.slot 0⟩
    obtain ⟨e, hinit, hfair, k, hk⟩ := hrun.exists_fair Label.agent
    have hlog : ((e.state k).slots 0).log = [.polled] ++ [.received "7" "x"] := by
      rw [hk]
      rfl
    obtain ⟨m, -, hm⟩ := (claimed_tasks_answered [0] 1).2 e hinit hfair k 0 _ _ _ hlog
    exact ⟨e, hinit, hfair, ⟨k, hlog⟩, m, hm⟩

/-- A state in which no contract is scheduled and none is in a tick is final. -/
theorem next_eq_none {types : List ℕ} {σ : State}
    (hslot : ∀ s, (σ.slots s).pc = .idle ∧ (σ.slots s).scheduled = false)
    (hqueue : ∀ w, (σ.queues w).pc = .idle ∧ (σ.queues w).scheduled = false) (l : Label) :
    (manager types).next l σ = none := by
  by_contra hne
  obtain ⟨σ', hnext⟩ := Option.ne_none_iff_exists'.1 hne
  cases Section.of_next hnext <;> simp_all

/-- An `execute()` that throws: the queue swallows the exception, the task is never
answered, and the slot awaits its result forever. -/
theorem thrown_task_is_lost :
    ∃ σ, (manager [0]).Run System.Any (initial 1) σ ∧
      (σ.slots 0).log = [.polled, .received "7" "x", .executed "x" .threwOther] ∧
      (σ.slots 0).phase = .awaiting ∧
      (∀ w, (σ.queues w).jobs = [] ∧ (σ.queues w).pc = .idle) ∧
      ∀ l, (manager [0]).next l σ = none := by
  have hplay : (manager [0]).play (receiving "7" "x" ++ [.launch 0, .wakeQueue 0, .settle 0,
      .take 0, .execute 0 .threwOther, .leave 0, .take 0]) (initial 1) = some _ := rfl
  refine ⟨_, System.Run.of_play hplay, rfl, rfl, fun w => ?_,
    next_eq_none (fun s => ?_) fun w => ?_⟩
  · cases w <;> exact ⟨rfl, rfl⟩
  · cases s <;> exact ⟨rfl, rfl⟩
  · cases w <;> exact ⟨rfl, rfl⟩

end Congelado.Worker
