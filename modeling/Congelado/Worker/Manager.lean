import Congelado.Lib.Transition

/-!
# The external worker manager

A slot of `ExternalWorkerManager` polls the engine for tasks, hands a task to the worker of
its type and waits for the outcome. The worker runs on a contract of its own: its
`TaskQueue` takes one job at a time. The two sides meet in three places, each under a
mutex: `push` puts a job into a queue, the completion puts a result into a slot, and the
slot looks for a result after it has handed out its task and at the start of a tick.

Every stretch of code between two such places is a transition here, so a tick of a slot
and a tick of a queue interleave wherever two threads can. A contract is scheduled or not,
and runs at most one tick at a time; `schedule()` makes a later tick run.

The engine's answers and the behaviour of `execute()` are chosen by the environment. Every
slot keeps, as a ghost, the log of what happened to it: its polls, the tasks it received,
the executions of its jobs, and the results it submitted.
-/

namespace Congelado.Worker

open Transition

/-! ### Data -/

/-- A flat output. -/
abbrev Output := List (String × String)

/-- `interfaces::WorkerResult`: an output or the message of an error. -/
abbrev WorkerResult := Except String Output

/-- What a call of `execute()` does. -/
inductive Behaviour
  | returned (result : WorkerResult)
  | threwException (what : String)
  | threwOther
  deriving DecidableEq

/-- What the completion stores in the slot: `has_value()`, and the output or the error. -/
def resultOf : WorkerResult → Bool × Output
  | .ok output => (true, output)
  | .error message => (false, [("error", message)])

/-- A submitted result is the outcome of an execution: what it returned, or a failure if it
threw. -/
def Behaviour.Yields : Behaviour → Bool × Output → Prop
  | .returned result, r => r = resultOf result
  | .threwException _, r | .threwOther, r => r.1 = false

inductive SlotPhase
  | polling
  | awaiting
  | resuming
  deriving DecidableEq

/-- What happened to a slot. -/
inductive Event
  | polled
  | received (task input : String)
  | executed (input : String) (behaviour : Behaviour)
  | submitted (task : String) (result : Bool × Output)
  deriving DecidableEq

/-- Where the tick of a slot stands; `idle` is outside of one. The `rest` are the task types
that the loop has yet to poll. -/
inductive SlotPc
  | idle
  | submitting (task : String) (result : Bool × Output)
  | scanning (rest : List ℕ)
  | launching (worker : ℕ) (task input : String) (rest : List ℕ)
  | waking (worker : ℕ) (task : String) (rest : List ℕ)
  | returning (task : String) (rest : List ℕ)
  | answering (task : String) (result : Bool × Output) (rest : List ℕ)
  deriving DecidableEq

/-- `PollSlot`, with its contract and its log. -/
structure Slot where
  phase : SlotPhase := .polling
  onStack : Bool := false
  success : Bool := false
  taskId : String := ""
  output : Output := []
  scheduled : Bool := false
  pc : SlotPc := .idle
  log : List Event := []

/-- A job captures the slot to which its completion reports, and its input. -/
structure Job where
  slot : ℕ
  input : String
  deriving DecidableEq

/-- Where the tick of a queue stands; `idle` is outside of one. -/
inductive QueuePc
  | idle
  | executing (job : Job)
  | completing (job : Job) (result : Bool × Output)
  | waking (slot : ℕ)
  | leaving
  deriving DecidableEq

/-- `TaskQueue`, with its contract. -/
structure Queue where
  jobs : List Job := []
  running : Bool := false
  scheduled : Bool := false
  pc : QueuePc := .idle

/-- The slots, and the queue of each registered task type. -/
structure State where
  slots : ℕ → Slot
  queues : ℕ → Queue

namespace State

def setSlot (s : ℕ) (slot : Slot) (σ : State) : State :=
  { σ with slots := Function.update σ.slots s slot }

def setQueue (w : ℕ) (queue : Queue) (σ : State) : State :=
  { σ with queues := Function.update σ.queues w queue }

end State

/-! ### The sections of a slot's tick -/

/-- The contract is claimed, and the first section looks for a result that has landed. -/
def beginTick (types : List ℕ) (s : ℕ) (σ : State) : Option State :=
  let slot := σ.slots s
  if slot.pc = .idle ∧ slot.scheduled = true then
    if slot.phase = .resuming then
      some <| σ.setSlot s { slot with
        scheduled := false
        phase := .polling
        output := []
        pc := .submitting slot.taskId (slot.success, slot.output) }
    else some <| σ.setSlot s { slot with scheduled := false, pc := .scanning types }
  else none

/-- `submit_result` of a result that had landed; the tick ends and schedules another. -/
def submit (s : ℕ) (σ : State) : Option State :=
  let slot := σ.slots s
  match slot.pc with
  | .submitting task result =>
    some <| σ.setSlot s { slot with
      scheduled := true, pc := .idle, log := slot.log ++ [.submitted task result] }
  | _ => none

/-- One round of the loop up to `run_task_async`: the engine has no task, or an answer that
is passed over, or it hands out a task with its input. -/
def poll (s : ℕ) (response : Option (String × String)) (σ : State) : Option State :=
  let slot := σ.slots s
  match slot.pc with
  | .scanning (w :: rest) =>
    match response with
    | none => some <| σ.setSlot s { slot with
        pc := .scanning rest, log := slot.log ++ [.polled] }
    | some (task, input) => some <| σ.setSlot s { slot with
        phase := .awaiting
        taskId := task
        onStack := true
        pc := .launching w task input rest
        log := slot.log ++ [.polled, .received task input] }
  | _ => none

/-- `run_task_async` and `execute_async` up to the section of `push`. The types that are
polled are those of the registered workers, so the worker is found. -/
def launch (s : ℕ) (σ : State) : Option State :=
  let slot := σ.slots s
  match slot.pc with
  | .launching w task input rest =>
    let queue := σ.queues w
    some <| (σ.setQueue w { queue with jobs := queue.jobs ++ [⟨s, input⟩] }).setSlot s
      { slot with pc := if !queue.running then .waking w task rest else .returning task rest }
  | _ => none

/-- The end of `push`: `wake()`. -/
def wakeQueue (s : ℕ) (σ : State) : Option State :=
  let slot := σ.slots s
  match slot.pc with
  | .waking w task rest =>
    some <| (σ.setQueue w { σ.queues w with scheduled := true }).setSlot s
      { slot with pc := .returning task rest }
  | _ => none

/-- The section after `run_task_async`: a result that has landed meanwhile is handled inline,
otherwise the slot is parked. -/
def settle (s : ℕ) (σ : State) : Option State :=
  let slot := σ.slots s
  match slot.pc with
  | .returning task rest =>
    if slot.phase = .resuming then
      some <| σ.setSlot s { slot with
        onStack := false
        phase := .polling
        output := []
        pc := .answering task (slot.success, slot.output) rest }
    else some <| σ.setSlot s { slot with onStack := false, pc := .idle }
  | _ => none

/-- `submit_result` of a result that was handled inline; the loop goes on. -/
def answer (s : ℕ) (σ : State) : Option State :=
  let slot := σ.slots s
  match slot.pc with
  | .answering task result rest =>
    some <| σ.setSlot s { slot with
      pc := .scanning rest, log := slot.log ++ [.submitted task result] }
  | _ => none

/-- The end of a tick that has polled every type: sleep, and schedule another. -/
def restTick (s : ℕ) (σ : State) : Option State :=
  let slot := σ.slots s
  match slot.pc with
  | .scanning [] => some <| σ.setSlot s { slot with scheduled := true, pc := .idle }
  | _ => none

/-! ### The sections of a queue's tick -/

/-- The contract is claimed, and the section of `on_execute` takes a job or parks. -/
def take (w : ℕ) (σ : State) : Option State :=
  let queue := σ.queues w
  if queue.pc = .idle ∧ queue.scheduled = true then
    match queue.jobs with
    | [] => some <| σ.setQueue w { queue with scheduled := false, running := false }
    | job :: jobs => some <| σ.setQueue w { queue with
        scheduled := false, jobs := jobs, running := true, pc := .executing job }
  else none

/-- The default `run()`: what `execute()` returned goes to the completion; what it threw is
caught by the queue, which goes on. -/
def execute (w : ℕ) (behaviour : Behaviour) (σ : State) : Option State :=
  let queue := σ.queues w
  match queue.pc with
  | .executing job =>
    let slot := σ.slots job.slot
    let σ := σ.setSlot job.slot
      { slot with log := slot.log ++ [.executed job.input behaviour] }
    match behaviour with
    | .returned result =>
      some <| σ.setQueue w { queue with pc := .completing job (resultOf result) }
    | .threwException _ | .threwOther => some <| σ.setQueue w { queue with pc := .leaving }
  | _ => none

/-- The section of the completion. -/
def complete (w : ℕ) (σ : State) : Option State :=
  let queue := σ.queues w
  match queue.pc with
  | .completing job result =>
    let slot := σ.slots job.slot
    let needWake := !slot.onStack
    some <| (σ.setSlot job.slot { slot with
        success := result.1, output := result.2, phase := .resuming }).setQueue w
      { queue with pc := if needWake then .waking job.slot else .leaving }
  | _ => none

/-- The end of the completion: `wake()`. -/
def wakeSlot (w : ℕ) (σ : State) : Option State :=
  let queue := σ.queues w
  match queue.pc with
  | .waking s =>
    some <| (σ.setSlot s { σ.slots s with scheduled := true }).setQueue w
      { queue with pc := .leaving }
  | _ => none

/-- The end of a tick that took a job: schedule another. -/
def leave (w : ℕ) (σ : State) : Option State :=
  let queue := σ.queues w
  match queue.pc with
  | .leaving => some <| σ.setQueue w { queue with scheduled := true, pc := .idle }
  | _ => none

/-! ### The system -/

inductive Label
  | beginTick (slot : ℕ)
  | submit (slot : ℕ)
  | poll (slot : ℕ) (response : Option (String × String))
  | launch (slot : ℕ)
  | wakeQueue (slot : ℕ)
  | settle (slot : ℕ)
  | answer (slot : ℕ)
  | restTick (slot : ℕ)
  | take (worker : ℕ)
  | execute (worker : ℕ) (behaviour : Behaviour)
  | complete (worker : ℕ)
  | wakeSlot (worker : ℕ)
  | leave (worker : ℕ)
  deriving DecidableEq

/-- The contract whose tick a section belongs to. -/
inductive Agent
  | slot (s : ℕ)
  | queue (w : ℕ)
  deriving DecidableEq, Countable

def Label.agent : Label → Agent
  | .beginTick s | .submit s | .poll s _ | .launch s | .wakeQueue s | .settle s | .answer s
  | .restTick s => .slot s
  | .take w | .execute w _ | .complete w | .wakeSlot w | .leave w => .queue w

/-- The manager with the workers of `types` under every interleaving. -/
def manager (types : List ℕ) : System State Label where
  next
    | .beginTick s => beginTick types s
    | .submit s => submit s
    | .poll s response => poll s response
    | .launch s => launch s
    | .wakeQueue s => wakeQueue s
    | .settle s => settle s
    | .answer s => answer s
    | .restTick s => restTick s
    | .take w => take w
    | .execute w behaviour => execute w behaviour
    | .complete w => complete w
    | .wakeSlot w => wakeSlot w
    | .leave w => leave w

/-- The host has registered and scheduled the first `n` slots. -/
def initial (n : ℕ) : State where
  slots := fun s => { scheduled := s < n }
  queues := fun _ => {}

/-! ### What a section does -/

/-- A section of the manager, by the state in which it is made and what it leaves. -/
inductive Section (types : List ℕ) (σ : State) : Label → State → Prop
  | resume {s} (hpc : (σ.slots s).pc = .idle) (hsched : (σ.slots s).scheduled = true)
      (hphase : (σ.slots s).phase = .resuming) :
      Section types σ (.beginTick s) (σ.setSlot s { σ.slots s with
        scheduled := false
        phase := .polling
        output := []
        pc := .submitting (σ.slots s).taskId ((σ.slots s).success, (σ.slots s).output) })
  | scan {s} (hpc : (σ.slots s).pc = .idle) (hsched : (σ.slots s).scheduled = true)
      (hphase : (σ.slots s).phase ≠ .resuming) :
      Section types σ (.beginTick s) (σ.setSlot s { σ.slots s with
        scheduled := false, pc := .scanning types })
  | submit {s task result} (hpc : (σ.slots s).pc = .submitting task result) :
      Section types σ (.submit s) (σ.setSlot s { σ.slots s with
        scheduled := true, pc := .idle, log := (σ.slots s).log ++ [.submitted task result] })
  | pass {s w rest} (hpc : (σ.slots s).pc = .scanning (w :: rest)) :
      Section types σ (.poll s none) (σ.setSlot s { σ.slots s with
        pc := .scanning rest, log := (σ.slots s).log ++ [.polled] })
  | receive {s w rest task input} (hpc : (σ.slots s).pc = .scanning (w :: rest)) :
      Section types σ (.poll s (some (task, input))) (σ.setSlot s { σ.slots s with
        phase := .awaiting
        taskId := task
        onStack := true
        pc := .launching w task input rest
        log := (σ.slots s).log ++ [.polled, .received task input] })
  | launch {s w task input rest} (hpc : (σ.slots s).pc = .launching w task input rest) :
      Section types σ (.launch s) ((σ.setQueue w { σ.queues w with
          jobs := (σ.queues w).jobs ++ [⟨s, input⟩] }).setSlot s { σ.slots s with
        pc := if !(σ.queues w).running then .waking w task rest else .returning task rest })
  | wakeQueue {s w task rest} (hpc : (σ.slots s).pc = .waking w task rest) :
      Section types σ (.wakeQueue s) ((σ.setQueue w { σ.queues w with scheduled := true }).setSlot s
        { σ.slots s with pc := .returning task rest })
  | land {s task rest} (hpc : (σ.slots s).pc = .returning task rest)
      (hphase : (σ.slots s).phase = .resuming) :
      Section types σ (.settle s) (σ.setSlot s { σ.slots s with
        onStack := false
        phase := .polling
        output := []
        pc := .answering task ((σ.slots s).success, (σ.slots s).output) rest })
  | park {s task rest} (hpc : (σ.slots s).pc = .returning task rest)
      (hphase : (σ.slots s).phase ≠ .resuming) :
      Section types σ (.settle s) (σ.setSlot s { σ.slots s with onStack := false, pc := .idle })
  | answer {s task result rest} (hpc : (σ.slots s).pc = .answering task result rest) :
      Section types σ (.answer s) (σ.setSlot s { σ.slots s with
        pc := .scanning rest, log := (σ.slots s).log ++ [.submitted task result] })
  | restTick {s} (hpc : (σ.slots s).pc = .scanning []) :
      Section types σ (.restTick s) (σ.setSlot s { σ.slots s with scheduled := true, pc := .idle })
  | rest {w} (hpc : (σ.queues w).pc = .idle) (hsched : (σ.queues w).scheduled = true)
      (hjobs : (σ.queues w).jobs = []) :
      Section types σ (.take w) (σ.setQueue w { σ.queues w with
        scheduled := false, running := false })
  | take {w job jobs} (hpc : (σ.queues w).pc = .idle)
      (hsched : (σ.queues w).scheduled = true) (hjobs : (σ.queues w).jobs = job :: jobs) :
      Section types σ (.take w) (σ.setQueue w { σ.queues w with
        scheduled := false, jobs := jobs, running := true, pc := .executing job })
  | execute {w job behaviour pc} (hpc : (σ.queues w).pc = .executing job)
      (hreturned : ∀ result, behaviour = .returned result →
        pc = .completing job (resultOf result)) :
      Section types σ (.execute w behaviour) ((σ.setQueue w { σ.queues w with pc := pc }).setSlot
        job.slot { σ.slots job.slot with
          log := (σ.slots job.slot).log ++ [.executed job.input behaviour] })
  | complete {w job result} (hpc : (σ.queues w).pc = .completing job result) :
      Section types σ (.complete w) ((σ.setQueue w { σ.queues w with
          pc := if !(σ.slots job.slot).onStack then .waking job.slot else .leaving }).setSlot
        job.slot { σ.slots job.slot with
          success := result.1, output := result.2, phase := .resuming })
  | wakeSlot {w s} (hpc : (σ.queues w).pc = .waking s) :
      Section types σ (.wakeSlot w) ((σ.setQueue w { σ.queues w with pc := .leaving }).setSlot s
        { σ.slots s with scheduled := true })
  | leave {w} (hpc : (σ.queues w).pc = .leaving) :
      Section types σ (.leave w) (σ.setQueue w { σ.queues w with scheduled := true, pc := .idle })

theorem Section.of_next {types : List ℕ} {σ σ' : State} {l : Label}
    (h : (manager types).next l σ = some σ') : Section types σ l σ' := by
  cases l with
  | beginTick s =>
    simp only [manager, Worker.beginTick] at h
    split_ifs at h with hdue hphase
    · exact Option.some.inj h ▸ .resume hdue.1 hdue.2 hphase
    · exact Option.some.inj h ▸ .scan hdue.1 hdue.2 hphase
  | submit s =>
    simp only [manager, Worker.submit] at h
    split at h <;> cases h
    exact .submit ‹_›
  | poll s response =>
    simp only [manager, Worker.poll] at h
    split at h
    · split at h <;> cases h
      · exact .pass ‹_›
      · exact .receive ‹_›
    · cases h
  | launch s =>
    simp only [manager, Worker.launch] at h
    split at h <;> cases h
    exact .launch ‹_›
  | wakeQueue s =>
    simp only [manager, Worker.wakeQueue] at h
    split at h <;> cases h
    exact .wakeQueue ‹_›
  | settle s =>
    simp only [manager, Worker.settle] at h
    split at h
    · split_ifs at h with hphase <;> cases h
      · exact .land ‹_› hphase
      · exact .park ‹_› hphase
    · cases h
  | answer s =>
    simp only [manager, Worker.answer] at h
    split at h <;> cases h
    exact .answer ‹_›
  | restTick s =>
    simp only [manager, Worker.restTick] at h
    split at h <;> cases h
    exact .restTick ‹_›
  | take w =>
    simp only [manager, Worker.take] at h
    split_ifs at h with hdue
    split at h <;> cases h
    · exact .rest hdue.1 hdue.2 ‹_›
    · exact .take hdue.1 hdue.2 ‹_›
  | execute w behaviour =>
    simp only [manager, Worker.execute] at h
    split at h
    · split at h <;> cases h
      · exact .execute ‹_› fun _ heq => by rw [Behaviour.returned.inj heq]
      · exact .execute ‹_› nofun
      · exact .execute ‹_› nofun
    · cases h
  | complete w =>
    simp only [manager, Worker.complete] at h
    split at h <;> cases h
    exact .complete ‹_›
  | wakeSlot w =>
    simp only [manager, Worker.wakeSlot] at h
    split at h <;> cases h
    exact .wakeSlot ‹_›
  | leave w =>
    simp only [manager, Worker.leave] at h
    split at h <;> cases h
    exact .leave ‹_›

end Congelado.Worker
