import Congelado.Workflow.SystemTask
import Congelado.Lib.Callback

/-!
# Connector operations and their callbacks

The orchestrator is written in continuation-passing style over the `Connector`:
every read and write takes a callback, a lambda that captures what the rest of
the operation needs. Here each lambda is a constructor whose arguments are the
captured values, so a pending operation is a value (`Op`) and not a closure.

Two kinds of continuation nest. `Done` is what `advance` calls with the advanced
execution, and `StartCallback` is what `start` calls with the execution it
created; a `START_WORKFLOW` or `SUB_WORKFLOW` node suspends the execution it
belongs to, with its own `Done`, inside the `StartCallback` of the child.

`World` is the content of the store the operations read and write, together with
the supply of identifiers, the clock, the state of the Lua interpreter and the
history of what happened. The history is written and never read.
-/

namespace Congelado

/-- Whoever made a public call and waits for its answer. -/
abbrev Caller := ℕ

/-! ### Continuations -/

mutual

/-- The `done` argument of `advance`. -/
inductive Done
  /-- `start`: insert the new execution, then answer the start. -/
  | insertExec (callback : StartCallback)
  /-- `sweep_advance` and `process_terminal`: update the execution. -/
  | updateExec
  /-- `resume`, `retry`, `restart`, `rerun`, `reconcile`: update and answer. -/
  | updateExecThen (caller : Caller)

/-- The `callback` argument of `start`. -/
inductive StartCallback
  /-- a public `start_workflow` call -/
  | caller (caller : Caller)
  /-- an event action or a failure workflow: nobody waits -/
  | ignore
  /-- a `START_WORKFLOW` node of `exec` -/
  | startWorkflow (exec : WorkflowExecution) (wdef : WorkflowDef) (refName : String)
      (resolvedDefName : String) (done : Done)
  /-- a `SUB_WORKFLOW` node of `exec`, with the references still to be spawned -/
  | subWorkflow (exec : WorkflowExecution) (wdef : WorkflowDef) (refs : List String)
      (refName : String) (resolvedDefName : String) (done : Done)

end

/-- What a callback of `find<WorkflowDef>` goes on with. -/
inductive DefCallback
  | start (vars : StringMap) (parentExecId : Option Uuid) (callback : StartCallback)
  | onExecutionTerminal (execId : Uuid) (status : WorkflowStatus)
  | onTaskTerminal (inst : TaskInstance) (exec : WorkflowExecution)
  | sweepAdvance (exec : WorkflowExecution)
  | resume (exec : WorkflowExecution) (caller : Caller)
  | retry (exec : WorkflowExecution) (caller : Caller)
  | restart (exec : WorkflowExecution) (caller : Caller)
  | rerun (exec : WorkflowExecution) (nodeRef : String) (input : Value) (caller : Caller)
  | reconcile (exec : WorkflowExecution) (caller : Caller)
  | handleTimeout (inst : TaskInstance) (exec : WorkflowExecution) (retry : RetryPolicy)
      (retryAction : Bool)

/-- What a callback of `find<TaskDef>` goes on with. -/
inductive TaskDefCallback
  | spawnNext (exec : WorkflowExecution) (wdef : WorkflowDef) (refs : List String)
      (input : StringMap) (refName : String) (defName : String) (done : Done)
  | dynamic (exec : WorkflowExecution) (wdef : WorkflowDef) (refs : List String)
      (input : StringMap) (refName : String) (defName : String) (done : Done)
  | processTerminal (inst : TaskInstance) (exec : WorkflowExecution) (wdef : WorkflowDef)
  | handleTimeout (inst : TaskInstance)
  | claim (claimed : TaskInstance) (caller : Caller)

/-- What a callback of `find<WorkflowExecution>` goes on with. -/
inductive ExecCallback
  | onTaskTerminal (inst : TaskInstance)
  | pause (caller : Caller)
  | resume (caller : Caller)
  | retry (caller : Caller)
  | restart (caller : Caller)
  | rerun (nodeRef : String) (input : Value) (caller : Caller)
  | signal (nodeRef : String) (payload : Option String) (caller : Caller)
  | completeInstanceByRef (nodeRef : String) (status : TaskStatus) (output : StringMap)
  | terminate (caller : Caller)
  | reconcile (caller : Caller)
  | eventTerminate (status : WorkflowStatus)
  | eventUpdateVariables (updates : StringMap)
  | handleTimeout (inst : TaskInstance) (retry : RetryPolicy) (retryAction : Bool)

/-- What a callback of `find<TaskInstance>` goes on with. -/
inductive InstanceCallback
  | onTaskTerminal (caller : Option Caller)
  | submitResult (result : TaskResult) (output : StringMap) (caller : Caller)

/-- What a callback of `find_all<TaskInstance>` goes on with. -/
inductive InstancesCallback
  | onExecutionTerminal (child : WorkflowExecution)
  | sweepTimeouts (now : Time)
  | sweepRetries (now : Time)
  | requeue (names : List String) (caller : Caller)

/-- What the callback of a written execution does. -/
inductive ExecWritten
  /-- `log_on_failure` -/
  | log
  | answer (caller : Caller)
  | terminate (toFinish : WorkflowExecution) (caller : Caller)

/-- What the callback of a written task instance does. -/
inductive InstanceWritten
  /-- `log_on_failure` -/
  | log
  | submitResult (caller : Caller)
  | claim (caller : Caller)

/-- A `Connector` operation with its callback. -/
inductive Op
  | findDef (name : String) (callback : DefCallback)
  | findTaskDef (name : String) (callback : TaskDefCallback)
  | findExec (key : String) (callback : ExecCallback)
  | findInstance (key : String) (callback : InstanceCallback)
  /-- `find_first` of `claim` -/
  | findFirst (workerType : String) (domain : Option String) (caller : Caller)
  /-- `find_all<WorkflowExecution>` of `sweep_advance` -/
  | findAllExecs
  | findAllInstances (callback : InstancesCallback)
  /-- `find_all<TaskDef>` of `requeue` -/
  | findAllTaskDefs (workerType : String) (caller : Caller)
  /-- `find_all<EventHandler>` of `publish_event` -/
  | findAllHandlers (eventName : String) (payload : StringMap)
  | insertExec (exec : WorkflowExecution) (callback : StartCallback)
  | updateExec (exec : WorkflowExecution) (callback : ExecWritten)
  | insertInstance (inst : TaskInstance)
  | updateInstance (inst : TaskInstance) (callback : InstanceWritten)

/-! ### Moved names -/

/-- Whether the lambda of a `find<WorkflowDef>` takes with it, by a move, the object
that the key is a view into. -/
def DefCallback.moves : DefCallback → Bool
  | .start _ _ _ | .onExecutionTerminal _ _ | .sweepAdvance _ => false
  | .onTaskTerminal _ _ | .resume _ _ | .retry _ _ | .restart _ _ | .rerun _ _ _ _
  | .reconcile _ _ | .handleTimeout _ _ _ _ => true

/-- The same for a `find<TaskDef>`. -/
def TaskDefCallback.moves : TaskDefCallback → Bool
  | .spawnNext _ _ _ _ _ _ _ | .processTerminal _ _ _ | .handleTimeout _ => true
  | .dynamic _ _ _ _ _ _ _ | .claim _ _ => false

/-- The name that a key still shows when the lambda is made. The bytes of a name of at
most 15 bytes lie in the `std::string` itself, and a move writes a null byte over the
first of them: the key is then the name of nothing. A longer name is on the heap, and
stays where the key points to. -/
def viewed (moved : Bool) (name : String) : Option String :=
  if moved ∧ 0 < name.utf8ByteSize ∧ name.utf8ByteSize ≤ 15 then none else some name

/-! ### The store -/

/-- What happened, for the statements about whole runs. -/
inductive Event
  /-- one pass of `advance` over the nodes, with the references it found -/
  | pass (exec : WorkflowExecution) (wdef : WorkflowDef) (eligible skip : List String)
  /-- `maybe_complete` set the execution to `COMPLETED` -/
  | completed (exec : WorkflowExecution) (wdef : WorkflowDef)
  /-- an execution was made, under a new id -/
  | opened (exec : WorkflowExecution)
  /-- the instances of an execution were cleared -/
  | restarted (execId : Uuid)
  /-- a task instance was made, under a new id -/
  | created (inst : TaskInstance)
  /-- a task instance row was inserted -/
  | inserted (inst : TaskInstance)
  /-- a public call was answered -/
  | answered (caller : Caller) (ok : Bool)
  /-- a public start was answered -/
  | started (caller : Caller) (execId : Option Uuid)
  /-- a claim was answered -/
  | claimed (caller : Caller) (inst : Option TaskInstance)
  /-- a requeue was answered -/
  | requeued (caller : Caller) (count : ℕ)

open Keyed (Table)

/-- The store, and what else the running process keeps. -/
structure World (σ : Type) where
  workflowDefs : Table WorkflowDef.name
  taskDefs : Table TaskDef.name
  handlers : Table EventHandler.name
  execs : Table WorkflowExecution.execId
  instances : Table TaskInstance.taskId
  /-- the next identifier `generate_id` returns -/
  fresh : Uuid
  now : Time
  lua : σ
  history : List Event

namespace World

variable {σ : Type}

/-- `find<WorkflowDef>`, under the key as the lambda leaves it. -/
def findDef (w : World σ) (name : String) (callback : DefCallback) : Option WorkflowDef :=
  (viewed callback.moves name).bind w.workflowDefs.find?

/-- `find<TaskDef>`. -/
def findTaskDef (w : World σ) (name : String) (callback : TaskDefCallback) : Option TaskDef :=
  (viewed callback.moves name).bind w.taskDefs.find?

/-- `find<WorkflowExecution>`: the key is the text of the id. -/
def findExec (H : Host σ) (w : World σ) (key : String) : Option WorkflowExecution :=
  w.execs.rows.find? (fun exec => H.format exec.execId = key)

/-- `find<TaskInstance>`. -/
def findInstance (H : Host σ) (w : World σ) (key : String) : Option TaskInstance :=
  w.instances.rows.find? (fun inst => H.format inst.taskId = key)

theorem find?_of_findDef {w : World σ} {name : String} {callback : DefCallback} {wdef : WorkflowDef}
    (h : w.findDef name callback = some wdef) : w.workflowDefs.find? name = some wdef := by
  unfold findDef viewed at h
  split at h
  · exact absurd h nofun
  · exact h

variable (w : World σ)

/-- `generate_id` was called once more. -/
def bump : World σ := { w with fresh := w.fresh + 1 }

/-- Leave another state of the Lua interpreter behind. -/
def setLua (lua : σ) : World σ := { w with lua := lua }

def record (e : Event) : World σ := { w with history := e :: w.history }

/-- Write an execution: `insert` and `update` both assign the row of its id. -/
def putExec (exec : WorkflowExecution) : World σ :=
  { w with execs := w.execs.put exec }

/-- Write a task instance row. -/
def putInstance (inst : TaskInstance) : World σ :=
  { w with instances := w.instances.put inst }

end World

end Congelado
