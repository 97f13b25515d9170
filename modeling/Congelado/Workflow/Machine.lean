import Congelado.Workflow.Orchestrator

/-!
# Running an operation, and the calls from outside

`Op.run` is one `Connector` operation together with its callback: it reads or
writes the store once and then runs the stretch of orchestrator code that the
callback goes on with. `Call.issue` is the code of a public call up to its first
operation: the methods of `WorkflowLocal`, the sweeps of `on_execute`,
`TaskHandler::submit_result` and the queue of `OrchestratorStore`.

`machine` puts the two together as a callback machine. With a database the
operations of all calls wait in one queue (`Order.fifo`); without one they run in
place (`Order.inline`).
-/

namespace Congelado

open Orchestrator

variable {σ : Type} (H : Host σ)

namespace World

/-- Answer a public call. -/
def answer (w : World σ) (caller : Caller) (ok : Bool) : World σ :=
  w.record (.answered caller ok)

end World

/-! ### Callbacks of starts and of workflow definitions -/

/-- Call the `callback` of `start`. -/
def StartCallback.apply : StartCallback → Option WorkflowExecution → World σ → World σ × List Op
  | .caller id, child, w => (w.record (.started id (child.map (·.execId))), [])
  | .ignore, _, w => (w, [])
  | .startWorkflow exec wdef refName defName done, child, w =>
    let c := Cursor.start w exec
    let inst := match child with
      | some child => { c.newInstance defName refName .completed with
          outputData := [("exec_id", H.format child.execId)] }
      | none => c.newInstance defName refName .failed
    advance H wdef done (c.spawn inst)
  | .subWorkflow exec wdef _ refName defName _, none, w =>
    -- the named workflow does not exist; `done` is not called
    let c := Cursor.start w exec
    let inst := c.newInstance defName refName .failed
    handleFailure inst wdef { maxAttempts := 1, backoff := .fixed, intervalMs := 1 }
      (c.create inst)
  | .subWorkflow exec wdef refs refName defName done, some child, w =>
    let c := Cursor.start w exec
    let inst := { c.newInstance defName refName .inProgress with
      subWorkflowExecId := some child.execId }
    spawnNext H wdef done refs (c.spawn inst)

/-- The execution `start` makes. -/
def newExecution (w : World σ) (wdef : WorkflowDef) (vars : StringMap)
    (parentExecId : Option Uuid) : WorkflowExecution :=
  { execId := w.fresh, defName := wdef.name, status := .running, vars := vars,
    parentExecId := parentExecId }

/-- `start` has made an execution and goes on with it. -/
def Cursor.launch (w : World σ) (wdef : WorkflowDef) (vars : StringMap)
    (parentExecId : Option Uuid) : Cursor σ :=
  let exec := newExecution w wdef vars parentExecId
  .start (w.bump.record (.opened exec)) exec

variable (inst : TaskInstance)

/-- An instance goes back to the queue with its retries and its output cleared. -/
def resetInstance : TaskInstance :=
  { inst with status := .scheduled, retryCount := 0, nextRetryAt := none, outputData := [] }

/-- What `retry` does to an instance. -/
def retryInstance : TaskInstance :=
  if inst.status = .failed ∨ inst.status = .timedOut then resetInstance inst else inst

/-- The row updates of `retry`. -/
def retryUpdates (instances : List TaskInstance) : List Op :=
  (instances.filter fun inst => inst.status = .failed ∨ inst.status = .timedOut).map fun inst =>
    .updateInstance (resetInstance inst) .log

/-- The callback of `find<WorkflowDef>` when there is such a definition. -/
def DefCallback.found : DefCallback → WorkflowDef → World σ → World σ × List Op
  | .start vars parentExecId callback, wdef, w =>
    advance H wdef (.insertExec callback) (Cursor.launch w wdef vars parentExecId)
  | .onExecutionTerminal execId status, wdef, w =>
    if wdef.workflowStatusListenerEnabled then
      (w, publishEvent "conductor:workflow_status"
        [("exec_id", H.format execId), ("status", statusName status)])
    else (w, [])
  | .onTaskTerminal inst exec, wdef, w => processTerminal H inst exec wdef w
  | .sweepAdvance exec, wdef, w => advance H wdef .updateExec (Cursor.start w exec)
  | .resume exec caller, wdef, w => advance H wdef (.updateExecThen caller) (Cursor.start w exec)
  | .retry exec caller, wdef, w =>
    if wdef.restartable then
      let retried := { exec with
        taskInstances := exec.taskInstances.map retryInstance, status := .running }
      advance H wdef (.updateExecThen caller)
        ((Cursor.start w retried).issue (retryUpdates exec.taskInstances))
    else (w.answer caller false, [])
  | .restart exec caller, wdef, w =>
    if wdef.restartable then
      advance H wdef (.updateExecThen caller)
        (Cursor.start (w.record (.restarted exec.execId))
          { exec with taskInstances := [], status := .running })
    else (w.answer caller false, [])
  | .rerun exec nodeRef input caller, wdef, w =>
    if wdef.restartable then
      match findInstance exec.taskInstances nodeRef with
      | none => (w.answer caller false, [])
      | some inst =>
        let inst := { resetInstance inst with inputData := input }
        let exec := { exec with
          taskInstances := Keyed.put TaskInstance.nodeRef inst exec.taskInstances
          status := .running }
        advance H wdef (.updateExecThen caller)
          ((Cursor.start w exec).issue [.updateInstance inst .log])
    else (w.answer caller false, [])
  | .reconcile exec caller, wdef, w =>
    advance H wdef (.updateExecThen caller) (Cursor.start w exec)
  | .handleTimeout inst exec policy retryAction, wdef, w =>
    if retryAction then handleFailure inst wdef policy (Cursor.start w exec)
    else failExecution inst wdef.failureWorkflow (Cursor.start w exec)

/-- The callback of `find<WorkflowDef>` when there is none. -/
def DefCallback.missing : DefCallback → World σ → World σ × List Op
  | .start _ _ callback, w => callback.apply H none w
  | .onExecutionTerminal _ _, w | .onTaskTerminal _ _, w | .sweepAdvance _, w => (w, [])
  | .resume exec caller, w => (w, [.updateExec exec (.answer caller)])
  | .retry _ caller, w | .restart _ caller, w | .rerun _ _ _ caller, w | .reconcile _ caller, w =>
    (w.answer caller false, [])
  | .handleTimeout inst exec policy retryAction, w =>
    if retryAction then handleFailure inst {} policy (Cursor.start w exec)
    else failExecution inst none (Cursor.start w exec)

/-! ### Callbacks of task definitions -/

/-- `handle_timeout`, up to its first operation. -/
def handleTimeout (inst : TaskInstance) : List Op :=
  [.findTaskDef inst.defName (.handleTimeout inst)]

/-- The callback of `handle_timeout`'s `find<TaskDef>`. -/
def applyTimeout (inst : TaskInstance) (taskDef : Option TaskDef) : List Op :=
  if taskDef.any fun t => t.type = .wait then
    -- the row keeps its old status
    Orchestrator.onTaskTerminal H { inst with status := .completed }
  else
    let action := (taskDef.map fun t => t.timeout.action).getD .failWorkflow
    if action = .alertOnly then []
    else
      [.findExec (H.format inst.workflowExecId)
        (.handleTimeout { inst with status := .timedOut }
          ((taskDef.map TaskDef.retry).getD {}) (action = .retry))]

/-- The name of the `TaskDef` a `DYNAMIC` node resolves to, if its input names one. -/
def dynamicTarget (taskDef : Option TaskDef) (input : StringMap) : Option String :=
  match taskDef with
  | none => none
  | some taskDef =>
    if taskDef.type = .dynamic then taskDef.dynamicTaskParam.bind fun key => input.lookup key
    else none

/-- The callback of `find<TaskDef>`. -/
def TaskDefCallback.apply : TaskDefCallback → Option TaskDef → World σ → World σ × List Op
  | .spawnNext exec wdef refs input refName defName done, taskDef, w =>
    match dynamicTarget taskDef input with
    | some target =>
      (w, [.findTaskDef target (.dynamic exec wdef refs input refName defName done)])
    | none => spawnWithDef H wdef done refs refName input defName taskDef (Cursor.start w exec)
  | .dynamic exec wdef refs input refName defName done, taskDef, w =>
    spawnWithDef H wdef done refs refName input defName taskDef (Cursor.start w exec)
  | .processTerminal inst exec wdef, taskDef, w =>
    handleFailure inst wdef ((taskDef.map TaskDef.retry).getD {}) (Cursor.start w exec)
  | .handleTimeout inst, taskDef, w => (w, applyTimeout H inst taskDef)
  | .claim claimed caller, taskDef, w =>
    let timeoutMs := (taskDef.map fun t => t.timeout.timeoutMs).getD 30000
    (w, [.updateInstance { claimed with deadlineAt := some (w.now + timeoutMs.toNat) }
      (.claim caller)])

/-! ### Callbacks of executions -/

/-- The callback of `find<WorkflowExecution>` when there is such an execution. -/
def ExecCallback.found : ExecCallback → WorkflowExecution → World σ → World σ × List Op
  | .onTaskTerminal inst, exec, w =>
    if exec.status.isTerminal then (w, [])
    else (w, [.findDef exec.defName (.onTaskTerminal inst exec)])
  | .pause caller, exec, w =>
    if exec.status = .running then
      (w, [.updateExec { exec with status := .paused } (.answer caller)])
    else (w.answer caller false, [])
  | .resume caller, exec, w =>
    if exec.status = .paused then
      (w, [.findDef exec.defName (.resume { exec with status := .running } caller)])
    else (w.answer caller false, [])
  | .retry caller, exec, w =>
    if exec.status = .failed then (w, [.findDef exec.defName (.retry exec caller)])
    else (w.answer caller false, [])
  | .restart caller, exec, w =>
    if exec.status.isTerminal then (w, [.findDef exec.defName (.restart exec caller)])
    else (w.answer caller false, [])
  | .rerun nodeRef input caller, exec, w =>
    (w, [.findDef exec.defName (.rerun exec nodeRef input caller)])
  | .signal nodeRef payload caller, exec, w =>
    match exec.taskInstances.find? fun inst =>
        inst.nodeRef = nodeRef ∧ inst.status = .inProgress with
    | none => (w.answer caller false, [])
    | some inst =>
      let inst := { inst with
        status := .completed
        outputData := match payload with
          | some text => inst.outputData.assign "signal_payload" text
          | none => inst.outputData }
      (w.answer caller true, .updateInstance inst .log :: Orchestrator.onTaskTerminal H inst)
  | .completeInstanceByRef nodeRef status output, exec, w =>
    match findInstance exec.taskInstances nodeRef with
    | none => (w, [])
    | some inst =>
      let inst := { inst with
        status := status
        outputData := (output.erase "exec_id").erase "task_ref" }
      (w, .updateInstance inst .log :: Orchestrator.onTaskTerminal H inst)
  | .terminate caller, exec, w =>
    if exec.status.isTerminal then (w.answer caller false, [])
    else
      let exec := { exec with status := .terminated }
      (w, [.updateExec exec (.terminate exec caller)])
  | .reconcile caller, exec, w => (w, [.findDef exec.defName (.reconcile exec caller)])
  | .eventTerminate status, exec, w =>
    if exec.status.isTerminal then (w, [])
    else
      let exec := { exec with status := status }
      (w, .updateExec exec .log :: Orchestrator.onExecutionTerminal exec)
  | .eventUpdateVariables updates, exec, w =>
    (w, [.updateExec { exec with vars := exec.vars.merge updates } .log])
  | .handleTimeout inst policy retryAction, exec, w =>
    if exec.status.isTerminal then (w, [.updateInstance inst .log])
    else (w, [.findDef exec.defName (.handleTimeout inst exec policy retryAction)])

/-- The callback of `find<WorkflowExecution>` when there is none. -/
def ExecCallback.missing : ExecCallback → World σ → World σ × List Op
  | .pause caller, w | .resume caller, w | .retry caller, w | .restart caller, w
  | .rerun _ _ caller, w | .signal _ _ caller, w | .terminate caller, w | .reconcile caller, w =>
    (w.answer caller false, [])
  | .handleTimeout inst _ _, w => (w, [.updateInstance inst .log])
  | .onTaskTerminal _, w | .completeInstanceByRef _ _ _, w | .eventTerminate _, w
  | .eventUpdateVariables _, w => (w, [])

/-! ### Callbacks of task instances -/

/-- The status a worker's result stands for. -/
def TaskResult.toStatus : TaskResult → TaskStatus
  | .success => .completed
  | .failure => .failed
  | .timeout => .timedOut
  | .skipped => .skipped

/-- The callback of `find<TaskInstance>`. -/
def InstanceCallback.apply : InstanceCallback → Option TaskInstance → World σ → World σ × List Op
  | .onTaskTerminal none, none, w => (w, [])
  | .onTaskTerminal none, some inst, w => (w, Orchestrator.onTaskTerminal H inst)
  | .onTaskTerminal (some caller), none, w => (w.answer caller false, [])
  | .onTaskTerminal (some caller), some inst, w =>
      (w.answer caller true, Orchestrator.onTaskTerminal H inst)
  | .submitResult _ _ caller, none, w => (w.answer caller false, [])
  | .submitResult result output caller, some inst, w =>
    (w, [.updateInstance { inst with status := result.toStatus, outputData := output }
      (.submitResult caller)])

/-- A running instance whose deadline has passed. -/
def expired (now : Time) (inst : TaskInstance) : Bool :=
  inst.status = .inProgress ∧ inst.deadlineAt.any (· ≤ now)

/-- A failed instance whose armed retry is due. -/
def retryDue (now : Time) (inst : TaskInstance) : Bool :=
  inst.nextRetryAt.any (· ≤ now) ∧ (inst.status = .failed ∨ inst.status = .timedOut)

/-- The instance of the parent that a finished child completes or fails. -/
def propagate (child : WorkflowExecution) (inst : TaskInstance) : TaskInstance :=
  { inst with
    status := if child.status = .completed then .completed else .failed
    outputData := child.vars }

/-- The callback of `find_all<TaskInstance>`. -/
def InstancesCallback.apply : InstancesCallback → List TaskInstance → World σ → World σ × List Op
  | .onExecutionTerminal child, rows, w =>
    match rows.find? fun inst => inst.subWorkflowExecId = some child.execId with
    | none => (w, [])
    | some inst =>
      (w, .updateInstance (propagate child inst) .log :: Orchestrator.onTaskTerminal H
        (propagate child inst))
  | .sweepTimeouts now, rows, w => (w, (rows.filter (expired now)).flatMap handleTimeout)
  | .sweepRetries now, rows, w =>
    (w, (rows.filter (retryDue now)).map fun inst =>
      .updateInstance { inst with status := .scheduled, nextRetryAt := none, outputData := [] }
        .log)
  | .requeue names caller, rows, w =>
    let claimed := rows.filter fun inst => inst.status = .inProgress ∧ inst.defName ∈ names
    (w.record (.requeued caller claimed.length),
      claimed.map fun inst => .updateInstance { inst with status := .scheduled } .log)

/-! ### Event handlers -/

/-- The status a `TERMINATE_WORKFLOW` action asks for. -/
def actionStatus (payload : StringMap) : WorkflowStatus :=
  match payload.lookup "status" with
  | some text =>
    if text = "COMPLETED" then .completed
    else if text = "FAILED" then .failed
    else if text = "TIMED_OUT" then .timedOut
    else .terminated
  | none => .terminated

/-- `complete_instance_by_ref`, up to its first operation. -/
def completeInstanceByRef (execId nodeRef : String) (status : TaskStatus) (output : StringMap) :
    List Op :=
  [.findExec execId (.completeInstanceByRef nodeRef status output)]

/-- `execute_event_action`. -/
def executeEventAction (action : EventAction) : List Op :=
  match action.type with
  | .startWorkflow =>
    match action.payload.lookup "workflow_name" with
    | some name => start name (action.payload.erase "workflow_name") none .ignore
    | none => []
  | .completeTask | .failTask =>
    match action.payload.lookup "exec_id", action.payload.lookup "task_ref" with
    | some execId, some ref =>
      completeInstanceByRef execId ref
        (if action.type = .completeTask then .completed else .failed) action.payload
    | _, _ => []
  | .terminateWorkflow =>
    match action.payload.lookup "exec_id" with
    | some execId => [.findExec execId (.eventTerminate (actionStatus action.payload))]
    | none => []
  | .updateWorkflowVariables =>
    match action.payload.lookup "exec_id" with
    | some execId =>
      [.findExec execId (.eventUpdateVariables (action.payload.erase "exec_id"))]
    | none => []

/-- Whether a handler's condition lets it fire. -/
def handlerConditionOk (lua : σ) (handler : EventHandler) (payload : StringMap) : Bool × σ :=
  match handler.condition with
  | none => (true, lua)
  | some condition => H.evalCondition lua condition (toValueInput payload)

/-- The callback of `publish_event`'s `find_all<EventHandler>`. -/
def fireHandlers (eventName : String) (payload : StringMap) :
    List EventHandler → World σ → World σ × List Op
  | [], w => (w, [])
  | handler :: handlers, w =>
    if handler.active ∧ handler.event = eventName then
      let ok := handlerConditionOk H w.lua handler payload
      let rest := fireHandlers eventName payload handlers (w.setLua ok.2)
      (rest.1, (if ok.1 then handler.actions.flatMap executeEventAction else []) ++ rest.2)
    else fireHandlers eventName payload handlers w

/-! ### Claims -/

/-- The predicate of `claim`: waiting, and of a task definition with the worker
type and, if one is asked for, the domain. -/
def claimable (w : World σ) (workerType : String) (domain : Option String)
    (inst : TaskInstance) : Bool :=
  inst.status = .scheduled ∧
    (w.taskDefs.find? inst.defName).any fun taskDef =>
      taskDef.workerType = workerType ∧ (domain = none ∨ taskDef.domain = domain)

/-- The first of the instances with the smallest sequence number. -/
def firstBySeq : List TaskInstance → Option TaskInstance
  | [] => none
  | inst :: instances =>
    match firstBySeq instances with
    | none => some inst
    | some best => if best.seq < inst.seq then some best else some inst

theorem firstBySeq_mem {instances : List TaskInstance} {inst : TaskInstance}
    (h : firstBySeq instances = some inst) : inst ∈ instances := by
  induction instances generalizing inst with
  | nil => cases h
  | cons i instances ih =>
    rw [firstBySeq] at h
    cases hrest : firstBySeq instances with
    | none =>
      simp only [hrest] at h
      exact Option.some.inj h ▸ (.head _)
    | some best =>
      simp only [hrest] at h
      split at h
      · exact .tail _ (Option.some.inj h ▸ ih hrest)
      · exact Option.some.inj h ▸ (.head _)

/-! ### Operations -/

/-- One operation of the `Connector`, with its callback. A write is done and its callback is told
so, as always without a database: no step is a write that the database refuses. -/
def Op.run : Op → World σ → World σ × List Op
  | .findDef name callback, w =>
    match w.findDef name callback with
    | some wdef => callback.found H wdef w
    | none => callback.missing H w
  | .findTaskDef name callback, w => callback.apply H (w.findTaskDef name callback) w
  | .findExec key callback, w =>
    match w.findExec H key with
    | some exec => callback.found H exec w
    | none => callback.missing w
  | .findInstance key callback, w => callback.apply H (w.findInstance H key) w
  | .findFirst workerType domain caller, w =>
    match firstBySeq (w.instances.rows.filter (claimable w workerType domain)) with
    | none => (w.record (.claimed caller none), [])
    | some found =>
      (w, [.findTaskDef found.defName (.claim { found with status := .inProgress } caller)])
  | .findAllExecs, w =>
    (w, (w.execs.rows.filter fun exec => exec.status = .running).map fun exec =>
      .findDef exec.defName (.sweepAdvance exec))
  | .findAllInstances callback, w => callback.apply H w.instances.rows w
  | .findAllTaskDefs workerType caller, w =>
    (w, [.findAllInstances (.requeue
      ((w.taskDefs.rows.filter fun t => t.workerType = workerType).map TaskDef.name) caller)])
  | .findAllHandlers eventName payload, w => fireHandlers H eventName payload w.handlers.rows w
  -- the writes: the row is there, and the callback goes on as after a success
  | .insertExec exec callback, w => callback.apply H (some exec) (w.putExec exec)
  | .updateExec exec .log, w => (w.putExec exec, [])
  | .updateExec exec (.answer caller), w => ((w.putExec exec).answer caller true, [])
  | .updateExec exec (.terminate toFinish caller), w =>
    ((w.putExec exec).answer caller true, onExecutionTerminal toFinish)
  | .insertInstance inst, w => ((w.putInstance inst).record (.inserted inst), [])
  | .updateInstance inst .log, w => (w.putInstance inst, [])
  | .updateInstance inst (.submitResult caller), w =>
    ((w.putInstance inst).answer caller true,
      [.findInstance (H.format inst.taskId) (.onTaskTerminal none)])
  | .updateInstance inst (.claim caller), w =>
    ((w.putInstance inst).record (.claimed caller (some inst)), [])

/-! ### Calls -/

/-- A call from outside. -/
inductive Call
  | start (defName : String) (vars : StringMap) (caller : Caller)
  | onTaskTerminal (taskId : String) (caller : Caller)
  | sweepAdvance
  | sweepTimeouts
  | sweepRetries
  | pause (execId : String) (caller : Caller)
  | resume (execId : String) (caller : Caller)
  | retry (execId : String) (caller : Caller)
  | restart (execId : String) (caller : Caller)
  | rerun (execId nodeRef : String) (input : Value) (caller : Caller)
  | signal (execId nodeRef : String) (payload : Option String) (caller : Caller)
  | queueUpdate (execId nodeRef : String) (status : TaskStatus) (output : StringMap)
  | terminate (execId : String) (caller : Caller)
  | reconcile (execId : String) (caller : Caller)
  | claim (workerType : String) (domain : Option String) (caller : Caller)
  | submitResult (taskId : String) (result : TaskResult) (output : StringMap) (caller : Caller)
  | requeue (workerType : String) (caller : Caller)

/-- The first operations of a call. -/
def Call.issue (now : Time) : Call → List Op
  | .start defName vars caller => Orchestrator.start defName vars none (.caller caller)
  | .onTaskTerminal taskId caller => [.findInstance taskId (.onTaskTerminal (some caller))]
  | .sweepAdvance => [.findAllExecs]
  | .sweepTimeouts => [.findAllInstances (.sweepTimeouts now)]
  | .sweepRetries => [.findAllInstances (.sweepRetries now)]
  | .pause execId caller => [.findExec execId (.pause caller)]
  | .resume execId caller => [.findExec execId (.resume caller)]
  | .retry execId caller => [.findExec execId (.retry caller)]
  | .restart execId caller => [.findExec execId (.restart caller)]
  | .rerun execId nodeRef input caller => [.findExec execId (.rerun nodeRef input caller)]
  | .signal execId nodeRef payload caller => [.findExec execId (.signal nodeRef payload caller)]
  | .queueUpdate execId nodeRef status output =>
    Congelado.completeInstanceByRef execId nodeRef status output
  | .terminate execId caller => [.findExec execId (.terminate caller)]
  | .reconcile execId caller => [.findExec execId (.reconcile caller)]
  | .claim workerType domain caller => [.findFirst workerType domain caller]
  | .submitResult taskId result output caller =>
    [.findInstance taskId (.submitResult result output caller)]
  | .requeue workerType caller => [.findAllTaskDefs workerType caller]

open Callback

/-- The orchestrator over its store; the environment moves the clock. -/
def machine : Machine (World σ) Op Call Time where
  run := Op.run H
  issue call w := (w, call.issue w.now)
  env now w := { w with now := now }

end Congelado
