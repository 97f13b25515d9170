import Congelado.Workflow.Operation

/-!
# The orchestrator

`orchestrator.cppm`, stretch by stretch: each definition is the code a member
function (or one of its callbacks) runs between two `Connector` operations.
Such a stretch works on one execution, taken by value. `Cursor` is where it
stands: the execution as it has become, the world, and the operations issued so
far, in order. A stretch that is over leaves `World σ × List Op`, the world and
the operations that are then waiting.

The store is not touched inside a stretch. What a stretch does to the world is
to draw identifiers, to evaluate Lua expressions and to add to the history, so
issuing an operation and running it later is the same as running it in place,
up to the order in which identifiers and Lua evaluations happen.

Logging, the search projection and the app-wide event bus, which nothing here
reads, are left out.
-/

namespace Congelado

/-- A stretch of code at work on an execution. -/
structure Cursor (σ : Type) where
  world : World σ
  exec : WorkflowExecution
  ops : List Op

/-- Call `done` with an execution. -/
def Done.apply : Done → WorkflowExecution → List Op
  | .insertExec callback, exec => [.insertExec exec callback]
  | .updateExec, exec => [.updateExec exec .log]
  | .updateExecThen caller, exec => [.updateExec exec (.answer caller)]

namespace Cursor

variable {σ : Type}

/-- Start working on an execution. -/
def start (w : World σ) (exec : WorkflowExecution) : Cursor σ := ⟨w, exec, []⟩

variable (c : Cursor σ)

def issue (ops : List Op) : Cursor σ := { c with ops := c.ops ++ ops }

def setLua (lua : σ) : Cursor σ := { c with world := c.world.setLua lua }

def record (e : Event) : Cursor σ := { c with world := c.world.record e }

def setVars (vars : StringMap) : Cursor σ :=
  { c with exec := { c.exec with vars := vars } }

def setStatus (status : WorkflowStatus) : Cursor σ :=
  { c with exec := { c.exec with status := status } }

/-- A task instance of the execution under the next identifier. -/
def newInstance (defName refName : String) (status : TaskStatus) : TaskInstance :=
  { taskId := c.world.fresh, defName := defName, nodeRef := refName,
    workflowExecId := c.exec.execId, status := status }

variable (inst : TaskInstance)

/-- The identifier of a new instance is used up. -/
def create : Cursor σ :=
  { c with world := c.world.bump.record (.created inst) }

/-- Make an instance, nest it in the execution and insert its row. -/
def spawn : Cursor σ :=
  { world := c.world.bump.record (.created inst)
    exec := c.exec.addTaskInstance inst
    ops := c.ops ++ [.insertInstance inst] }

/-- The stretch is over, with these last operations. -/
def close (ops : List Op) : World σ × List Op := (c.world, c.ops ++ ops)

end Cursor

namespace Orchestrator

variable {σ : Type} (H : Host σ)

/-! ### Lookups -/

/-- `find_node`. -/
def findNode (wdef : WorkflowDef) (refName : String) : Option TaskNode :=
  wdef.nodes.find? (fun node => node.refName = refName)

/-- `find_instance`. -/
def findInstance (instances : List TaskInstance) (nodeRef : String) : Option TaskInstance :=
  instances.find? (fun inst => inst.nodeRef = nodeRef)

/-- `sync_instance`. -/
def syncInstance (exec : WorkflowExecution) (inst : TaskInstance) : WorkflowExecution :=
  { exec with taskInstances := Keyed.put TaskInstance.taskId inst exec.taskInstances }

/-- `status_name`. -/
def statusName : WorkflowStatus → String
  | .running => "RUNNING"
  | .completed => "COMPLETED"
  | .failed => "FAILED"
  | .timedOut => "TIMED_OUT"
  | .paused => "PAUSED"
  | .terminated => "TERMINATED"

/-- `edge_condition_ok`. -/
def edgeConditionOk (lua : σ) (exec : WorkflowExecution) (edge : TaskEdge)
    (predecessor : TaskInstance) : Bool × σ :=
  match edge.condition with
  | none => (true, lua)
  | some condition =>
    H.evalCondition lua condition (toValueInput (exec.vars.merge predecessor.outputData))

/-! ### Terminal executions -/

/-- `start`, up to its first operation. -/
def start (defName : String) (vars : StringMap) (parentExecId : Option Uuid)
    (callback : StartCallback) : List Op :=
  [.findDef defName (.start vars parentExecId callback)]

/-- `publish_event`, up to its first operation. -/
def publishEvent (eventName : String) (payload : StringMap) : List Op :=
  [.findAllHandlers eventName payload]

/-- `on_execution_terminal`: the status listener is looked up, and a child looks
for the instance of its parent that waits for it. -/
def onExecutionTerminal (child : WorkflowExecution) : List Op :=
  .findDef child.defName (.onExecutionTerminal child.execId child.status) ::
    if child.parentExecId.isSome then [.findAllInstances (.onExecutionTerminal child)] else []

/-- `on_task_terminal`, up to its first operation. -/
def onTaskTerminal (inst : TaskInstance) : List Op :=
  [.findExec (H.format inst.workflowExecId) (.onTaskTerminal inst)]

/-- The variables of an execution after `def`'s output mappings were applied to
the output of its last instance. -/
def mappedOutput (exec : WorkflowExecution) (wdef : WorkflowDef) : StringMap :=
  match exec.taskInstances.getLast? with
  | none => exec.vars
  | some source =>
    wdef.outputMappings.foldl (fun vars mapping =>
      match source.outputData.lookup mapping.source with
      | some value => vars.assign mapping.target value
      | none => vars) exec.vars

/-- The test of `maybe_complete`: as many instances as nodes, all of them done. -/
def allDone (exec : WorkflowExecution) (wdef : WorkflowDef) : Bool :=
  wdef.nodes.length ≤ exec.taskInstances.length &&
    exec.taskInstances.all (fun inst => inst.status.isDone)

/-- `maybe_complete`. -/
def maybeComplete (wdef : WorkflowDef) (c : Cursor σ) : Cursor σ :=
  if c.exec.status.isTerminal then c
  else if allDone c.exec wdef then
    let c := (c.setVars (mappedOutput c.exec wdef)).setStatus .completed
    (c.record (.completed c.exec wdef)).issue (onExecutionTerminal c.exec)
  else c

/-- `maybe_complete` followed by `done`. -/
def finish (wdef : WorkflowDef) (done : Done) (c : Cursor σ) : World σ × List Op :=
  let c := maybeComplete wdef c
  c.close (done.apply c.exec)

/-! ### `advance` -/

/-- The edges of a definition, node by node. -/
def edges (wdef : WorkflowDef) : List TaskEdge := wdef.nodes.flatMap TaskNode.edges

/-- `incoming[ref]`: the edges into a node, in the order of the definition. -/
def incoming (wdef : WorkflowDef) (refName : String) : List TaskEdge :=
  (edges wdef).filter (fun edge => edge.toRef = refName)

/-- Whether a node with a `join_on` list may start. -/
def joinReady (exec : WorkflowExecution) (node : TaskNode) : Bool :=
  match node.joinType with
  | .all => node.joinOn.all fun ref =>
      (findInstance exec.taskInstances ref).any fun inst => inst.status.isTerminal
  | .any => node.joinOn.any fun ref =>
      (findInstance exec.taskInstances ref).any fun inst => inst.status.isDone

/-- What the scan of a node's incoming edges has found so far. -/
structure EdgeScan (σ : Type) where
  anySatisfied : Bool
  allPredecessorsTerminal : Bool
  lua : σ

/-- One incoming edge of the scan. -/
def scanEdge (exec : WorkflowExecution) (s : EdgeScan σ) (edge : TaskEdge) : EdgeScan σ :=
  match findInstance exec.taskInstances edge.fromRef with
  | none => { s with allPredecessorsTerminal := false }
  | some predecessor =>
    if predecessor.status.isTerminal then
      if predecessor.status.isDone then
        let ok := edgeConditionOk H s.lua exec edge predecessor
        { s with anySatisfied := s.anySatisfied || ok.1, lua := ok.2 }
      else s
    else { s with allPredecessorsTerminal := false }

/-- The loop over a node's incoming edges. -/
def scanEdges (exec : WorkflowExecution) (lua : σ) (edges : List TaskEdge) : EdgeScan σ :=
  edges.foldl (scanEdge H exec) ⟨false, true, lua⟩

/-- What `advance` decides for a node that has no instance yet. -/
inductive Verdict
  | eligible
  | skip
  | wait
  deriving DecidableEq, Repr

/-- The body of `advance`'s loop over the nodes. -/
def judge (exec : WorkflowExecution) (wdef : WorkflowDef) (node : TaskNode) (lua : σ) :
    Verdict × σ :=
  if node.joinOn ≠ [] then
    (if joinReady exec node then .eligible else .wait, lua)
  else if incoming wdef node.refName = [] then (.eligible, lua)
  else
    let s := scanEdges H exec lua (incoming wdef node.refName)
    (if s.anySatisfied then .eligible
      else if s.allPredecessorsTerminal then .skip else .wait, s.lua)

/-- `eligible_refs` and `skip_refs`, and the interpreter after the scan. -/
structure NodeScan (σ : Type) where
  eligible : List String
  skip : List String
  lua : σ

/-- `advance`'s loop over the nodes. -/
def scanNodes (exec : WorkflowExecution) (wdef : WorkflowDef) : List TaskNode → σ → NodeScan σ
  | [], lua => ⟨[], [], lua⟩
  | node :: nodes, lua =>
    if node.refName ∈ exec.refs then scanNodes exec wdef nodes lua
    else
      let verdict := judge H exec wdef node lua
      let rest := scanNodes exec wdef nodes verdict.2
      match verdict.1 with
      | .eligible => { rest with eligible := node.refName :: rest.eligible }
      | .skip => { rest with skip := node.refName :: rest.skip }
      | .wait => rest

/-- `advance`'s loop over `skip_refs`. -/
def skipNodes (wdef : WorkflowDef) : List String → Cursor σ → Cursor σ
  | [], c => c
  | ref :: refs, c =>
    match findNode wdef ref with
    | none => skipNodes wdef refs c
    | some node => skipNodes wdef refs (c.spawn (c.newInstance node.defName ref .skipped))

/-- Copy what one edge of `spawn_next` maps from its predecessor's output. -/
def gatherEdge (exec : WorkflowExecution) (s : StringMap × σ) (edge : TaskEdge) : StringMap × σ :=
  match findInstance exec.taskInstances edge.fromRef with
  | none => s
  | some predecessor =>
    if predecessor.status.isDone then
      let ok := edgeConditionOk H s.2 exec edge predecessor
      if ok.1 then
        (edge.mappings.foldl (fun input mapping =>
          match predecessor.outputData.lookup mapping.source with
          | some value => input.assign mapping.target value
          | none => input) s.1, ok.2)
      else (s.1, ok.2)
    else s

/-- The input `spawn_next` gathers for a node. -/
def gatherInput (exec : WorkflowExecution) (wdef : WorkflowDef) (refName : String) (lua : σ) :
    StringMap × σ :=
  (incoming wdef refName).foldl (gatherEdge H exec) ([], lua)

/-- `spawn_next`, with the references from `index` on. -/
def spawnNext (wdef : WorkflowDef) (done : Done) : List String → Cursor σ → World σ × List Op
  | [], c => finish wdef done c
  | ref :: refs, c =>
    match findNode wdef ref with
    | none => spawnNext wdef done refs c
    | some node =>
      let input := gatherInput H c.exec wdef node.refName c.world.lua
      (c.setLua input.2).close
        [.findTaskDef node.defName
          (.spawnNext c.exec wdef refs input.1 node.refName node.defName done)]

/-- `advance`. The first argument bounds the number of passes; `advance_eq` says
that the bound `advance` starts with is never reached. -/
def advancePasses (wdef : WorkflowDef) (done : Done) : ℕ → Cursor σ → World σ × List Op
  | 0, c => c.close (done.apply c.exec)
  | passes + 1, c =>
    if c.exec.status.isTerminal ∨ c.exec.status = .paused then c.close (done.apply c.exec)
    else
      let scan := scanNodes H c.exec wdef wdef.nodes c.world.lua
      let c := (c.setLua scan.lua).record (.pass c.exec wdef scan.eligible scan.skip)
      if scan.eligible = [] ∧ scan.skip = [] then finish wdef done c
      else if scan.eligible = [] then
        -- only skips happened: look again for what they unlocked
        advancePasses wdef done passes (skipNodes wdef scan.skip c)
      else spawnNext H wdef done scan.eligible (skipNodes wdef scan.skip c)

@[inherit_doc advancePasses]
def advance (wdef : WorkflowDef) (done : Done) (c : Cursor σ) : World σ × List Op :=
  advancePasses H wdef done (wdef.nodes.length + 1) c

/-! ### Failures -/

/-- `compute_backoff`, in milliseconds. -/
def computeBackoff (retry : RetryPolicy) (attemptNumber : UInt32) : ℤ :=
  match retry.backoff with
  | .fixed => retry.intervalMs.toNat
  | .exponential => retry.intervalMs.toNat * 2 ^ min attemptNumber.toNat 16

/-- The instance with one more retry armed. -/
def armRetry (now : Time) (retry : RetryPolicy) (inst : TaskInstance) : TaskInstance :=
  { inst with
    retryCount := inst.retryCount + 1
    nextRetryAt := some (now + computeBackoff retry (inst.retryCount + 1)) }

/-- The start of the failure workflow, if the definition names one. -/
def startFailureWorkflow (failureWorkflow : Option String) (vars : StringMap) : List Op :=
  match failureWorkflow with
  | some name => start name vars none .ignore
  | none => []

variable (inst : TaskInstance)

/-- The execution fails with the instance: both are written, the end of the
execution is announced and the failure workflow is started. -/
def failExecution (failureWorkflow : Option String) (c : Cursor σ) : World σ × List Op :=
  let exec := syncInstance { c.exec with status := .failed } inst
  c.close (.updateInstance inst .log :: .updateExec exec .log ::
    (onExecutionTerminal exec ++ startFailureWorkflow failureWorkflow exec.vars))

/-- `handle_failure`. -/
def handleFailure (wdef : WorkflowDef) (retry : RetryPolicy) (c : Cursor σ) : World σ × List Op :=
  if inst.retryCount + 1 < retry.maxAttempts then
    let inst := armRetry c.world.now retry inst
    c.close [.updateInstance inst .log, .updateExec (syncInstance c.exec inst) .log]
  else failExecution inst wdef.failureWorkflow c

variable (exec : WorkflowExecution)

/-- `process_terminal`. -/
def processTerminal (wdef : WorkflowDef) (w : World σ) : World σ × List Op :=
  let exec := syncInstance exec inst
  if inst.status = .failed ∨ inst.status = .timedOut then
    (w, [.findTaskDef inst.defName (.processTerminal inst exec wdef)])
  else if inst.status.isDone then advance H wdef .updateExec (Cursor.start w exec)
  else (w, [.updateExec exec .log])

/-! ### `spawn_with_def` -/

/-- `schema_validator`'s verdict on the input of a task that enforces its schema. -/
def schemaError (taskDef : TaskDef) (input : StringMap) : Option String :=
  if taskDef.enforceSchema then
    match taskDef.inputSchema with
    | none => none
    | some schema =>
      match SchemaValidator.validate schema (toValueInput input) with
      | .error e => some e
      | .ok _ => none
  else none

/-- How many instances of a task definition are waiting or running. -/
def inFlight (defName : String) : ℕ :=
  exec.taskInstances.countP fun inst =>
    inst.defName = defName ∧ (inst.status = .scheduled ∨ inst.status = .inProgress)

/-- Whether a `RateLimitPolicy` lets one more instance start. -/
def withinLimit (taskDef : TaskDef) : Bool :=
  match taskDef.rateLimit with
  | none => true
  | some limit => inFlight exec taskDef.name < limit.maxConcurrent.toNat

section SpawnWithDef

variable (wdef : WorkflowDef) (done : Done) (refs : List String) (refName : String)

/-- `HUMAN`: in progress until somebody reports a result. -/
def spawnHuman (taskDef : TaskDef) (input : StringMap) (c : Cursor σ) : World σ × List Op :=
  let inst := { c.newInstance taskDef.name refName .inProgress with
    inputData := toValueInput input }
  spawnNext H wdef done refs (c.spawn inst)

/-- `WAIT`: in progress until the deadline, if there is one. -/
def spawnWait (taskDef : TaskDef) (input : StringMap) (c : Cursor σ) : World σ × List Op :=
  let inst := { c.newInstance taskDef.name refName .inProgress with
    inputData := toValueInput input
    deadlineAt := taskDef.waitDurationMs.map fun ms => c.world.now + ms.toNat }
  spawnNext H wdef done refs (c.spawn inst)

/-- `START_WORKFLOW`: the node waits for the start of an unrelated execution. -/
def spawnStartWorkflow (taskDef : TaskDef) (input : StringMap) (c : Cursor σ) : World σ × List Op :=
  match input.lookup "workflow_name" with
  | none => spawnNext H wdef done refs c
  | some name =>
    c.close (start name (input.erase "workflow_name") none
      (.startWorkflow c.exec wdef refName taskDef.name done))

/-- `SUB_WORKFLOW`: the node waits for the start of a child execution. -/
def spawnSubWorkflow (taskDef : TaskDef) (input : StringMap) (c : Cursor σ) : World σ × List Op :=
  match input.lookup "workflow_name" with
  | none => spawnNext H wdef done refs c
  | some name =>
    c.close (start name (input.erase "workflow_name") (some c.exec.execId)
      (.subWorkflow c.exec wdef refs refName taskDef.name done))

/-- `EVENT`: publish, complete at once and look again. -/
def spawnEvent (taskDef : TaskDef) (input : StringMap) (c : Cursor σ) : World σ × List Op :=
  let c := match input.lookup "event" with
    | some event => c.issue (publishEvent event (input.erase "event"))
    | none => c
  let inst := { c.newInstance taskDef.name refName .completed with outputData := input }
  advance H wdef done (c.spawn inst)

/-- A system task completes at once; `TERMINATE` ends the execution. -/
def spawnSystemTask (taskDef : TaskDef) (input : StringMap) (c : Cursor σ) : World σ × List Op :=
  let run := SystemTaskExecutor.execute H c.world.lua taskDef.type input c.exec.vars
  let c := c.setLua run.2
  let c := if taskDef.type = .setVariable then c.setVars (c.exec.vars.merge run.1.outputData)
    else c
  let inst := { c.newInstance taskDef.name refName .completed with
    outputData := run.1.outputData }
  let c := c.spawn inst
  if run.1.terminateWorkflow then
    let c := c.setStatus run.1.terminateStatus
    (c.issue (onExecutionTerminal c.exec)).close (done.apply c.exec)
  else advance H wdef done c

/-- The input does not match the schema: the instance fails before it starts. -/
def spawnRejected (taskDef : TaskDef) (input : StringMap) (error : String) (c : Cursor σ) :
    World σ × List Op :=
  let inst := { c.newInstance taskDef.name refName .failed with
    inputData := toValueInput input
    outputData := [("error", "input schema validation failed: " ++ error)] }
  handleFailure inst wdef taskDef.retry (c.spawn inst)

/-- A task for a worker. -/
def spawnScheduled (defName : String) (input : StringMap) (c : Cursor σ) : World σ × List Op :=
  let inst := { c.newInstance defName refName .scheduled with inputData := toValueInput input }
  spawnNext H wdef done refs (c.spawn inst)

/-- A task of any other type goes to a worker, unless its input fails the schema
or its rate limit is reached; then the next sweep tries again. -/
def spawnWorkerTask (taskDef : TaskDef) (input : StringMap) (c : Cursor σ) : World σ × List Op :=
  match schemaError taskDef input with
  | some error => spawnRejected wdef refName taskDef input error c
  | none =>
    if withinLimit c.exec taskDef then
      spawnScheduled H wdef done refs refName taskDef.name input c
    else spawnNext H wdef done refs c

/-- `spawn_with_def`. -/
def spawnWithDef (input : StringMap) (originalDefName : String) (taskDef : Option TaskDef)
    (c : Cursor σ) : World σ × List Op :=
  match taskDef with
  | none => spawnScheduled H wdef done refs refName originalDefName input c
  | some taskDef =>
    match taskDef.type with
    | .human => spawnHuman H wdef done refs refName taskDef input c
    | .wait => spawnWait H wdef done refs refName taskDef input c
    | .startWorkflow => spawnStartWorkflow H wdef done refs refName taskDef input c
    | .subWorkflow => spawnSubWorkflow H wdef done refs refName taskDef input c
    | .event => spawnEvent H wdef done refName taskDef input c
    | type =>
      if SystemTaskExecutor.isSystemTask type then
        spawnSystemTask H wdef done refName taskDef input c
      else spawnWorkerTask H wdef done refs refName taskDef input c

end SpawnWithDef

end Orchestrator

end Congelado
