import Congelado.Lib.Keyed

/-!
# The workflow data model

The records of `plugins/shared/model` that the orchestrator reads and writes:
task and workflow definitions, the DAG of a workflow, task instances, workflow
executions and event handlers. Fields that no orchestrator code reads (timings,
versions, correlation ids, the loop and dynamic-fork fields of a node) are left
out.

Flat string maps (`std::unordered_map<std::string, std::string>`) are association
lists, updated by `StringMap.assign` as `insert_or_assign` updates a map; the
order of the list stands for the iteration order of the map. Identifiers are
numbers handed out by `generate_id`; their text form belongs to the host.
-/

namespace Congelado

/-- A UUID: executions and task instances are named by one. -/
abbrev Uuid := ℕ

/-- A point on the system clock, in milliseconds. -/
abbrev Time := ℤ

/-! ### Flat string maps and dynamic values -/

/-- `std::unordered_map<std::string, std::string>`. -/
abbrev StringMap := List (String × String)

namespace StringMap

variable (m : StringMap)

/-- `find`: the value stored under a key. -/
def lookup (k : String) : Option String :=
  (m.find? (fun e => e.1 = k)).map Prod.snd

/-- `insert_or_assign`. -/
def assign (k v : String) : StringMap := Keyed.put Prod.fst (k, v) m

/-- `erase`. -/
def erase (k : String) : StringMap := m.filter (fun e => e.1 ≠ k)

/-- Assign every entry of the second map into the first. -/
def merge (m m' : StringMap) : StringMap := m'.foldl (fun acc e => acc.assign e.1 e.2) m

end StringMap

/-- `serde::Value`, the dynamic value a task instance stores as its input. -/
inductive Value
  | null
  | bool (b : Bool)
  | int (n : Int)
  | double (bits : UInt64)
  | str (s : String)
  | array (items : List Value)
  | object (fields : List (String × Value))

/-- `to_value_input`: a flat string map as an object of strings. -/
def toValueInput (input : StringMap) : Value :=
  .object (input.map fun e => (e.1, .str e.2))

/-! ### Statuses and task types -/

inductive WorkflowStatus
  | running
  | completed
  | failed
  | timedOut
  | paused
  | terminated
  deriving DecidableEq, Repr

/-- `is_terminal(WorkflowStatus)`. -/
def WorkflowStatus.isTerminal : WorkflowStatus → Bool
  | .completed | .failed | .timedOut | .terminated => true
  | .running | .paused => false

inductive TaskStatus
  | scheduled
  | inProgress
  | completed
  | failed
  | timedOut
  | skipped
  | canceled
  deriving DecidableEq, Repr

/-- `is_terminal(TaskStatus)`. -/
def TaskStatus.isTerminal : TaskStatus → Bool
  | .completed | .failed | .timedOut | .skipped | .canceled => true
  | .scheduled | .inProgress => false

/-- The two statuses that let a successor go ahead: `COMPLETED` and `SKIPPED`. -/
def TaskStatus.isDone : TaskStatus → Bool
  | .completed | .skipped => true
  | _ => false

theorem TaskStatus.isTerminal_of_isDone {s : TaskStatus} (h : s.isDone) : s.isTerminal := by
  cases s <;> first | rfl | exact absurd h (by decide)

inductive TaskType
  | simple
  | fork
  | join
  | switch
  | subWorkflow
  | dynamic
  | terminate
  | setVariable
  | noop
  | lambda
  | inline
  | jsonJqTransform
  | doWhile
  | forkJoinDynamic
  | startWorkflow
  | wait
  | human
  | event
  deriving DecidableEq, Repr

/-- What a worker reports for a task. -/
inductive TaskResult
  | success
  | failure
  | timeout
  | skipped
  deriving DecidableEq, Repr

/-! ### Policies and definitions -/

inductive RetryBackoff
  | fixed
  | exponential
  deriving DecidableEq, Repr

structure RetryPolicy where
  maxAttempts : UInt32 := 3
  backoff : RetryBackoff := .fixed
  intervalMs : UInt32 := 1000
  deriving DecidableEq, Repr

inductive TimeoutAction
  | retry
  | failWorkflow
  | alertOnly
  deriving DecidableEq, Repr

structure TimeoutPolicy where
  timeoutMs : UInt32 := 30000
  action : TimeoutAction := .failWorkflow
  deriving DecidableEq, Repr

structure RateLimitPolicy where
  maxConcurrent : UInt32 := 10
  deriving DecidableEq, Repr

structure TaskDef where
  name : String
  type : TaskType := .simple
  workerType : String := ""
  retry : RetryPolicy := {}
  timeout : TimeoutPolicy := {}
  rateLimit : Option RateLimitPolicy := none
  dynamicTaskParam : Option String := none
  waitDurationMs : Option UInt32 := none
  domain : Option String := none
  inputSchema : Option String := none
  enforceSchema : Bool := false
  deriving DecidableEq, Repr

/-- `InputMapping` and `OutputMapping`: copy the value of `source` to `target`. -/
structure Mapping where
  source : String
  target : String
  deriving DecidableEq, Repr

structure TaskEdge where
  fromRef : String
  toRef : String
  condition : Option String := none
  mappings : List Mapping := []
  deriving DecidableEq, Repr

inductive JoinType
  | all
  | any
  deriving DecidableEq, Repr

structure TaskNode where
  defName : String
  refName : String
  edges : List TaskEdge := []
  joinOn : List String := []
  joinType : JoinType := .all
  deriving DecidableEq, Repr

structure WorkflowDef where
  name : String := ""
  nodes : List TaskNode := []
  outputMappings : List Mapping := []
  failureWorkflow : Option String := none
  restartable : Bool := true
  workflowStatusListenerEnabled : Bool := false
  deriving DecidableEq, Repr

/-- The reference names of a definition's nodes, in order. -/
def WorkflowDef.refs (wdef : WorkflowDef) : List String := wdef.nodes.map TaskNode.refName

/-! ### Instances and executions -/

structure TaskInstance where
  taskId : Uuid
  defName : String
  nodeRef : String
  workflowExecId : Uuid
  status : TaskStatus := .scheduled
  seq : UInt32 := 0
  inputData : Value := .null
  outputData : StringMap := []
  retryCount : UInt32 := 0
  deadlineAt : Option Time := none
  nextRetryAt : Option Time := none
  subWorkflowExecId : Option Uuid := none

structure WorkflowExecution where
  execId : Uuid
  defName : String
  status : WorkflowStatus := .running
  vars : StringMap := []
  taskInstances : List TaskInstance := []
  parentExecId : Option Uuid := none

variable (exec : WorkflowExecution)

/-- `add_task_instance`. -/
def WorkflowExecution.addTaskInstance (inst : TaskInstance) : WorkflowExecution :=
  { exec with taskInstances := exec.taskInstances ++ [inst] }

/-- The node references an execution has an instance of, in order. -/
def WorkflowExecution.refs : List String :=
  exec.taskInstances.map TaskInstance.nodeRef

/-- The ids of the instances nested in an execution, in order. -/
def WorkflowExecution.taskIds : List Uuid :=
  exec.taskInstances.map TaskInstance.taskId

/-! ### Event handlers -/

inductive EventActionType
  | startWorkflow
  | completeTask
  | failTask
  | terminateWorkflow
  | updateWorkflowVariables
  deriving DecidableEq, Repr

structure EventAction where
  type : EventActionType
  payload : StringMap
  deriving DecidableEq, Repr

structure EventHandler where
  name : String
  event : String
  condition : Option String := none
  actions : List EventAction := []
  active : Bool := true
  deriving DecidableEq, Repr

end Congelado
