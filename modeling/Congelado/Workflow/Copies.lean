import Congelado.Workflow.Machine
import Congelado.Workflow.Stretch
import Congelado.Lib.Session

/-!
# Which executions an operation holds

A pending operation holds copies of executions: one of its own, which the chain
works on or writes, and one for each chain that is suspended inside the start of
another execution (`Frame`). `run_flow` says what running an operation does with
them, in the terms of `Session.Flow`: the copies before, the copies held by the
operations it issues, and the store before and after.

`Runs` says once what an operation can do, and `Runs.of_run` that the code does
nothing else; whatever later modules show of every operation they show case by case
for `Runs`.

`Changes` is what can happen to one copy in one step. Most of it is `Begins`,
where a stretch takes the copy over and how it prepares it, followed by the moves
of the stretch; the rest is the outcome of a failure, and the small changes of
status and variables that are written at once.
-/

namespace Congelado

open Orchestrator List

mutual

/-- The chains that wait for `done`. -/
def Done.frames : Done → List Frame
  | .insertExec callback => callback.frames
  | .updateExec => []
  | .updateExecThen _ => []

/-- The chains that wait for a start. -/
def StartCallback.frames : StartCallback → List Frame
  | .caller _ => []
  | .ignore => []
  | .startWorkflow exec wdef refName _ done => ⟨exec, wdef, [refName]⟩ :: done.frames
  | .subWorkflow exec wdef refs refName _ done => ⟨exec, wdef, refName :: refs⟩ :: done.frames

end

namespace Op

/-- The suspended chains of an operation, the innermost first. -/
def frames : Op → List Frame
  | .findDef _ (.start _ _ callback) => callback.frames
  | .findTaskDef _ (.spawnNext exec wdef refs _ refName _ done)
  | .findTaskDef _ (.dynamic exec wdef refs _ refName _ done) =>
    ⟨exec, wdef, refName :: refs⟩ :: done.frames
  | .insertExec _ callback => callback.frames
  | _ => []

/-- The execution an operation holds besides those of its suspended chains. -/
def own : Op → Option WorkflowExecution
  | .findDef _ (.onTaskTerminal _ exec) | .findDef _ (.sweepAdvance exec)
  | .findDef _ (.resume exec _) | .findDef _ (.retry exec _) | .findDef _ (.restart exec _)
  | .findDef _ (.rerun exec _ _ _) | .findDef _ (.reconcile exec _)
  | .findDef _ (.handleTimeout _ exec _ _) | .findTaskDef _ (.processTerminal _ exec _)
  | .insertExec exec _ | .updateExec exec _ => some exec
  | _ => none

/-- The execution an operation holds as it was read from the store. -/
def asRead : Op → Option WorkflowExecution
  | .findDef _ (.onTaskTerminal _ exec) | .findDef _ (.sweepAdvance exec)
  | .findDef _ (.retry exec _) | .findDef _ (.restart exec _) | .findDef _ (.rerun exec _ _ _)
  | .findDef _ (.reconcile exec _) | .findDef _ (.handleTimeout _ exec _ _) => some exec
  | _ => none

/-- The execution an operation writes to the store. -/
def writes : Op → Option WorkflowExecution
  | .insertExec exec _ | .updateExec exec _ => some exec
  | _ => none

/-- Whether the operation abandons the chains behind the one it works on: the node
is rejected, or the named sub-workflow does not exist, and `done` is not called. -/
def abandons {σ : Type} (w : World σ) : Op → Bool
  | .findTaskDef name (.spawnNext exec wdef refs input refName defName done) =>
    let taskDef := w.findTaskDef name (.spawnNext exec wdef refs input refName defName done)
    (dynamicTarget taskDef input).isNone && rejects taskDef input
  | .findTaskDef name (.dynamic _ _ _ input _ _ _) => rejects (w.taskDefs.find? name) input
  | .findDef name (.start _ _ (.subWorkflow _ _ _ _ _ _)) =>
    (w.workflowDefs.find? name).isNone
  | _ => false

/-- The executions an operation reads from the store for a chain to work on. -/
def reads {σ : Type} (H : Host σ) (w : World σ) : Op → List Uuid
  | .findExec _ (.signal _ _ _) | .findExec _ (.completeInstanceByRef _ _ _) => []
  | .findExec key _ => (w.findExec H key).toList.map WorkflowExecution.execId
  | .findAllExecs =>
    (w.execs.rows.filter fun exec => exec.status = .running).map WorkflowExecution.execId
  | _ => []

/-- The copies of executions an operation holds. -/
def copies (op : Op) : List WorkflowExecution := op.own.toList ++ op.frames.map Frame.exec

end Op

/-- The copies held by a list of operations. -/
def heldBy (ops : List Op) : List WorkflowExecution := ops.flatMap Op.copies

@[simp] theorem heldBy_nil : heldBy [] = [] := rfl

@[simp] theorem heldBy_cons (op : Op) (ops : List Op) :
    heldBy (op :: ops) = op.copies ++ heldBy ops := rfl

@[simp] theorem heldBy_append (ops ops' : List Op) :
    heldBy (ops ++ ops') = heldBy ops ++ heldBy ops' := flatMap_append

theorem mem_heldBy_enqueue {order : Callback.Order} {ops ops' : List Op} {x : WorkflowExecution} :
    x ∈ heldBy (order.enqueue ops ops') ↔ x ∈ heldBy ops ∨ x ∈ heldBy ops' := by
  unfold heldBy
  rw [((order.enqueue_perm ops ops').flatMap_right Op.copies).mem_iff, flatMap_append,
    mem_append]

/-- The row that an operation writes. -/
def Op.row : Op → Option TaskInstance
  | .insertInstance inst | .updateInstance inst _ => some inst
  | _ => none

theorem heldBy_eq_nil {ops : List Op} (h : ∀ op ∈ ops, op.copies = []) : heldBy ops = [] :=
  flatMap_eq_nil_iff.2 h

/-! ### Operations that hold nothing -/

section Quiet

variable {σ : Type} {H : Host σ} {wdef : WorkflowDef} {done : Done} {c c' : Cursor σ}
    (child : WorkflowExecution)

@[simp] theorem heldBy_onExecutionTerminal :
    heldBy (onExecutionTerminal child) = [] := by
  unfold onExecutionTerminal
  split <;> rfl

@[simp] theorem heldBy_publishEvent (event : String) (payload : StringMap) :
    heldBy (publishEvent event payload) = [] := rfl

@[simp] theorem heldBy_done (done : Done) (exec : WorkflowExecution) :
    heldBy (done.apply exec) = exec :: done.frames.map Frame.exec := by
  cases done <;> simp [Done.apply, Op.copies, Op.own, Op.frames, Done.frames]

/-- An operation that announces the end of an execution: the lookup of the status
listener and of the waiting parent, and the start of the failure workflow. -/
def Op.Announces : Op → Prop
  | .findDef _ (.onExecutionTerminal _ _) | .findDef _ (.start _ _ .ignore)
  | .findAllInstances (.onExecutionTerminal _) => True
  | _ => False

theorem announces_onExecutionTerminal :
    ∀ op ∈ onExecutionTerminal child, op.Announces := by
  refine forall_mem_cons.2 ⟨trivial, ?_⟩
  split
  · exact forall_mem_singleton.2 trivial
  · exact forall_mem_nil _

theorem announces_startFailureWorkflow (failureWorkflow : Option String) (vars : StringMap) :
    ∀ op ∈ startFailureWorkflow failureWorkflow vars, op.Announces := by
  cases failureWorkflow with
  | none => exact forall_mem_nil _
  | some name => exact forall_mem_singleton.2 trivial

theorem Op.Announces.copies {op : Op} (h : op.Announces) : op.copies = [] := by
  unfold Op.Announces at h
  split at h <;> first | rfl | exact h.elim

variable (inst : TaskInstance)

/-- What a failed execution leaves behind: both are written, and its end is
announced. -/
theorem failExecution_eq (failureWorkflow : Option String) (c : Cursor σ) :
    ∃ tail, failExecution inst failureWorkflow c =
        c.close (.updateInstance inst .log ::
          .updateExec (syncInstance { c.exec with status := .failed } inst) .log :: tail) ∧
      ∀ op ∈ tail, op.Announces := by
  exact ⟨_, rfl, forall_mem_append.2
    ⟨announces_onExecutionTerminal _, announces_startFailureWorkflow _ _⟩⟩

theorem handleFailure_eq (wdef : WorkflowDef) (retry : RetryPolicy)
    (c : Cursor σ) :
    ∃ tail, handleFailure inst wdef retry c =
        c.close (.updateInstance (afterFailure c.world.now retry inst c.exec).1 .log ::
          .updateExec (afterFailure c.world.now retry inst c.exec).2 .log :: tail) ∧
      ∀ op ∈ tail, op.Announces := by
  unfold handleFailure afterFailure
  split
  · exact ⟨[], rfl, forall_mem_nil _⟩
  · exact failExecution_eq inst wdef.failureWorkflow c

section

variable (hc : heldBy c.ops = [])

include hc

/-- Both are written, and nothing else is held. -/
theorem heldBy_close_failed {tail : List Op}
    (htail : ∀ op ∈ tail, op.Announces) (inst : TaskInstance) (exec : WorkflowExecution) :
    heldBy (c.close (.updateInstance inst .log :: .updateExec exec .log :: tail)).2 = [exec] := by
  have hnone : heldBy tail = [] := heldBy_eq_nil fun op hop => (htail op hop).copies
  simp [Cursor.close, hc, hnone, Op.copies, Op.own, Op.frames]

theorem heldBy_failExecution (inst : TaskInstance)
    (failureWorkflow : Option String) :
    heldBy (failExecution inst failureWorkflow c).2 =
      [syncInstance { c.exec with status := .failed } inst] := by
  obtain ⟨tail, heq, htail⟩ := failExecution_eq inst failureWorkflow c
  rw [heq, heldBy_close_failed hc htail]

theorem heldBy_handleFailure (inst : TaskInstance) (retry : RetryPolicy) :
    heldBy (handleFailure inst wdef retry c).2 =
      [(afterFailure c.world.now retry inst c.exec).2] := by
  obtain ⟨tail, heq, htail⟩ := handleFailure_eq inst wdef retry c
  rw [heq, heldBy_close_failed hc htail]

end

/-- No move issues an operation that holds an execution. -/
theorem Orchestrator.Move.heldBy_ops (h : Move H wdef c c') (hc : heldBy c.ops = []) :
    heldBy c'.ops = [] := by
  cases h with
  | lua | pass | vars => exact hc
  | spawn inst new => simp [Cursor.spawn, hc, Op.copies, Op.own, Op.frames]
  | publish event payload => simp [Cursor.issue, hc]
  | complete running done =>
    rw [maybeComplete_eq running done]
    simp [Cursor.issue, Cursor.record, Cursor.setVars, Cursor.setStatus, hc]
  | terminate running status terminal =>
    simp [Cursor.issue, Cursor.setStatus, hc]

theorem moves_heldBy_ops (h : Moves H wdef c c')
    (hc : heldBy c.ops = []) : heldBy c'.ops = [] :=
  moves_rule (P := fun d => heldBy d.ops = []) h hc fun _ _ hm => hm.heldBy_ops

/-- An exit hands on one execution, together with the chains that wait for `done`
unless it fails. -/
theorem Orchestrator.Exit.heldBy {fails : Bool} {r : World σ × List Op} {y : WorkflowExecution}
    (h : Exit wdef done fails c r y) (hc : heldBy c.ops = []) :
    Congelado.heldBy r.2 = y :: if fails then [] else done.frames.map Frame.exec := by
  cases h with
  | yield => simp [Cursor.close, hc]
  | spawn refs input refName defName ready =>
    simp [Cursor.close, hc, Op.copies, Op.own, Op.frames]
  | startWorkflow | subWorkflow =>
    simp [Cursor.close, hc, start, Op.copies, Op.own, Op.frames, StartCallback.frames]
  | fail _ inst retry failing => exact heldBy_handleFailure hc inst retry
  | orphan _ inst retry new status =>
    exact heldBy_handleFailure (c := c.create inst) hc inst retry

end Quiet

/-! ### Where a stretch takes an execution over -/

section Begins

variable {σ : Type}

/-- A suspended chain that waits for a start goes on. -/
inductive Resumes : StartCallback → WorkflowDef → Done → WorkflowExecution → Prop
  | startWorkflow (exec : WorkflowExecution) (wdef : WorkflowDef) (refName defName : String)
      (done : Done) : Resumes (.startWorkflow exec wdef refName defName done) wdef done exec
  | subWorkflow (exec : WorkflowExecution) (wdef : WorkflowDef) (refs : List String)
      (refName defName : String) (done : Done) :
      Resumes (.subWorkflow exec wdef refs refName defName done) wdef done exec

/-- An operation begins a stretch on the copy `x` it holds: under a definition,
with a `done`, and with the execution prepared in a cursor. -/
inductive Begins (w : World σ) :
    Op → WorkflowDef → Done → WorkflowExecution → Cursor σ → Prop
  | sweepAdvance {name wdef x} (hdef : w.findDef name (.sweepAdvance x) = some wdef) :
      Begins w (.findDef name (.sweepAdvance x)) wdef .updateExec x (.start w x)
  | resume {name wdef x caller} (hdef : w.findDef name (.resume x caller) = some wdef) :
      Begins w (.findDef name (.resume x caller)) wdef (.updateExecThen caller) x (.start w x)
  | reconcile {name wdef x caller} (hdef : w.findDef name (.reconcile x caller) = some wdef) :
      Begins w (.findDef name (.reconcile x caller)) wdef (.updateExecThen caller) x (.start w x)
  | deliver {name wdef inst x} (hdef : w.findDef name (.onTaskTerminal inst x) = some wdef)
      (hdone : inst.status.isDone = true) :
      Begins w (.findDef name (.onTaskTerminal inst x)) wdef .updateExec x
        (.start w (syncInstance x inst))
  | retry {name wdef x caller} (hdef : w.findDef name (.retry x caller) = some wdef)
      (hrestart : wdef.restartable = true) :
      Begins w (.findDef name (.retry x caller)) wdef (.updateExecThen caller) x
        ((Cursor.start w { x with
          taskInstances := x.taskInstances.map retryInstance, status := .running }).issue
            (retryUpdates x.taskInstances))
  | restart {name wdef x caller} (hdef : w.findDef name (.restart x caller) = some wdef)
      (hrestart : wdef.restartable = true) :
      Begins w (.findDef name (.restart x caller)) wdef (.updateExecThen caller) x
        (.start (w.record (.restarted x.execId))
          { x with taskInstances := [], status := .running })
  | rerun {name wdef nodeRef inst x input caller}
      (hdef : w.findDef name (.rerun x nodeRef input caller) = some wdef)
      (hinst : findInstance x.taskInstances nodeRef = some inst)
      (hrestart : wdef.restartable = true) :
      Begins w (.findDef name (.rerun x nodeRef input caller)) wdef (.updateExecThen caller) x
        ((Cursor.start w { x with
          taskInstances := Keyed.put TaskInstance.nodeRef
            { resetInstance inst with inputData := input } x.taskInstances
          status := .running }).issue
            [.updateInstance { resetInstance inst with inputData := input } .log])
  | spawnNext {name x wdef refs input refName defName done} :
      Begins w (.findTaskDef name (.spawnNext x wdef refs input refName defName done)) wdef done x
        (.start w x)
  | dynamic {name x wdef refs input refName defName done} :
      Begins w (.findTaskDef name (.dynamic x wdef refs input refName defName done)) wdef done x
        (.start w x)
  | noChild {name vars parent callback wdef done x} (h : Resumes callback wdef done x) :
      Begins w (.findDef name (.start vars parent callback)) wdef done x (.start w x)
  | child {callback wdef done x child} (h : Resumes callback wdef done x) :
      Begins w (.insertExec child callback) wdef done x (.start (w.putExec child) x)

/-- What happens to a copy of an execution in one step. -/
inductive Changes (H : Host σ) (w : World σ) (op : Op) (r : World σ × List Op) :
    WorkflowExecution → WorkflowExecution → Prop
  /-- handed on as it is -/
  | same (x : WorkflowExecution) : Changes H w op r x x
  /-- `pause`, `resume`, `terminate` and the terminating event action -/
  | status (x : WorkflowExecution) (status : WorkflowStatus)
      (live : x.status.isTerminal = false) : Changes H w op r x { x with status := status }
  /-- the event action that sets variables -/
  | vars (x : WorkflowExecution) (vars : StringMap) : Changes H w op r x { x with vars := vars }
  /-- a result that does not let the execution go on is only taken over -/
  | sync (x : WorkflowExecution) (name : String) (inst : TaskInstance)
      (hop : op = .findDef name (.onTaskTerminal inst x)) :
      Changes H w op r x (syncInstance x inst)
  /-- a failed or timed out instance -/
  | fail (x : WorkflowExecution) (inst : TaskInstance) (wdef : WorkflowDef) (retry : RetryPolicy)
      (hop : (∃ name, op = .findTaskDef name (.processTerminal inst x wdef)) ∨
        ∃ name, op = .findDef name (.handleTimeout inst x retry true))
      (hr : r = handleFailure inst wdef retry (.start w x)) :
      Changes H w op r x (afterFailure w.now retry inst x).2
  /-- a timeout that fails the workflow -/
  | failNow (x : WorkflowExecution) (name : String) (inst : TaskInstance) (retry : RetryPolicy)
      (failureWorkflow : Option String)
        (hop : op = .findDef name (.handleTimeout inst x retry false))
      (hr : r = failExecution inst failureWorkflow (.start w x)) :
      Changes H w op r x (syncInstance { x with status := .failed } inst)
  /-- a stretch -/
  | stretch {x y : WorkflowExecution} {wdef : WorkflowDef} {done : Done} {fails : Bool}
      {c c' : Cursor σ} (begins : Begins w op wdef done x c)
      (moves : Relation.ReflTransGen (Move H wdef) c c')
      (exit : Exit wdef done fails c' r y) : Changes H w op r x y

/-- An execution that is new: made by `start`, and advanced once. -/
def Born (H : Host σ) (w : World σ) (op : Op) (r : World σ × List Op)
    (y : WorkflowExecution) : Prop :=
  ∃ name vars parent callback wdef c',
    op = .findDef name (.start vars parent callback) ∧
    w.workflowDefs.find? name = some wdef ∧
    Relation.ReflTransGen (Move H wdef) (Cursor.launch w wdef vars parent) c' ∧
    Exit wdef (.insertExec callback) false c' r y

end Begins

/-! ### What no step changes -/

section Version

variable {σ : Type} {H : Host σ} {w : World σ} {op : Op} {wdef : WorkflowDef} {done : Done}
  {fails : Bool} {c c' : Cursor σ} {x y z : WorkflowExecution} {r : World σ × List Op}

/-- The second execution is a version of the first: its id and the name of its
definition are the same. -/
structure Version (x y : WorkflowExecution) : Prop where
  execId : y.execId = x.execId
  defName : y.defName = x.defName

theorem Version.refl (x : WorkflowExecution) : Version x x := ⟨rfl, rfl⟩

theorem Version.trans (h₁ : Version x y) (h₂ : Version y z) : Version x z :=
  ⟨h₂.execId.trans h₁.execId, h₂.defName.trans h₁.defName⟩

theorem Orchestrator.Move.version (h : Move H wdef c c') : Version c.exec c'.exec := by
  cases h with
  | complete running done =>
    rw [maybeComplete_eq running done]
    exact ⟨rfl, rfl⟩
  | _ => exact ⟨rfl, rfl⟩

theorem moves_version (h : Moves H wdef c c') : Version c.exec c'.exec :=
  moves_rule (P := fun d => Version c.exec d.exec) h (.refl _) fun _ _ hm hd => hd.trans hm.version

theorem afterFailure_version (now : Time) (retry : RetryPolicy) (inst : TaskInstance)
    (x : WorkflowExecution) : Version x (afterFailure now retry inst x).2 := by
  unfold afterFailure
  split <;> exact ⟨rfl, rfl⟩

theorem Orchestrator.Exit.version (h : Exit wdef done fails c r y) : Version c.exec y := by
  cases h with
  | fail | orphan => exact afterFailure_version _ _ _ _
  | _ => exact .refl _

theorem Begins.version (h : Begins w op wdef done x c) : Version x c.exec := by
  cases h <;> exact ⟨rfl, rfl⟩

theorem Changes.version (h : Changes H w op r x y) : Version x y := by
  cases h with
  | fail inst wdef retry hop hr => exact afterFailure_version _ _ _ _
  | stretch begins moves exit =>
    exact (begins.version.trans (moves_version moves)).trans exit.version
  | _ => exact ⟨rfl, rfl⟩

/-- A new execution is made under the next identifier. -/
theorem Born.execId (h : Born H w op r y) : y.execId = w.fresh := by
  obtain ⟨name, vars, parent, callback, wdef, c', -, -, hmoves, hexit⟩ := h
  exact hexit.version.execId.trans (moves_version hmoves).execId

end Version

/-! ### What running an operation does -/

section Runs

variable {σ : Type} {H : Host σ} {w : World σ}

/-- The event is the answer of a call. -/
def Event.IsAnswer : Event → Prop
  | .answered _ _ | .started _ _ | .claimed _ _ | .requeued _ _ => True
  | _ => False

/-- At most an answer was recorded. -/
def Answered (w w' : World σ) : Prop := w' = w ∨ ∃ e : Event, e.IsAnswer ∧ w' = w.record e

theorem answered_answer {caller : Caller} {ok : Bool} : Answered w (w.answer caller ok) :=
  .inr ⟨.answered caller ok, trivial, rfl⟩

theorem Answered.later {w' : World σ} (h : Answered w w') : w.Later w' := by
  obtain rfl | ⟨e, -, rfl⟩ := h
  · exact .refl _
  · exact World.later_record _ _

/-- An operation that an event action issues. -/
def Op.Acts : Op → Prop
  | .findDef _ (.start _ _ .ignore) | .findExec _ (.completeInstanceByRef _ _ _)
  | .findExec _ (.eventTerminate _) | .findExec _ (.eventUpdateVariables _) => True
  | _ => False

theorem acts_executeEventAction (action : EventAction) :
    ∀ o ∈ executeEventAction action, o.Acts := by
  unfold executeEventAction
  split <;> (repeat split) <;>
    first | exact forall_mem_singleton.2 trivial | exact forall_mem_nil _

/-- Handlers evaluate their conditions and issue their actions. -/
theorem fireHandlers_eq (event : String) (payload : StringMap) (handlers : List EventHandler)
    (w : World σ) : ∃ lua ops, fireHandlers H event payload handlers w = (w.setLua lua, ops) ∧
      ∀ o ∈ ops, o.Acts := by
  induction handlers generalizing w with
  | nil => exact ⟨w.lua, [], rfl, forall_mem_nil _⟩
  | cons handler handlers ih =>
    unfold fireHandlers
    split
    · obtain ⟨lua, ops, heq, hops⟩ := ih (w.setLua (handlerConditionOk H w.lua handler payload).2)
      simp only [heq]
      refine ⟨lua, _, rfl, forall_mem_append.2 ⟨fun o ho => ?_, hops⟩⟩
      split at ho
      · obtain ⟨action, -, ho⟩ := mem_flatMap.1 ho
        exact acts_executeEventAction action o ho
      · exact absurd ho not_mem_nil
    · exact ih w

/-- What running an operation does: a stretch, or the small step of one callback that
passes on what it has read, writes it, or answers and stops. -/
inductive Runs (H : Host σ) (w : World σ) : Op → World σ × List Op → Prop
  /-- a stretch on a copy that the operation holds -/
  | stretch {op wdef done x c fails r} (begins : Begins w op wdef done x c)
      (run : Stretch H wdef done fails c r)
      (abandons : fails = true → op.abandons w = true) : Runs H w op r
  /-- a new execution and its first stretch -/
  | launch {name wdef vars parent callback} (hdef : w.workflowDefs.find? name = some wdef) :
      Runs H w (.findDef name (.start vars parent callback))
        (advance H wdef (.insertExec callback) (.launch w wdef vars parent))
  | fail {name inst x wdef policy} : Runs H w (.findTaskDef name (.processTerminal inst x wdef))
      (handleFailure inst wdef policy (.start w x))
  | timedOut {name inst x policy} (wdef : WorkflowDef) :
      Runs H w (.findDef name (.handleTimeout inst x policy true))
      (handleFailure inst wdef policy (.start w x))
  | failNow {name inst x policy} (failureWorkflow : Option String) :
      Runs H w (.findDef name (.handleTimeout inst x policy false))
        (failExecution inst failureWorkflow (.start w x))
  /-- nothing is issued, and a copy that was read is dropped -/
  | stop {w' op} (hcopies : op.copies = op.asRead.toList) (hrow : op.row = none)
      (hanswer : Answered w w') : Runs H w op (w', [])
  | listen {name execId status event payload} :
      Runs H w (.findDef name (.onExecutionTerminal execId status))
        (w, publishEvent event payload)
  /-- the retries of a failed instance are looked up -/
  | judge {name wdef inst x} (hdef : w.workflowDefs.find? name = some wdef)
      (hfailed : inst.status = .failed ∨ inst.status = .timedOut) :
      Runs H w (.findDef name (.onTaskTerminal inst x))
        (w, [.findTaskDef inst.defName (.processTerminal inst (syncInstance x inst) wdef)])
  | takeOver {name inst x} : Runs H w (.findDef name (.onTaskTerminal inst x))
      (w, [.updateExec (syncInstance x inst) .log])
  | resumeUndefined {name x caller} : Runs H w (.findDef name (.resume x caller))
      (w, [.updateExec x (.answer caller)])
  /-- a `DYNAMIC` node looks up the task it stands for -/
  | redirect {name x wdef refs input refName defName done target} :
      Runs H w (.findTaskDef name (.spawnNext x wdef refs input refName defName done))
        (w, [.findTaskDef target (.dynamic x wdef refs input refName defName done)])
  /-- the end of a `WAIT` -/
  | waited {name inst} (hwait : ((w.findTaskDef name (.handleTimeout inst)).any fun t =>
        t.type = .wait) = true) :
      Runs H w (.findTaskDef name (.handleTimeout inst))
        (w, onTaskTerminal H { inst with status := .completed })
  | expired {name inst policy retryAction} : Runs H w (.findTaskDef name (.handleTimeout inst))
      (w, [.findExec (H.format inst.workflowExecId)
        (.handleTimeout { inst with status := .timedOut } policy retryAction)])
  | claim {name inst caller deadline} : Runs H w (.findTaskDef name (.claim inst caller))
      (w, [.updateInstance { inst with deadlineAt := deadline } (.claim caller)])
  | deliver {key x inst} (hfind : w.findExec H key = some x) (live : x.status.isTerminal = false) :
      Runs H w (.findExec key (.onTaskTerminal inst))
        (w, [.findDef x.defName (.onTaskTerminal inst x)])
  | timeOut {key x inst policy retryAction} (hfind : w.findExec H key = some x)
      (live : x.status.isTerminal = false) :
      Runs H w (.findExec key (.handleTimeout inst policy retryAction))
        (w, [.findDef x.defName (.handleTimeout inst x policy retryAction)])
  /-- the execution of an instance that timed out is over -/
  | lapse {key inst policy retryAction}
      (hover : ((w.findExec H key).any fun x => x.status.isTerminal = false) = false) :
      Runs H w (.findExec key (.handleTimeout inst policy retryAction))
        (w, [.updateInstance inst .log])
  | pause {key x caller} (hfind : w.findExec H key = some x) (hrun : x.status = .running) :
      Runs H w (.findExec key (.pause caller))
        (w, [.updateExec { x with status := .paused } (.answer caller)])
  | resume {key x caller} (hfind : w.findExec H key = some x) (hpaused : x.status = .paused) :
      Runs H w (.findExec key (.resume caller))
        (w, [.findDef x.defName (.resume { x with status := .running } caller)])
  | retry {key x caller} (hfind : w.findExec H key = some x) :
      Runs H w (.findExec key (.retry caller))
      (w, [.findDef x.defName (.retry x caller)])
  | restart {key x caller} (hfind : w.findExec H key = some x) :
      Runs H w (.findExec key (.restart caller))
      (w, [.findDef x.defName (.restart x caller)])
  | rerun {key x nodeRef input caller} (hfind : w.findExec H key = some x) :
      Runs H w (.findExec key (.rerun nodeRef input caller))
        (w, [.findDef x.defName (.rerun x nodeRef input caller)])
  | reconcile {key x caller} (hfind : w.findExec H key = some x) :
      Runs H w (.findExec key (.reconcile caller))
      (w, [.findDef x.defName (.reconcile x caller)])
  | signal {key x nodeRef inst payload caller output} (hfind : w.findExec H key = some x)
      (hinst : x.taskInstances.find? (fun inst =>
        inst.nodeRef = nodeRef ∧ inst.status = .inProgress) = some inst) :
      Runs H w (.findExec key (.signal nodeRef payload caller)) (w.answer caller true,
        .updateInstance { inst with status := .completed, outputData := output } .log ::
          onTaskTerminal H { inst with status := .completed, outputData := output })
  | complete {key x nodeRef inst status payload output} (hfind : w.findExec H key = some x)
      (hinst : Orchestrator.findInstance x.taskInstances nodeRef = some inst) :
      Runs H w (.findExec key (.completeInstanceByRef nodeRef status payload)) (w,
        .updateInstance { inst with status := status, outputData := output } .log ::
          onTaskTerminal H { inst with status := status, outputData := output })
  | terminate {key x caller} (hfind : w.findExec H key = some x)
      (live : x.status.isTerminal = false) :
      Runs H w (.findExec key (.terminate caller)) (w, [.updateExec
        { x with status := .terminated } (.terminate { x with status := .terminated } caller)])
  | eventTerminate {key x status} (hfind : w.findExec H key = some x)
      (live : x.status.isTerminal = false) :
      Runs H w (.findExec key (.eventTerminate status)) (w,
        .updateExec { x with status := status } .log ::
          onExecutionTerminal { x with status := status })
  | setVars {key x updates vars} (hfind : w.findExec H key = some x) :
      Runs H w (.findExec key (.eventUpdateVariables updates))
        (w, [.updateExec { x with vars := vars } .log])
  | fetch {key inst} (hfind : w.findInstance H key = some inst) :
      Runs H w (.findInstance key (.onTaskTerminal none)) (w, onTaskTerminal H inst)
  | report {key inst caller} (hfind : w.findInstance H key = some inst) :
      Runs H w (.findInstance key (.onTaskTerminal (some caller)))
        (w.answer caller true, onTaskTerminal H inst)
  | submit {key inst result output caller} (hfind : w.findInstance H key = some inst) :
      Runs H w (.findInstance key (.submitResult result output caller)) (w, [.updateInstance
        { inst with status := result.toStatus, outputData := output } (.submitResult caller)])
  | propagate {inst} {child : WorkflowExecution} (hfind : w.instances.rows.find? (fun inst =>
        inst.subWorkflowExecId = some child.execId) = some inst) :
      Runs H w (.findAllInstances (.onExecutionTerminal child)) (w,
        .updateInstance (propagate child inst) .log :: onTaskTerminal H (propagate child inst))
  | sweepTimeouts {now} : Runs H w (.findAllInstances (.sweepTimeouts now))
      (w, (w.instances.rows.filter (Congelado.expired now)).flatMap handleTimeout)
  | sweepRetries {now} : Runs H w (.findAllInstances (.sweepRetries now))
      (w, (w.instances.rows.filter (retryDue now)).map fun inst => .updateInstance
        { inst with status := .scheduled, nextRetryAt := none, outputData := [] } .log)
  | requeue {w' names caller} (hanswer : Answered w w') :
      Runs H w (.findAllInstances (.requeue names caller)) (w', (w.instances.rows.filter
        fun inst => inst.status = .inProgress ∧ inst.defName ∈ names).map fun inst =>
          .updateInstance { inst with status := .scheduled } .log)
  | findFirst {workerType domain inst caller}
      (hfirst : firstBySeq (w.instances.rows.filter (claimable w workerType domain)) =
        some inst) :
      Runs H w (.findFirst workerType domain caller)
        (w, [.findTaskDef inst.defName (.claim { inst with status := .inProgress } caller)])
  | findAllExecs : Runs H w .findAllExecs
      (w, (w.execs.rows.filter fun exec => exec.status = .running).map fun exec =>
        .findDef exec.defName (.sweepAdvance exec))
  | findAllTaskDefs {caller names} {workerType : String} :
      Runs H w (.findAllTaskDefs workerType caller)
        (w, [.findAllInstances (.requeue names caller)])
  | handlers {ops event payload lua} (hops : ∀ o ∈ ops, o.Acts) :
      Runs H w (.findAllHandlers event payload)
      (w.setLua lua, ops)
  /-- an execution is written that no suspended chain waits for -/
  | insertExec {x w' callback} (hframes : callback.frames = [])
      (hanswer : Answered (w.putExec x) w') :
      Runs H w (.insertExec x callback) (w', [])
  | updateExec {x w' ops written} (hanswer : Answered (w.putExec x) w')
      (hops : ∀ o ∈ ops, o.Announces) : Runs H w (.updateExec x written) (w', ops)
  | insertInstance {inst} : Runs H w (.insertInstance inst)
      ((w.putInstance inst).record (.inserted inst), [])
  | updateInstance {inst w' written} (hanswer : Answered (w.putInstance inst) w') :
      Runs H w (.updateInstance inst written) (w', [])
  /-- the row that was written is fetched next -/
  | submitted {inst w' caller} (hanswer : Answered (w.putInstance inst) w') :
      Runs H w (.updateInstance inst (.submitResult caller))
        (w', [.findInstance (H.format inst.taskId) (.onTaskTerminal none)])

variable {op : Op} {wdef : WorkflowDef} {done : Done} {x : WorkflowExecution} {name key : String}

/-- Whether a start callback abandons its chain: a sub-workflow that does not exist. -/
def StartCallback.fails : StartCallback → Option WorkflowExecution → Bool
  | .subWorkflow _ _ _ _ _ _, none => true
  | _, _ => false

/-- The callback of a start lets the suspended chain go on. -/
theorem Resumes.stretch {callback : StartCallback} (h : Resumes callback wdef done x)
    (hready : ∀ f ∈ callback.frames, Ready w f) (child : Option WorkflowExecution) :
    Stretch H wdef done (callback.fails child) (.start w x) (callback.apply H child w) := by
  cases h with
  | startWorkflow _ _ refName _ _ =>
    have hr : Ready (Cursor.start w x).world ⟨(Cursor.start w x).exec, wdef, [refName]⟩ :=
      hready _ (.head _)
    cases child with
    | none =>
      exact spawn_advance_stretch
        (hr.new rfl rfl rfl (show TaskStatus.failed ≠ .skipped by decide) rfl)
    | some child =>
      exact spawn_advance_stretch
        (hr.new rfl rfl rfl (show TaskStatus.completed ≠ .skipped by decide) rfl)
  | subWorkflow _ _ refs refName _ _ =>
    have hr : Ready (Cursor.start w x).world
        ⟨(Cursor.start w x).exec, wdef, refName :: refs⟩ := hready _ (.head _)
    cases child with
    | none =>
      exact Exit.stretch (.orphan (.start w x) _ _
        (hr.new rfl rfl rfl (show TaskStatus.failed ≠ .skipped by decide) rfl) rfl)
    | some child =>
      exact spawn_spawnNext_stretch hr rfl
        (hr.new rfl rfl rfl (show TaskStatus.inProgress ≠ .skipped by decide) rfl)

/-- A start callback resumes a suspended chain, or it answers. -/
theorem StartCallback.cases_resumes (callback : StartCallback) :
    (∃ wdef done x, Resumes callback wdef done x) ∨
      callback.frames = [] ∧ ∀ (child : Option WorkflowExecution) (w : World σ),
        ∃ w', Answered w w' ∧ callback.apply H child w = (w', []) := by
  cases callback with
  | caller id => exact .inr ⟨rfl, fun _ _ => ⟨_, .inr ⟨.started id _, trivial, rfl⟩, rfl⟩⟩
  | ignore => exact .inr ⟨rfl, fun _ _ => ⟨_, .inl rfl, rfl⟩⟩
  | startWorkflow exec wdef refName defName done =>
    exact .inl ⟨wdef, done, exec, .startWorkflow ..⟩
  | subWorkflow exec wdef refs refName defName done =>
    exact .inl ⟨wdef, done, exec, .subWorkflow ..⟩

variable (callback : DefCallback)

theorem runs_found (hdef : w.findDef name callback = some wdef) :
    Runs H w (.findDef name callback) (callback.found H wdef w) := by
  have advances : ∀ {op : Op} {done : Done} {x : WorkflowExecution} {c : Cursor σ},
      Begins w op wdef done x c → Runs H w op (advance H wdef done c) := fun h =>
    .stretch h (advance_stretch _ _ _ _) nofun
  cases callback with
  | start => exact .launch (World.find?_of_findDef hdef)
  | onExecutionTerminal =>
    rw [DefCallback.found]
    split
    · exact .listen
    · exact .stop rfl rfl (.inl rfl)
  | onTaskTerminal inst x =>
    rw [DefCallback.found, processTerminal]
    split
    · next hfailed => exact .judge (World.find?_of_findDef hdef) hfailed
    · split
      · next hdone => exact advances (.deliver hdef hdone)
      · exact .takeOver
  | sweepAdvance x => exact advances (.sweepAdvance hdef)
  | resume x caller => exact advances (.resume hdef)
  | retry x caller =>
    rw [DefCallback.found]
    split
    · next hrestart => exact advances (.retry hdef hrestart)
    · exact .stop rfl rfl answered_answer
  | restart x caller =>
    rw [DefCallback.found]
    split
    · next hrestart => exact advances (.restart hdef hrestart)
    · exact .stop rfl rfl answered_answer
  | rerun x nodeRef input caller =>
    rw [DefCallback.found]
    split
    · next hrestart =>
      split
      · exact .stop rfl rfl answered_answer
      · next hinst => exact advances (.rerun hdef hinst hrestart)
    · exact .stop rfl rfl answered_answer
  | reconcile x caller => exact advances (.reconcile hdef)
  | handleTimeout inst x policy retryAction =>
    cases retryAction with
    | true => exact .timedOut wdef
    | false => exact .failNow wdef.failureWorkflow

theorem runs_missing (hdef : w.findDef name callback = none)
    (hready : ∀ f ∈ (Op.findDef name callback).frames, Ready w f) :
    Runs H w (.findDef name callback) (callback.missing H w) := by
  cases callback with
  | start vars parent cb =>
    rcases StartCallback.cases_resumes (H := H) cb with ⟨wdef, done, x, h⟩ | ⟨hframes, hquiet⟩
    · refine .stretch (.noChild h) (h.stretch hready none) ?_
      intro hfails
      cases h with
      | startWorkflow => cases hfails
      | subWorkflow => exact Option.isNone_iff_eq_none.2 hdef
    · obtain ⟨w', hanswer, heq⟩ := hquiet none w
      rw [DefCallback.missing, heq]
      exact .stop (by simp [Op.copies, Op.own, Op.frames, Op.asRead, hframes]) rfl hanswer
  | onExecutionTerminal | onTaskTerminal | sweepAdvance => exact .stop rfl rfl (.inl rfl)
  | resume => exact .resumeUndefined
  | retry | restart | rerun | reconcile => exact .stop rfl rfl answered_answer
  | handleTimeout inst x policy retryAction =>
    cases retryAction with
    | true => exact .timedOut {}
    | false => exact .failNow none

theorem runs_taskDef (callback : TaskDefCallback)
    (hready : ∀ f ∈ (Op.findTaskDef name callback).frames, Ready w f) :
    Runs H w (.findTaskDef name callback) (callback.apply H (w.findTaskDef name callback) w) := by
  cases callback with
  | spawnNext x wdef refs input refName defName done =>
    rw [TaskDefCallback.apply]
    split
    · exact .redirect
    · next htarget =>
      refine .stretch (.spawnNext) (spawnWithDef_stretch (hready _ (.head _)) _ _)
        fun hrejects => ?_
      rw [Op.abandons, htarget, hrejects]
      rfl
  | dynamic x wdef refs input refName defName done =>
    exact .stretch (.dynamic) (spawnWithDef_stretch (hready _ (.head _)) _ _) id
  | processTerminal => exact .fail
  | handleTimeout inst =>
    rw [TaskDefCallback.apply, applyTimeout]
    split
    · next hwait => exact .waited hwait
    · dsimp only
      split
      · exact .stop rfl rfl (.inl rfl)
      · exact .expired
  | claim => exact .claim

theorem runs_exec (callback : ExecCallback) (hfind : w.findExec H key = some x) :
    Runs H w (.findExec key callback) (callback.found H x w) := by
  cases callback with
  | onTaskTerminal =>
    rw [ExecCallback.found]
    split
    · exact .stop rfl rfl (.inl rfl)
    · next hlive => exact .deliver hfind (by simpa using hlive)
  | pause =>
    rw [ExecCallback.found]
    split
    · next hrun => exact .pause hfind hrun
    · exact .stop rfl rfl answered_answer
  | resume =>
    rw [ExecCallback.found]
    split
    · next hpaused => exact .resume hfind hpaused
    · exact .stop rfl rfl answered_answer
  | retry =>
    rw [ExecCallback.found]
    split
    · exact .retry hfind
    · exact .stop rfl rfl answered_answer
  | restart =>
    rw [ExecCallback.found]
    split
    · exact .restart hfind
    · exact .stop rfl rfl answered_answer
  | rerun => exact .rerun hfind
  | reconcile => exact .reconcile hfind
  | signal =>
    rw [ExecCallback.found]
    split
    · exact .stop rfl rfl answered_answer
    · next hinst => exact .signal hfind hinst
  | completeInstanceByRef =>
    rw [ExecCallback.found]
    split
    · exact .stop rfl rfl (.inl rfl)
    · next hinst => exact .complete hfind hinst
  | terminate =>
    rw [ExecCallback.found]
    split
    · exact .stop rfl rfl answered_answer
    · next hlive => exact .terminate hfind (by simpa using hlive)
  | eventTerminate =>
    rw [ExecCallback.found]
    split
    · exact .stop rfl rfl (.inl rfl)
    · next hlive => exact .eventTerminate hfind (by simpa using hlive)
  | eventUpdateVariables => exact .setVars hfind
  | handleTimeout =>
    rw [ExecCallback.found]
    split
    · next hover => exact .lapse (by simp [hfind, hover])
    · next hlive => exact .timeOut hfind (by simpa using hlive)

theorem runs_instances (callback : InstancesCallback) :
    Runs H w (.findAllInstances callback) (callback.apply H w.instances.rows w) := by
  cases callback with
  | onExecutionTerminal =>
    rw [InstancesCallback.apply]
    split
    · exact .stop rfl rfl (.inl rfl)
    · next hfind => exact .propagate hfind
  | sweepTimeouts => exact .sweepTimeouts
  | sweepRetries => exact .sweepRetries
  | requeue names caller => exact .requeue (.inr ⟨.requeued caller _, trivial, rfl⟩)

/-- **Inversion.** The code does one of the things that `Runs` lists. -/
theorem Runs.of_run (hready : ∀ f ∈ op.frames, Ready w f) : Runs H w op (op.run H w) := by
  cases op with
  | findDef name callback =>
    rw [Op.run]
    split
    · next hdef => exact runs_found callback hdef
    · next hdef => exact runs_missing callback hdef hready
  | findTaskDef name callback => exact runs_taskDef callback hready
  | findExec key callback =>
    rw [Op.run]
    split
    · next hfind => exact runs_exec callback hfind
    · next hfind =>
      cases callback with
      -- without an execution the timeout of the row is all that is handled
      | handleTimeout => exact .lapse (by simp [hfind])
      | onTaskTerminal | completeInstanceByRef | eventTerminate | eventUpdateVariables =>
        exact .stop rfl rfl (.inl rfl)
      | _ => exact .stop rfl rfl answered_answer
  | findInstance key callback =>
    rw [Op.run]
    cases hfind : w.findInstance H key with
    | none =>
      cases callback with
      | onTaskTerminal caller => cases caller <;> first
          | exact .stop rfl rfl (.inl rfl)
          | exact .stop rfl rfl answered_answer
      | submitResult => exact .stop rfl rfl answered_answer
    | some inst =>
      cases callback with
      | onTaskTerminal caller =>
        cases caller with
        | none => exact .fetch hfind
        | some => exact .report hfind
      | submitResult => exact .submit hfind
  | findFirst =>
    rw [Op.run]
    split
    · exact .stop rfl rfl (.inr ⟨.claimed _ none, trivial, rfl⟩)
    · next hfirst => exact .findFirst hfirst
  | findAllExecs => exact .findAllExecs
  | findAllInstances callback => exact runs_instances callback
  | findAllTaskDefs => exact .findAllTaskDefs
  | findAllHandlers event payload =>
    obtain ⟨lua, ops, heq, hops⟩ := fireHandlers_eq (H := H) event payload w.handlers.rows w
    rw [Op.run, heq]
    exact .handlers hops
  | insertExec exec callback =>
    rcases StartCallback.cases_resumes (H := H) callback with ⟨wdef, done, x, h⟩ | ⟨hframes, hquiet⟩
    · refine .stretch (.child h) (h.stretch
        (fun f hf => (hready f hf).extends (World.extends_putExec w exec)) (some exec)) ?_
      intro hfails
      cases h <;> cases hfails
    · obtain ⟨w', hanswer, heq⟩ := hquiet (some exec) (w.putExec exec)
      rw [Op.run, heq]
      exact .insertExec hframes hanswer
  | updateExec exec callback =>
    cases callback with
    | log => exact .updateExec (.inl rfl) (forall_mem_nil _)
    | answer => exact .updateExec answered_answer (forall_mem_nil _)
    | terminate toFinish =>
        exact .updateExec answered_answer (announces_onExecutionTerminal toFinish)
  | insertInstance => exact .insertInstance
  | updateInstance inst callback =>
    cases callback with
    | log => exact .updateInstance (.inl rfl)
    | submitResult => exact .submitted answered_answer
    | claim => exact .updateInstance (.inr ⟨.claimed _ (some inst), trivial, rfl⟩)

end Runs

/-! ### The flow of copies through a step -/

section Flow

open Session (Flow Effects)

variable {σ : Type} {H : Host σ} {w : World σ} {op : Op} {wdef : WorkflowDef} {done : Done}
  {c : Cursor σ} {x y : WorkflowExecution} {r : World σ × List Op}

theorem find?_put (t : Keyed.Table WorkflowExecution.execId) (x : WorkflowExecution) :
    (t.put x).find? = Function.update t.find? x.execId (some x) := by
  funext k
  by_cases hk : k = x.execId
  · subst hk
    rw [Keyed.Table.find?_put_self, Function.update_self]
  · rw [Keyed.Table.find?_put_of_ne hk, Function.update_of_ne hk]

/-- What the operation may do with executions. -/
def effects (H : Host σ) (w : World σ) (op : Op) (r : World σ × List Op) :
    Effects WorkflowExecution Uuid where
  change := Changes H w op r
  born := Born H w op r
  dropped x := op.asRead = some x
  read id := id ∈ op.reads H w
  lost := op.abandons w = true
  written x := op.writes = some x

/-- What running the operation does with copies of executions. -/
def Flows (H : Host σ) (w : World σ) (op : Op) (r : World σ × List Op) : Prop :=
  Flow WorkflowExecution.execId (effects H w op r) w.execs.find? op.copies (heldBy r.2)
    r.1.execs.find?

theorem flows_idle (hop : op.copies = []) (hheld : heldBy r.2 = [])
    (hexecs : r.1.execs = w.execs) : Flows H w op r := by
  rw [Flows, hop, hheld, hexecs]
  exact .idle

theorem flows_drop (hop : op.copies = [x]) (hread : op.asRead = some x) (hheld : heldBy r.2 = [])
    (hexecs : r.1.execs = w.execs) : Flows H w op r := by
  rw [Flows, hop, hheld, hexecs]
  exact .drop x hread

theorem flows_work {rest kept : List WorkflowExecution} (hop : op.copies = x :: rest)
    (hheld : heldBy r.2 = y :: kept) (hkept : kept = rest ∨ op.abandons w = true ∧ kept = [])
    (hexecs : r.1.execs = w.execs) (h : Changes H w op r x y) : Flows H w op r := by
  rw [Flows, hop, hheld, hexecs]
  exact .work x y rest kept h hkept

theorem flows_load (hop : op.copies = []) (hheld : heldBy r.2 = [y])
    (hexecs : r.1.execs = w.execs) (hx : x ∈ w.execs.rows) (hread : y.execId ∈ op.reads H w)
    (h : Changes H w op r x y) : Flows H w op r := by
  rw [Flows, hop, hheld, hexecs]
  refine .load [y] (fun z hz => ?_) (by simp)
  obtain rfl := mem_singleton.1 hz
  exact ⟨hread, x, Keyed.Table.find?_of_mem hx, h⟩

theorem flows_write (hop : op.copies = [x]) (hwrites : op.writes = some x)
    (hheld : heldBy r.2 = []) (hexecs : r.1.execs = w.execs.put x) : Flows H w op r := by
  rw [Flows, hop, hheld, hexecs, find?_put]
  exact .write x hwrites

section

variable (h : Begins w op wdef done x c)

include h

/-- A stretch begins with the copy in front of the suspended chains that wait for
its `done`; a finished child is written first. -/
theorem Begins.copies :
    op.copies = x :: done.frames.map Frame.exec ∧ c.world.execs = w.execs ∨
      ∃ child callback, op = .insertExec child callback ∧
        op.copies = child :: x :: done.frames.map Frame.exec ∧
        c.world.execs = w.execs.put child := by
  cases h with
  | noChild h =>
    cases h <;> exact .inl ⟨rfl, rfl⟩
  | child h =>
    cases h <;> exact .inr ⟨_, _, rfl, rfl, rfl⟩
  | _ => exact .inl ⟨rfl, rfl⟩

/-- Where a stretch begins, only updates of rows are waiting. -/
theorem Begins.ops_updates :
    ∀ o ∈ c.ops, ∃ j, o = .updateInstance j .log := by
  intro o ho
  cases h with
  | retry =>
    obtain ⟨j, -, rfl⟩ := mem_map.1 ho
    exact ⟨_, rfl⟩
  | rerun => exact ⟨_, mem_singleton.1 ho⟩
  | _ => exact absurd ho not_mem_nil

theorem Begins.heldBy_ops : heldBy c.ops = [] :=
  heldBy_eq_nil fun o ho => by
    obtain ⟨j, rfl⟩ := h.ops_updates o ho
    rfl

theorem Begins.flows {fails : Bool}
    (hs : Stretch H wdef done fails c r) (hfails : fails = true → op.abandons w = true) :
    Flows H w op r := by
  obtain ⟨c', y, hmoves, hexit⟩ := hs
  have hheld := hexit.heldBy (moves_heldBy_ops hmoves h.heldBy_ops)
  have hchange : Changes H w op r x y := .stretch h hmoves hexit
  have hexecs : r.1.execs = c.world.execs := by
    rw [hexit.later.execs, (moves_later hmoves).execs]
  rcases h.copies with ⟨hcop, hexecs'⟩ | ⟨child, callback, rfl, hcop, hexecs'⟩
  · refine flows_work hcop hheld ?_ (hexecs.trans hexecs') hchange
    cases fails with
    | false => exact .inl rfl
    | true => exact .inr ⟨hfails rfl, rfl⟩
  · -- the callback of a finished child never fails its execution
    obtain rfl : fails = false := by
      cases fails with
      | false => rfl
      | true => exact absurd (hfails rfl) (by simp [Op.abandons])
    rw [Flows, hcop, hheld, hexecs, hexecs', find?_put]
    exact .writeWork child x y _ rfl hchange

end

theorem flows_start_found {name : String} {vars : StringMap} {parent : Option Uuid}
    {callback : StartCallback} (hdef : w.workflowDefs.find? name = some wdef) :
    Flows H w (.findDef name (.start vars parent callback))
      (DefCallback.found H (.start vars parent callback) wdef w) := by
  obtain ⟨c', y, hmoves, hexit⟩ := advance_stretch H wdef (.insertExec callback)
    (Cursor.launch w wdef vars parent)
  have hheld := hexit.heldBy (moves_heldBy_ops hmoves rfl)
  have hexecs := hexit.later.execs.trans (moves_later hmoves).execs
  have hborn : Born H w (.findDef name (.start vars parent callback))
      (DefCallback.found H (.start vars parent callback) wdef w) y :=
    ⟨name, vars, parent, callback, wdef, c', rfl, hdef, hmoves, hexit⟩
  rw [Flows, show DefCallback.found H (.start vars parent callback) wdef w =
    advance H wdef (.insertExec callback) (Cursor.launch w wdef vars parent)
    from rfl, hheld, hexecs]
  exact .create y _ hborn

theorem flows_findAllExecs : Flows H w .findAllExecs (Op.run H .findAllExecs w) := by
  have hheld : heldBy (Op.run H .findAllExecs w).2 =
      w.execs.rows.filter (fun exec => exec.status = .running) := by
    simp [Op.run, heldBy, flatMap_map, Op.copies, Op.own, Op.frames]
  rw [Flows, hheld]
  refine .load _ (fun y hy => ⟨mem_map_of_mem hy, y, ?_, .same y⟩) ?_
  · exact Keyed.Table.find?_of_mem (mem_of_mem_filter hy)
  · exact w.execs.nodup.sublist (filter_sublist.map _)

/-- Nothing is issued: a copy that was read is dropped. -/
theorem flows_stop (hop : op.copies = op.asRead.toList) (hheld : heldBy r.2 = [])
    (hexecs : r.1.execs = w.execs) : Flows H w op r := by
  cases hread : op.asRead with
  | none => exact flows_idle (hop.trans (by rw [hread]; rfl)) hheld hexecs
  | some x => exact flows_drop (hop.trans (by rw [hread]; rfl)) hread hheld hexecs

theorem Op.Acts.copies {o : Op} (h : o.Acts) : o.copies = [] := by
  unfold Op.Acts at h
  split at h <;> first | rfl | exact h.elim

theorem Runs.flows (h : Runs H w op r) : Flows H w op r := by
  -- an execution that was read is among those the operation reads
  have read : ∀ {key : String} {x : WorkflowExecution}, w.findExec H key = some x →
      x ∈ w.execs.rows ∧ x.execId ∈ (w.findExec H key).toList.map WorkflowExecution.execId :=
    fun hfind => ⟨mem_of_find?_eq_some hfind, by simp [hfind]⟩
  cases h with
  | stretch begins run abandons => exact begins.flows run abandons
  | launch hdef => exact flows_start_found hdef
  | fail =>
    exact flows_work rfl (heldBy_handleFailure rfl _ _) (.inl rfl)
      (congrArg World.execs (handleFailure_world _ _)) (.fail _ _ _ _ (.inl ⟨_, rfl⟩) rfl)
  | timedOut wdef =>
    exact flows_work rfl (heldBy_handleFailure rfl _ _) (.inl rfl)
      (congrArg World.execs (handleFailure_world _ _)) (.fail _ _ wdef _ (.inr ⟨_, rfl⟩) rfl)
  | failNow failureWorkflow =>
    exact flows_work rfl (heldBy_failExecution rfl _ failureWorkflow) (.inl rfl) rfl
      (.failNow _ _ _ _ _ rfl rfl)
  | stop hcopies hrow hanswer => exact flows_stop hcopies rfl hanswer.later.execs
  | judge | takeOver => exact flows_work rfl rfl (.inl rfl) rfl (.sync _ _ _ rfl)
  | resumeUndefined => exact flows_work rfl rfl (.inl rfl) rfl (.same _)
  | redirect => exact flows_work rfl (append_nil _) (.inl rfl) rfl (.same _)
  | deliver hfind | timeOut hfind | retry hfind | restart hfind | rerun hfind | reconcile hfind =>
    exact flows_load rfl rfl rfl (read hfind).1 (read hfind).2 (.same _)
  | pause hfind hrun =>
    exact flows_load rfl rfl rfl (read hfind).1 (read hfind).2 (.status _ _ (by rw [hrun]; rfl))
  | resume hfind hpaused =>
    exact flows_load rfl rfl rfl (read hfind).1 (read hfind).2
      (.status _ _ (by rw [hpaused]; rfl))
  | terminate hfind live =>
    exact flows_load rfl rfl rfl (read hfind).1 (read hfind).2 (.status _ _ live)
  | @eventTerminate _ x status hfind live =>
    refine flows_load (y := { x with status := status }) rfl ?_ rfl (read hfind).1
      (read hfind).2 (.status _ _ live)
    simp [Op.copies, Op.own, Op.frames]
  | setVars hfind => exact flows_load rfl rfl rfl (read hfind).1 (read hfind).2 (.vars _ _)
  | findAllExecs => exact flows_findAllExecs
  | sweepTimeouts =>
    refine flows_idle rfl (heldBy_eq_nil fun op hop => ?_) rfl
    obtain ⟨inst, -, hop⟩ := mem_flatMap.1 hop
    exact mem_singleton.1 hop ▸ rfl
  | sweepRetries =>
    refine flows_idle rfl (heldBy_eq_nil fun op hop => ?_) rfl
    obtain ⟨inst, -, rfl⟩ := mem_map.1 hop
    rfl
  | requeue hanswer =>
    refine flows_idle rfl (heldBy_eq_nil fun op hop => ?_) hanswer.later.execs
    obtain ⟨inst, -, rfl⟩ := mem_map.1 hop
    rfl
  | handlers hops => exact flows_idle rfl (heldBy_eq_nil fun op hop => (hops op hop).copies) rfl
  | insertExec hframes hanswer =>
    refine flows_write ?_ rfl rfl hanswer.later.execs
    simp [Op.copies, Op.own, Op.frames, hframes]
  | updateExec hanswer hops =>
    exact flows_write rfl rfl (heldBy_eq_nil fun op hop => (hops op hop).copies)
      hanswer.later.execs
  | updateInstance hanswer | submitted hanswer => exact flows_idle rfl rfl hanswer.later.execs
  | _ => exact flows_idle rfl rfl rfl

/-- **The flow of copies.** What running an operation does with the copies of
executions it holds, and with the stored executions. -/
theorem run_flow (hready : ∀ f ∈ op.frames, Ready w f) : Flows H w op (op.run H w) :=
  (Runs.of_run hready).flows

/-- A step leaves a stored execution alone, or writes the first copy it holds; then
what it hands on are versions of the other copies. -/
theorem stored_or_written (hready : ∀ f ∈ op.frames, Ready w f) (e : Uuid) :
    (op.run H w).1.execs.find? e = w.execs.find? e ∨
      ∃ z rest, op.copies = z :: rest ∧ op.writes = some z ∧ z.execId = e ∧
        (op.run H w).1.execs.find? e = some z ∧
        ∀ y ∈ heldBy (op.run H w).2, ∃ x ∈ rest, Version x y := by
  have hflow : Flows H w op (op.run H w) := run_flow hready
  rcases hflow.stored_cases with hsame | ⟨z, rest, htaken, hwritten, hstored, hgiven⟩
  · exact .inl (congrFun hsame e)
  · by_cases hze : z.execId = e
    · refine .inr ⟨z, rest, htaken, hwritten, hze, ?_, fun y hy => ?_⟩
      · rw [hstored, ← hze, Function.update_self]
      · rcases hgiven y hy with hy | ⟨x, hx, hc⟩
        · exact ⟨y, hy, .refl y⟩
        · exact ⟨x, hx, Changes.version hc⟩
    · rw [hstored]
      exact .inl (Function.update_of_ne (Ne.symm hze) _ _)

/-- A property of all executions, stored and held. -/
structure Everywhere (P : WorkflowExecution → Prop) (w : World σ) (queue : List Op) : Prop where
  stored : ∀ x ∈ w.execs.rows, P x
  held : ∀ x ∈ heldBy queue, P x

/-- A property of executions is kept by a step when it is kept by the changes of
the step and holds of the execution it makes. -/
theorem Everywhere.step {P : WorkflowExecution → Prop} {queue queue' : List Op}
    (h : Everywhere P w (op :: queue)) (hready : ∀ f ∈ op.frames, Ready w f)
    (hqueue : ∀ o ∈ queue', o ∈ queue ∨ o ∈ (op.run H w).2)
    (hchange : ∀ x y, Changes H w op (op.run H w) x y → P x → P y)
    (hborn : ∀ y, Born H w op (op.run H w) y → P y) :
    Everywhere P (op.run H w).1 queue' := by
  have hflow : Flows H w op (op.run H w) := run_flow hready
  have htaken : ∀ x ∈ op.copies, P x := fun x hx => h.held x (mem_append_left _ hx)
  constructor
  · intro x hx
    rcases hflow.stored_eq_some (Keyed.Table.find?_of_mem hx) with hx | ⟨hx, -⟩
    · exact h.stored x (Keyed.Table.mem_of_find? hx)
    · exact htaken x hx
  · intro y hy
    obtain ⟨o, ho, hy⟩ := mem_flatMap.1 hy
    rcases hqueue o ho with ho | ho
    · exact h.held y (mem_append_right _ (mem_flatMap.2 ⟨o, ho, hy⟩))
    · rcases hflow.mem_given (mem_flatMap.2 ⟨o, ho, hy⟩) with hy | ⟨x, hx, hc⟩ | hb
      · exact htaken y hy
      · refine hchange x y hc (hx.elim (htaken x) fun hx => ?_)
        exact h.stored x (Keyed.Table.mem_of_find? hx)
      · exact hborn y hb

end Flow

end Congelado
