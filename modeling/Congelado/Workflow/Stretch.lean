import Congelado.Workflow.Scan

/-!
# What a stretch of orchestrator code does

Every stretch that works on an execution, whichever member function it belongs
to, is a sequence of moves followed by an exit:

* a move evaluates Lua, records a pass over the nodes, makes an instance, sets
  the variables, publishes an event, completes the execution or terminates it;
* an exit hands the execution to `done`, or to the callback of an operation that
  the rest of the chain waits for, or fails it, with an instance that is nested in
  the execution or with one that is made for the purpose.

`Stretch` is the two together, and `advance_stretch`, `spawnNext_stretch` and
`spawnWithDef_stretch` say that the code is of that form. Later modules never
unfold the code again: a property of the execution is kept by every stretch when
it is kept by each kind of move (`moves_rule`).

What keeps an execution from getting a second instance of a node is a property
of the references a suspended chain still has to spawn: they were listed by a
recorded pass and have no instance yet (`Ready`).
-/

namespace Congelado

open List SystemTaskExecutor

variable {y : WorkflowExecution}

namespace World

variable {σ : Type}

/-- A world in which the definitions are the same, and identifiers and the history
have moved on. -/
structure Extends (w w' : World σ) : Prop where
  workflowDefs : w'.workflowDefs = w.workflowDefs
  taskDefs : w'.taskDefs = w.taskDefs
  handlers : w'.handlers = w.handlers
  fresh : w.fresh ≤ w'.fresh
  history : w.history <:+ w'.history

/-- A world in which the store is the same, too. -/
structure Later (w w' : World σ) : Prop extends Extends w w' where
  execs : w'.execs = w.execs
  instances : w'.instances = w.instances
  now : w'.now = w.now

variable (w : World σ)

theorem Extends.refl : w.Extends w :=
  ⟨rfl, rfl, rfl, le_rfl, suffix_refl _⟩

theorem Extends.trans {w₁ w₂ w₃ : World σ} (h₁ : w₁.Extends w₂) (h₂ : w₂.Extends w₃) :
    w₁.Extends w₃ where
  workflowDefs := h₂.workflowDefs.trans h₁.workflowDefs
  taskDefs := h₂.taskDefs.trans h₁.taskDefs
  handlers := h₂.handlers.trans h₁.handlers
  fresh := h₁.fresh.trans h₂.fresh
  history := h₁.history.trans h₂.history

theorem Later.refl : w.Later w := ⟨Extends.refl w, rfl, rfl, rfl⟩

theorem Later.trans {w₁ w₂ w₃ : World σ} (h₁ : w₁.Later w₂) (h₂ : w₂.Later w₃) :
    w₁.Later w₃ where
  toExtends := h₁.toExtends.trans h₂.toExtends
  execs := h₂.execs.trans h₁.execs
  instances := h₂.instances.trans h₁.instances
  now := h₂.now.trans h₁.now

theorem later_setLua (lua : σ) : w.Later (w.setLua lua) :=
  ⟨⟨rfl, rfl, rfl, le_rfl, suffix_refl _⟩, rfl, rfl, rfl⟩

theorem later_record (e : Event) : w.Later (w.record e) :=
  ⟨⟨rfl, rfl, rfl, le_rfl, suffix_cons _ _⟩, rfl, rfl, rfl⟩

theorem later_bump : w.Later w.bump :=
  ⟨⟨rfl, rfl, rfl, Nat.le_succ _, suffix_refl _⟩, rfl, rfl, rfl⟩

theorem extends_putExec (exec : WorkflowExecution) : w.Extends (w.putExec exec) :=
  ⟨rfl, rfl, rfl, le_rfl, suffix_refl _⟩

theorem extends_putInstance (inst : TaskInstance) :
    w.Extends (w.putInstance inst) :=
  ⟨rfl, rfl, rfl, le_rfl, suffix_refl _⟩

end World

/-- A chain of callbacks that is suspended in the middle of spawning: the
execution as the chain holds it, its definition, and the references from the
current one on. -/
structure Frame where
  exec : WorkflowExecution
  wdef : WorkflowDef
  refs : List String

namespace Orchestrator

variable {σ : Type} {H : Host σ} {wdef : WorkflowDef} {done : Done} {fails : Bool} {c c' : Cursor σ}
    {ref : String} {r : World σ × List Op} {refs : List String} {inst : TaskInstance}

/-- A recorded pass over the execution listed the reference under the verdict. -/
def Listed (w : World σ) (execId : Uuid) (wdef : WorkflowDef) (v : Verdict) (ref : String) : Prop :=
  ∃ exec eligible skip, Event.pass exec wdef eligible skip ∈ w.history ∧ exec.execId = execId ∧
    match v with
    | .eligible => ref ∈ eligible
    | .skip => ref ∈ skip
    | .wait => False

theorem Listed.extends {w w' : World σ} {execId : Uuid} {v : Verdict}
    (h : Listed w execId wdef v ref) (hw : w.Extends w') : Listed w' execId wdef v ref := by
  obtain ⟨exec, eligible, skip, hmem, hrest⟩ := h
  exact ⟨exec, eligible, skip, hw.history.subset hmem, hrest⟩

/-- A suspended chain may go on spawning: the execution is running, a pass listed
the references, and none of them has an instance yet. The last point needs the
references of the definition to be distinct. -/
structure Ready (w : World σ) (f : Frame) : Prop where
  running : f.exec.status = .running
  known : ∀ ref ∈ f.refs, ref ∈ f.wdef.refs
  listed : ∀ ref ∈ f.refs, Listed w f.exec.execId f.wdef .eligible ref
  fresh : f.wdef.refs.Nodup → f.refs.Nodup ∧ ∀ ref ∈ f.refs, ref ∉ f.exec.refs

theorem Ready.extends {w w' : World σ} {f : Frame} (h : Ready w f) (hw : w.Extends w') :
    Ready w' f :=
  ⟨h.running, h.known, fun ref href => (h.listed ref href).extends hw, h.fresh⟩

/-- Fewer references are left to spawn. -/
theorem Ready.sublist {w : World σ} {exec : WorkflowExecution} {refs refs' : List String}
    (h : Ready w ⟨exec, wdef, refs⟩) (hs : refs'.Sublist refs) : Ready w ⟨exec, wdef, refs'⟩ where
  running := h.running
  known ref href := h.known ref (hs.subset href)
  listed ref href := h.listed ref (hs.subset href)
  fresh hnd := ⟨(h.fresh hnd).1.sublist hs, fun ref href => (h.fresh hnd).2 ref (hs.subset href)⟩

/-- A task instance the execution may get: a new id, and a node that was listed
and has no instance yet. -/
structure New (wdef : WorkflowDef) (c : Cursor σ) (inst : TaskInstance) : Prop where
  running : c.exec.status = .running
  taskId : inst.taskId = c.world.fresh
  workflowExecId : inst.workflowExecId = c.exec.execId
  known : inst.nodeRef ∈ wdef.refs
  listed : Listed c.world c.exec.execId wdef
    (if inst.status = .skipped then .skip else .eligible) inst.nodeRef
  fresh : wdef.refs.Nodup → inst.nodeRef ∉ c.exec.refs
  nextRetryAt : inst.nextRetryAt = none

/-! ### Moves and exits -/

/-- One thing a stretch does on its execution. -/
inductive Move (H : Host σ) (wdef : WorkflowDef) : Cursor σ → Cursor σ → Prop
  | lua (c : Cursor σ) (lua : σ) : Move H wdef c (c.setLua lua)
  | pass (c : Cursor σ) (running : c.exec.status = .running) (lua : σ) :
      Move H wdef c (c.record (.pass c.exec wdef
        (scanNodes H c.exec wdef wdef.nodes lua).eligible
        (scanNodes H c.exec wdef wdef.nodes lua).skip))
  | spawn (c : Cursor σ) (inst : TaskInstance) (new : New wdef c inst) :
      Move H wdef c (c.spawn inst)
  | vars (c : Cursor σ) (vars : StringMap) (running : c.exec.status = .running) :
      Move H wdef c (c.setVars vars)
  | publish (c : Cursor σ) (event : String) (payload : StringMap) :
      Move H wdef c (c.issue (publishEvent event payload))
  | complete (c : Cursor σ) (running : c.exec.status = .running)
      (done : allDone c.exec wdef = true) : Move H wdef c (maybeComplete wdef c)
  | terminate (c : Cursor σ) (running : c.exec.status = .running) (status : WorkflowStatus)
      (terminal : status.isTerminal = true) :
      Move H wdef c
        ((c.setStatus status).issue (onExecutionTerminal (c.setStatus status).exec))

/-- What a stretch does on its execution before it ends. -/
abbrev Moves (H : Host σ) (wdef : WorkflowDef) : Cursor σ → Cursor σ → Prop :=
  Relation.ReflTransGen (Move H wdef)

/-- The instance a stretch fails its execution with: it was just made, it is nested in
the execution, and its row is about to be inserted. -/
structure Failing (wdef : WorkflowDef) (c : Cursor σ) (inst : TaskInstance) : Prop where
  running : c.exec.status = .running
  created : Event.created inst ∈ c.world.history
  nested : inst ∈ c.exec.taskInstances
  inserted : Op.insertInstance inst ∈ c.ops
  workflowExecId : inst.workflowExecId = c.exec.execId
  known : inst.nodeRef ∈ wdef.refs
  status : inst.status = .failed

/-- The instance and the execution as `handle_failure` writes them: with one more
retry armed, or both failed. -/
def afterFailure (now : Time) (retry : RetryPolicy) (inst : TaskInstance)
    (exec : WorkflowExecution) : TaskInstance × WorkflowExecution :=
  if inst.retryCount + 1 < retry.maxAttempts then
    (armRetry now retry inst, syncInstance exec (armRetry now retry inst))
  else (inst, syncInstance { exec with status := .failed } inst)

/-- How a stretch ends, and the execution it hands on. The flag says whether it fails
the execution; then `done` is not called. -/
inductive Exit (wdef : WorkflowDef) (done : Done) :
    Bool → Cursor σ → World σ × List Op → WorkflowExecution → Prop
  | yield (c : Cursor σ) : Exit wdef done false c (c.close (done.apply c.exec)) c.exec
  | spawn (c : Cursor σ) (refs : List String) (input : StringMap) (refName defName : String)
      (ready : Ready c.world ⟨c.exec, wdef, refName :: refs⟩) :
      Exit wdef done false c (c.close
        [.findTaskDef defName (.spawnNext c.exec wdef refs input refName defName done)]) c.exec
  | startWorkflow (c : Cursor σ) (name : String) (vars : StringMap) (refName defName : String)
      (ready : Ready c.world ⟨c.exec, wdef, [refName]⟩) :
      Exit wdef done false c (c.close
        (start name vars none (.startWorkflow c.exec wdef refName defName done))) c.exec
  | subWorkflow (c : Cursor σ) (name : String) (vars : StringMap) (refs : List String)
      (refName defName : String) (ready : Ready c.world ⟨c.exec, wdef, refName :: refs⟩) :
      Exit wdef done false c (c.close (start name vars (some c.exec.execId)
        (.subWorkflow c.exec wdef refs refName defName done))) c.exec
  | fail (c : Cursor σ) (inst : TaskInstance) (retry : RetryPolicy)
      (failing : Failing wdef c inst) :
      Exit wdef done true c (handleFailure inst wdef retry c)
        (afterFailure c.world.now retry inst c.exec).2
  | orphan (c : Cursor σ) (inst : TaskInstance) (retry : RetryPolicy) (new : New wdef c inst)
      (status : inst.status = .failed) :
      Exit wdef done true c (handleFailure inst wdef retry (c.create inst))
        (afterFailure c.world.now retry inst c.exec).2

/-- A sequence of moves, and then an exit. -/
def Stretch (H : Host σ) (wdef : WorkflowDef) (done : Done) (fails : Bool) (c : Cursor σ)
    (r : World σ × List Op) : Prop :=
  ∃ c' y, Relation.ReflTransGen (Move H wdef) c c' ∧ Exit wdef done fails c' r y

theorem Exit.stretch (h : Exit wdef done fails c r y) : Stretch H wdef done fails c r :=
  ⟨c, y, .refl, h⟩

theorem Stretch.head (h : Move H wdef c c')
    (hs : Stretch H wdef done fails c' r) : Stretch H wdef done fails c r := by
  obtain ⟨d, y, hmoves, hexit⟩ := hs
  exact ⟨d, y, .head h hmoves, hexit⟩

theorem Stretch.trans (h : Moves H wdef c c')
    (hs : Stretch H wdef done fails c' r) : Stretch H wdef done fails c r := by
  obtain ⟨d, y, hmoves, hexit⟩ := hs
  exact ⟨d, y, h.trans hmoves, hexit⟩

/-- **Move rule.** What holds at the start and is kept by every move holds at the
end. -/
theorem moves_rule {P : Cursor σ → Prop} (h : Moves H wdef c c')
    (init : P c) (move : ∀ d d', Move H wdef d d' → P d → P d') : P c' := by
  induction h with
  | refl => exact init
  | tail _ hm ih => exact move _ _ hm ih

/-! ### What every move keeps -/

theorem maybeComplete_eq (running : c.exec.status = .running) (done : allDone c.exec wdef = true) :
    let d := (c.setVars (mappedOutput c.exec wdef)).setStatus .completed
    maybeComplete wdef c = (d.record (.completed d.exec wdef)).issue
      (onExecutionTerminal d.exec) := by
  unfold maybeComplete
  rw [if_neg (by rw [running]; decide), if_pos done]

theorem Move.later (h : Move H wdef c c') : c.world.Later c'.world := by
  cases h with
  | lua lua => exact World.later_setLua _ _
  | pass running lua => exact World.later_record _ _
  | spawn inst new => exact (World.later_bump _).trans (World.later_record _ _)
  | vars | publish | terminate => exact World.Later.refl _
  | complete running done =>
    rw [maybeComplete_eq running done]
    exact World.later_record _ _

theorem moves_later (h : Moves H wdef c c') : c.world.Later c'.world :=
  moves_rule (P := fun d => c.world.Later d.world) h (World.Later.refl _)
    fun _ _ hm hc => hc.trans hm.later

theorem handleFailure_world (inst : TaskInstance) (retry : RetryPolicy) :
    (handleFailure inst wdef retry c).1 = c.world := by
  unfold handleFailure
  split <;> rfl

theorem Exit.later (h : Exit wdef done fails c r y) :
    c.world.Later r.1 := by
  cases h with
  | fail inst retry failing =>
    rw [handleFailure_world]
    exact World.Later.refl _
  | orphan inst retry new status =>
    rw [handleFailure_world]
    exact (World.later_bump _).trans (World.later_record _ _)
  | _ => exact World.Later.refl _

/-! ### The code is a sequence of moves -/

theorem findNode_eq_some {node : TaskNode} (h : findNode wdef ref = some node) :
    node ∈ wdef.nodes ∧ node.refName = ref :=
  ⟨mem_of_find?_eq_some h, by simpa using find?_some h⟩

theorem findNode_isSome : (findNode wdef ref).isSome ↔ ref ∈ wdef.refs := by
  simp [findNode, WorkflowDef.refs]

theorem refs_spawn (c : Cursor σ) (inst : TaskInstance) :
    (c.spawn inst).exec.refs = c.exec.refs ++ [inst.nodeRef] := by
  simp [Cursor.spawn, WorkflowExecution.addTaskInstance, WorkflowExecution.refs]

theorem taskIds_spawn (c : Cursor σ) (inst : TaskInstance) :
    (c.spawn inst).exec.taskIds = c.exec.taskIds ++ [inst.taskId] := by
  simp [Cursor.spawn, WorkflowExecution.addTaskInstance, WorkflowExecution.taskIds]

/-- The rest of a suspended chain is still ready after the current node got its
instance. -/
theorem Ready.spawn {refName : String}
    (h : Ready c.world ⟨c.exec, wdef, refName :: refs⟩) (href : inst.nodeRef = refName) :
    Ready (c.spawn inst).world ⟨(c.spawn inst).exec, wdef, refs⟩ where
  running := h.running
  known ref hr := h.known ref (.tail _ hr)
  listed ref hr := (h.listed ref (.tail _ hr)).extends
    ((World.later_bump _).trans (World.later_record _ _)).toExtends
  fresh hnd := by
    obtain ⟨hnodup, hnew⟩ := h.fresh hnd
    rw [nodup_cons] at hnodup
    refine ⟨hnodup.2, fun ref hr => ?_⟩
    rw [refs_spawn, mem_append, mem_singleton, href, not_or]
    exact ⟨hnew ref (.tail _ hr), fun he => hnodup.1 (he ▸ hr)⟩

theorem finish_stretch (hrun : c.exec.status = .running) :
    Stretch H wdef done false c (finish wdef done c) := by
  unfold finish
  by_cases hall : allDone c.exec wdef = true
  · exact .head (.complete c hrun hall) (Exit.stretch (.yield _))
  · have hc : maybeComplete wdef c = c := by
      unfold maybeComplete
      rw [if_neg (by rw [hrun]; decide), if_neg hall]
    simp only [hc]
    exact Exit.stretch (.yield c)

/-- What `advance`'s loop over the skipped references needs: they were listed as
skipped, are distinct and have no instance. -/
structure Skippable (wdef : WorkflowDef) (c : Cursor σ) (refs : List String) : Prop where
  running : c.exec.status = .running
  known : ∀ ref ∈ refs, ref ∈ wdef.refs
  listed : ∀ ref ∈ refs, Listed c.world c.exec.execId wdef .skip ref
  fresh : wdef.refs.Nodup → refs.Nodup ∧ ∀ ref ∈ refs, ref ∉ c.exec.refs

theorem Skippable.new (h : Skippable wdef c (ref :: refs))
    (defName : String) : New wdef c (c.newInstance defName ref .skipped) where
  running := h.running
  taskId := rfl
  workflowExecId := rfl
  known := h.known ref (.head _)
  listed := h.listed ref (.head _)
  fresh hnd := (h.fresh hnd).2 ref (.head _)
  nextRetryAt := rfl

theorem Skippable.spawn (h : Skippable wdef c (ref :: refs))
    (defName : String) : Skippable wdef (c.spawn (c.newInstance defName ref .skipped)) refs where
  running := h.running
  known r hr := h.known r (.tail _ hr)
  listed r hr := (h.listed r (.tail _ hr)).extends
    ((World.later_bump _).trans (World.later_record _ _)).toExtends
  fresh hnd := by
    obtain ⟨hnodup, hnew⟩ := h.fresh hnd
    rw [nodup_cons] at hnodup
    refine ⟨hnodup.2, fun r hr => ?_⟩
    rw [refs_spawn, mem_append, mem_singleton, not_or]
    refine ⟨hnew r (.tail _ hr), ?_⟩
    rintro rfl
    exact hnodup.1 hr

/-- Every skipped reference of the definition gets its instance. -/
theorem refs_skipNodes (h : ∀ ref ∈ refs, ref ∈ wdef.refs) :
    (skipNodes wdef refs c).exec.refs = c.exec.refs ++ refs := by
  induction refs generalizing c with
  | nil => exact (append_nil _).symm
  | cons ref refs ih =>
    obtain ⟨node, hnode⟩ :=
      Option.isSome_iff_exists.1 (findNode_isSome.2 (h ref (.head _)))
    rw [skipNodes, hnode, ih fun r hr => h r (.tail _ hr), refs_spawn,
      append_assoc]
    rfl

theorem skipNodes_moves (h : Skippable wdef c refs) :
    Moves H wdef c (skipNodes wdef refs c) ∧
      (skipNodes wdef refs c).exec.status = .running ∧
      (skipNodes wdef refs c).exec.execId = c.exec.execId := by
  induction refs generalizing c with
  | nil => exact ⟨.refl, h.running, rfl⟩
  | cons ref refs ih =>
    obtain ⟨node, hnode⟩ :=
      Option.isSome_iff_exists.1 (findNode_isSome.2 (h.known ref (.head _)))
    obtain ⟨hmoves, hrun, hid⟩ := ih (h.spawn node.defName)
    rw [skipNodes, hnode]
    exact ⟨.head (.spawn c _ (h.new node.defName)) hmoves, hrun, hid⟩

theorem spawnNext_stretch (h : Ready c.world ⟨c.exec, wdef, refs⟩) :
    Stretch H wdef done false c (spawnNext H wdef done refs c) := by
  induction refs with
  | nil => exact finish_stretch h.running
  | cons ref refs ih =>
    rw [spawnNext]
    cases hnode : findNode wdef ref with
    | none => exact ih (h.sublist (sublist_cons_self _ _))
    | some node =>
      obtain ⟨-, rfl⟩ := findNode_eq_some hnode
      exact .head (.lua c (gatherInput H c.exec wdef node.refName c.world.lua).2)
        (Exit.stretch (.spawn _ refs _ node.refName node.defName
          (h.extends (World.later_setLua _ _).toExtends)))

theorem running_of_not_stopped {status : WorkflowStatus}
    (h : ¬ (status.isTerminal = true ∨ status = .paused)) : status = .running := by
  cases status <;> simp [WorkflowStatus.isTerminal] at h ⊢

theorem advancePasses_stretch (passes : ℕ) (c : Cursor σ) :
    Stretch H wdef done false c (advancePasses H wdef done passes c) := by
  induction passes generalizing c with
  | zero => exact Exit.stretch (.yield c)
  | succ passes ih =>
    rw [advancePasses]
    split
    · exact Exit.stretch (.yield c)
    next hstop =>
    have hrun := running_of_not_stopped hstop
    generalize hscan : scanNodes H c.exec wdef wdef.nodes c.world.lua = scan
    set d := (c.setLua scan.lua).record (.pass c.exec wdef scan.eligible scan.skip) with hd
    have hpass : Moves H wdef c d := by
      refine .head (.lua c scan.lua) (.single ?_)
      have h : Move H wdef (c.setLua scan.lua) _ := .pass (c.setLua scan.lua) hrun c.world.lua
      rwa [show (c.setLua scan.lua).exec = c.exec from rfl, hscan] at h
    have hevent : Event.pass c.exec wdef scan.eligible scan.skip ∈ d.world.history :=
      (.head _)
    have hskip : Skippable wdef d scan.skip := by
      refine ⟨hrun, fun ref href => ?_, fun ref href => ?_, fun hnd => ⟨?_, fun ref href => ?_⟩⟩
      · exact (listed_subset (v := .skip) (hscan ▸ href)).1
      · exact ⟨c.exec, scan.eligible, scan.skip, hevent, rfl, href⟩
      · exact hscan ▸ (nodup_scan hnd).of_append_right
      · exact (listed_subset (v := .skip) (hscan ▸ href)).2
    obtain ⟨hmoves, hrun', hid⟩ := skipNodes_moves (H := H) hskip
    have hrefs := refs_skipNodes (c := d) hskip.known
    refine .trans hpass ?_
    change Stretch H wdef done false d
      (if scan.eligible = [] ∧ scan.skip = [] then finish wdef done d
      else if scan.eligible = [] then advancePasses H wdef done passes (skipNodes wdef scan.skip d)
      else spawnNext H wdef done scan.eligible (skipNodes wdef scan.skip d))
    split
    · exact finish_stretch hrun
    · split
      · exact .trans hmoves (ih _)
      · refine .trans hmoves (spawnNext_stretch ⟨hrun', fun ref href => ?_, fun ref href => ?_,
          fun hnd => ⟨?_, fun ref href => ?_⟩⟩)
        · exact (listed_subset (v := .eligible) (hscan ▸ href)).1
        · have hlisted :
              Listed d.world (skipNodes wdef scan.skip d).exec.execId wdef .eligible ref :=
            ⟨c.exec, scan.eligible, scan.skip, hevent, hid.symm, href⟩
          exact hlisted.extends (moves_later hmoves).toExtends
        · exact hscan ▸ (nodup_scan hnd).of_append_left
        · -- not among the old references, and not among the skipped ones
          rw [hrefs, mem_append, not_or]
          refine ⟨(listed_subset (v := .eligible) (hscan ▸ href)).2, fun hmem => ?_⟩
          exact disjoint_of_nodup_append (hscan ▸ nodup_scan hnd) href hmem

theorem advance_stretch (H : Host σ) (wdef : WorkflowDef) (done : Done) (c : Cursor σ) :
    Stretch H wdef done false c (advance H wdef done c) :=
  advancePasses_stretch _ c

/-- What `spawn_with_def` makes is new when the chain is ready. -/
theorem Ready.new {refName : String}
    (h : Ready c.world ⟨c.exec, wdef, refName :: refs⟩) (hid : inst.taskId = c.world.fresh)
    (hexec : inst.workflowExecId = c.exec.execId) (href : inst.nodeRef = refName)
    (hstatus : inst.status ≠ .skipped) (hretry : inst.nextRetryAt = none) :
    New wdef c inst where
  running := h.running
  taskId := hid
  workflowExecId := hexec
  known := href ▸ h.known refName (.head _)
  listed := by
    rw [if_neg hstatus, href]
    exact h.listed refName (.head _)
  fresh hnd := href ▸ (h.fresh hnd).2 refName (.head _)
  nextRetryAt := hretry

/-- The chain is still ready when only the interpreter, the variables or the
issued operations have changed. -/
theorem Ready.of_eq (h : Ready c.world ⟨c.exec, wdef, refs⟩)
    (hw : c.world.Extends c'.world) (hstatus : c'.exec.status = c.exec.status)
    (hid : c'.exec.execId = c.exec.execId) (hrefs : c'.exec.refs = c.exec.refs) :
    Ready c'.world ⟨c'.exec, wdef, refs⟩ where
  running := hstatus.trans h.running
  known := h.known
  listed ref href := hid ▸ (h.listed ref href).extends hw
  fresh hnd := ⟨(h.fresh hnd).1, fun ref href => hrefs ▸ (h.fresh hnd).2 ref href⟩

section SpawnWithDef

variable {refs : List String} {refName : String} {taskDef : TaskDef} {input : StringMap}

/-- Make the instance of the current node and go on with the next reference. -/
theorem spawn_spawnNext_stretch (h : Ready c.world ⟨c.exec, wdef, refName :: refs⟩)
    (href : inst.nodeRef = refName) (hnew : New wdef c inst) :
    Stretch H wdef done false c (spawnNext H wdef done refs (c.spawn inst)) :=
  .head (.spawn c inst hnew) (spawnNext_stretch (h.spawn href))

/-- Make the instance of the current node and look again at all nodes. -/
theorem spawn_advance_stretch (hnew : New wdef c inst) :
    Stretch H wdef done false c (advance H wdef done (c.spawn inst)) :=
  .head (.spawn c inst hnew) (advance_stretch _ _ _ _)

section

variable (h : Ready c.world ⟨c.exec, wdef, refName :: refs⟩)

include h

theorem spawnEvent_stretch :
    Stretch H wdef done false c (spawnEvent H wdef done refName taskDef input c) := by
  unfold spawnEvent
  cases input.lookup "event" with
  | none =>
    exact spawn_advance_stretch
      (h.new rfl rfl rfl (show TaskStatus.completed ≠ .skipped by decide) rfl)
  | some event =>
    refine .head (.publish c event (input.erase "event")) ?_
    have h' : Ready (c.issue (publishEvent event (input.erase "event"))).world
        ⟨(c.issue (publishEvent event (input.erase "event"))).exec, wdef, refName :: refs⟩ := h
    exact spawn_advance_stretch
      (h'.new rfl rfl rfl (show TaskStatus.completed ≠ .skipped by decide) rfl)

theorem spawnSystemTask_stretch :
    Stretch H wdef done false c (spawnSystemTask H wdef done refName taskDef input c) := by
  unfold spawnSystemTask
  generalize hrun : execute H c.world.lua taskDef.type input c.exec.vars = run
  set d := if taskDef.type = .setVariable then
      (c.setLua run.2).setVars ((c.setLua run.2).exec.vars.merge run.1.outputData)
    else c.setLua run.2 with hd
  -- first the script runs and, for `SET_VARIABLE`, the variables change
  have hmoves : Moves H wdef c d ∧
      Ready d.world ⟨d.exec, wdef, refName :: refs⟩ := by
    have hlua : Ready (c.setLua run.2).world ⟨(c.setLua run.2).exec, wdef, refName :: refs⟩ :=
      h.extends (World.later_setLua _ _).toExtends
    rw [hd]
    split
    · exact ⟨.head (.lua c run.2) (.single (.vars _ _ h.running)),
        hlua.of_eq (World.Extends.refl _) rfl rfl rfl⟩
    · exact ⟨.single (.lua c run.2), hlua⟩
  obtain ⟨hmoves, hready⟩ := hmoves
  refine .trans hmoves ?_
  set inst : TaskInstance := { d.newInstance taskDef.name refName .completed with
    outputData := run.1.outputData } with hinst
  have hnew : New wdef d inst :=
    hready.new rfl rfl rfl (show TaskStatus.completed ≠ .skipped by decide) rfl
  refine .head (.spawn d inst hnew) ?_
  change Stretch H wdef done false (d.spawn inst) (if run.1.terminateWorkflow = true then
    (((d.spawn inst).setStatus run.1.terminateStatus).issue
      (onExecutionTerminal ((d.spawn inst).setStatus run.1.terminateStatus).exec)).close
        (done.apply ((d.spawn inst).setStatus run.1.terminateStatus).exec)
    else advance H wdef done (d.spawn inst))
  split
  · next hterm =>
    have hterminal : run.1.terminateStatus.isTerminal = true := by
      rw [← hrun] at hterm ⊢
      exact execute_isTerminal H hterm
    exact .head (.terminate (d.spawn inst) hready.running _ hterminal) (Exit.stretch (.yield _))
  · exact advance_stretch _ _ _ _

theorem spawnRejected_stretch (error : String) :
    Stretch H wdef done true c (spawnRejected wdef refName taskDef input error c) := by
  unfold spawnRejected
  set inst : TaskInstance := { c.newInstance taskDef.name refName .failed with
    inputData := toValueInput input
    outputData := [("error", "input schema validation failed: " ++ error)] } with hinst
  have hnew : New wdef c inst :=
    h.new rfl rfl rfl (show TaskStatus.failed ≠ .skipped by decide) rfl
  have hfailing : Failing wdef (c.spawn inst) inst :=
    ⟨h.running, .head _, mem_append_right _ (mem_singleton_self inst),
      mem_append_right _ (.head _), rfl, hnew.known, rfl⟩
  exact .head (.spawn c inst hnew) (Exit.stretch (.fail _ inst taskDef.retry hfailing))

theorem spawnScheduled_stretch (defName : String) :
    Stretch H wdef done false c (spawnScheduled H wdef done refs refName defName input c) :=
  spawn_spawnNext_stretch h rfl
    (h.new rfl rfl rfl (show TaskStatus.scheduled ≠ .skipped by decide) rfl)

theorem spawnWorkerTask_stretch :
    Stretch H wdef done (schemaError taskDef input).isSome c
      (spawnWorkerTask H wdef done refs refName taskDef input c) := by
  unfold spawnWorkerTask
  cases schemaError taskDef input with
  | some error => exact spawnRejected_stretch h error
  | none =>
    dsimp only
    split
    · exact spawnScheduled_stretch h _
    · exact spawnNext_stretch (h.sublist (sublist_cons_self _ _))

/-- A node that starts another workflow suspends the chain in that start. -/
theorem spawnStartWorkflow_stretch :
    Stretch H wdef done false c (spawnStartWorkflow H wdef done refs refName taskDef input c) := by
  unfold spawnStartWorkflow
  split
  · exact spawnNext_stretch (h.sublist (sublist_cons_self _ _))
  · exact Exit.stretch (.startWorkflow c _ _ refName taskDef.name
      (h.sublist (List.Sublist.cons_cons refName (nil_sublist refs))))

theorem spawnSubWorkflow_stretch :
    Stretch H wdef done false c (spawnSubWorkflow H wdef done refs refName taskDef input c) := by
  unfold spawnSubWorkflow
  split
  · exact spawnNext_stretch (h.sublist (sublist_cons_self _ _))
  · exact Exit.stretch (.subWorkflow c _ _ refs refName taskDef.name h)

end

/-- Whether `spawn_with_def` sends the node to `handle_failure`: a task for a worker
whose input does not match the schema. -/
def rejects (taskDef : Option TaskDef) (input : StringMap) : Bool :=
  match taskDef with
  | none => false
  | some taskDef =>
    match taskDef.type with
    | .human | .wait | .startWorkflow | .subWorkflow | .event => false
    | type => !isSystemTask type && (schemaError taskDef input).isSome

section

variable (h : Ready c.world ⟨c.exec, wdef, refName :: refs⟩)

include h

theorem spawnOther_stretch (type : TaskType) :
    Stretch H wdef done
      (!isSystemTask type && (schemaError taskDef input).isSome) c
      (if isSystemTask type then
        spawnSystemTask H wdef done refName taskDef input c
      else spawnWorkerTask H wdef done refs refName taskDef input c) := by
  cases isSystemTask type with
  | true => exact spawnSystemTask_stretch h
  | false => exact spawnWorkerTask_stretch h

theorem spawnWithDef_stretch
    (originalDefName : String) (taskDef : Option TaskDef) :
    Stretch H wdef done (rejects taskDef input) c
      (spawnWithDef H wdef done refs refName input originalDefName taskDef c) := by
  cases taskDef with
  | none => exact spawnScheduled_stretch h _
  | some taskDef =>
    unfold spawnWithDef rejects
    dsimp only
    cases taskDef.type with
    | human | wait =>
      exact spawn_spawnNext_stretch h rfl
        (h.new rfl rfl rfl (show TaskStatus.inProgress ≠ .skipped by decide) rfl)
    | startWorkflow => exact spawnStartWorkflow_stretch h
    | subWorkflow => exact spawnSubWorkflow_stretch h
    | event => exact spawnEvent_stretch h
    | _ => exact spawnOther_stretch h _

end

end SpawnWithDef

/-! ### The bound on the passes -/

/-- The nodes of a definition that an execution has no instance of. -/
def unspawned (wdef : WorkflowDef) (exec : WorkflowExecution) : Finset String :=
  wdef.refs.toFinset \ exec.refs.toFinset

/-- A pass that only skips leaves fewer nodes without an instance. -/
theorem unspawned_skipNodes_lt {scan : NodeScan σ} {lua : σ} (d : Cursor σ)
    (hscan : scanNodes H c.exec wdef wdef.nodes lua = scan) (hskip : scan.skip ≠ [])
    (hd : d.exec = c.exec) :
    (unspawned wdef (skipNodes wdef scan.skip d).exec).card < (unspawned wdef c.exec).card := by
  obtain ⟨ref, href⟩ := exists_mem_of_ne_nil _ hskip
  have hsub : ∀ r ∈ scan.skip, r ∈ wdef.refs ∧ r ∉ c.exec.refs := fun r hr =>
    listed_subset (v := .skip) (hscan ▸ hr)
  refine Finset.card_lt_card (Finset.ssubset_iff_of_subset ?_ |>.mpr ⟨ref, ?_, ?_⟩)
  · intro r hr
    rw [unspawned, refs_skipNodes fun r hr => (hsub r hr).1, hd] at hr
    simp only [unspawned, Finset.mem_sdiff, mem_toFinset, mem_append, not_or] at hr ⊢
    exact ⟨hr.1, hr.2.1⟩
  · simpa [unspawned] using hsub ref href
  · rw [unspawned, refs_skipNodes fun r hr => (hsub r hr).1]
    simp [href]

theorem advancePasses_eq (n m : ℕ) (c : Cursor σ) (hn : (unspawned wdef c.exec).card < n)
    (hm : (unspawned wdef c.exec).card < m) :
    advancePasses H wdef done n c = advancePasses H wdef done m c := by
  induction n generalizing m c with
  | zero => exact absurd hn (Nat.not_lt_zero _)
  | succ n ih =>
    cases m with
    | zero => exact absurd hm (Nat.not_lt_zero _)
    | succ m =>
      rw [advancePasses, advancePasses]
      generalize hscan : scanNodes H c.exec wdef wdef.nodes c.world.lua = scan
      by_cases hskip : scan.skip = []
      · simp only [hskip, and_true]
        split <;> [rfl; (split <;> [rfl; rfl])]
      · have hlt := unspawned_skipNodes_lt
          ((c.setLua scan.lua).record (.pass c.exec wdef scan.eligible scan.skip))
          hscan hskip rfl
        dsimp only
        rw [ih m _ (by omega) (by omega)]

/-- The unfolding of `advance`, with the recursive call of the source: the bound
on the number of passes is never reached. -/
theorem advance_eq (c : Cursor σ) :
    advance H wdef done c =
      if c.exec.status.isTerminal = true ∨ c.exec.status = .paused then
        c.close (done.apply c.exec)
      else
        let scan := scanNodes H c.exec wdef wdef.nodes c.world.lua
        let d := (c.setLua scan.lua).record (.pass c.exec wdef scan.eligible scan.skip)
        if scan.eligible = [] ∧ scan.skip = [] then finish wdef done d
        else if scan.eligible = [] then advance H wdef done (skipNodes wdef scan.skip d)
        else spawnNext H wdef done scan.eligible (skipNodes wdef scan.skip d) := by
  have hbound : ∀ exec, (unspawned wdef exec).card ≤ wdef.nodes.length := fun exec =>
    (Finset.card_le_card Finset.sdiff_subset).trans
      ((toFinset_card_le _).trans (by simp [WorkflowDef.refs]))
  rw [advance, advancePasses_eq (wdef.nodes.length + 1) (wdef.nodes.length + 2) c
    (Nat.lt_succ_of_le (hbound _)) (Nat.lt_succ_of_le (Nat.le_succ_of_le (hbound _)))]
  rfl

end Orchestrator

end Congelado
