import Congelado.Workflow.History

/-!
# Retries and skips in the passes of `advance`

A pass of `advance` looks at the nodes that have no instance yet and lists some of
them, to be spawned or to be skipped. This module is about two kinds of
predecessors that a pass meets.

* A predecessor that failed and is *parked*: `handle_failure` armed its retry and
  left it in a terminal status. `advance` does not look at the armed retry, so a
  successor whose predecessors are all terminal is skipped, and a join of type
  `ALL` goes ahead, while the retry is still to come. It is otherwise in a run that
  enters `advance` only with executions in which such a successor still waits for a
  live instance (`Guarded`); the moves of a stretch keep that, since they never
  change an instance that is there.
* A predecessor that was skipped. It counts as done, so its edges are evaluated like
  those of a completed predecessor: a node behind skipped nodes only is skipped when
  each edge carries a condition that evaluates to false, and is spawned otherwise.
-/

namespace Congelado

open Orchestrator Callback List

variable {σ : Type} {H : Host σ} {wdef : WorkflowDef} {node : TaskNode} {ref : String}
    {exec : WorkflowExecution} {c : Cursor σ}

/-! ### Armed retries -/

variable (exec)

/-- An instance of the node failed or timed out, and its retry is armed. -/
def parked (ref : String) : Bool :=
  exec.taskInstances.any fun inst =>
    inst.nodeRef = ref ∧ (inst.status = .failed ∨ inst.status = .timedOut) ∧
      inst.nextRetryAt.isSome

/-- The predecessors of a node: the sources of its edges, and its `join_on` list. -/
def predecessors (wdef : WorkflowDef) (node : TaskNode) : List String :=
  (incoming wdef node.refName).map TaskEdge.fromRef ++ node.joinOn

/-- A predecessor of the node waits for its retry. -/
def retryPending (wdef : WorkflowDef) (node : TaskNode) : Bool :=
  (predecessors wdef node).any (parked exec)

/-- The predecessors `advance` looks at: the `join_on` list, if there is one. -/
def awaited (wdef : WorkflowDef) (node : TaskNode) : List String :=
  if node.joinOn = [] then (incoming wdef node.refName).map TaskEdge.fromRef else node.joinOn

/-- The node has an instance that is scheduled or in progress. -/
def live (ref : String) : Bool :=
  (findInstance exec.taskInstances ref).any fun inst => !inst.status.isTerminal

/-- Every node without an instance that has a retry pending also waits for a live
instance. A join of type `ANY` is left out: it does not wait for all its
predecessors, and is never skipped. -/
def Guarded (wdef : WorkflowDef) : Prop :=
  ∀ node ∈ wdef.nodes, node.refName ∉ exec.refs → (node.joinOn ≠ [] → node.joinType = .all) →
    retryPending exec wdef node = true → ∃ ref ∈ awaited wdef node, live exec ref = true

variable {exec}

instance (exec : WorkflowExecution) (wdef : WorkflowDef) : Decidable (Guarded exec wdef) :=
  inferInstanceAs (Decidable (∀ node ∈ wdef.nodes, _))

/-- The pass respects the retries that are armed: what it skips, and the joins of
type `ALL` it makes eligible, have no retry pending. A reference is listed for one
of the nodes of that name. -/
def Pass.RespectsRetries (p : Pass) : Prop :=
  (∀ ref ∈ p.skip, ∃ node ∈ p.wdef.nodes, node.refName = ref ∧
    retryPending p.exec p.wdef node = false) ∧
  ∀ ref ∈ p.eligible, ∃ node ∈ p.wdef.nodes, node.refName = ref ∧
    (node.joinOn ≠ [] → node.joinType = .all → retryPending p.exec p.wdef node = false)

instance (p : Pass) : Decidable p.RespectsRetries :=
  inferInstanceAs (Decidable (_ ∧ _))

/-- A guarded execution is passed over with respect to its retries. -/
theorem Guarded.respects (h : Guarded exec wdef) (lua : σ) :
    (Pass.over H exec wdef lua).RespectsRetries := by
  -- a live predecessor is not terminal
  have notTerminal : ∀ r, live exec r = true →
    ∀ inst, findInstance exec.taskInstances r = some inst →
      inst.status.isTerminal = false := by
    intro r hr inst hinst
    simpa [live, hinst] using hr
  constructor
  · intro r hr
    obtain ⟨node, hnode, lua', rfl, hnew, hskip⟩ := mem_listed (v := .skip) hr
    obtain ⟨hjoin, hterm⟩ := judge_eq_skip hskip
    refine ⟨node, hnode, rfl, Bool.eq_false_iff.2 fun hpending => ?_⟩
    obtain ⟨r, hr, hlive⟩ := h node hnode hnew (absurd hjoin) hpending
    rw [awaited, if_pos hjoin] at hr
    obtain ⟨edge, hedge, rfl⟩ := mem_map.1 hr
    have hterm := hterm edge hedge
    rw [predecessorTerminal, Option.any_eq_true] at hterm
    obtain ⟨inst, hinst, hterm⟩ := hterm
    rw [notTerminal _ hlive inst hinst] at hterm
    cases hterm
  · intro r hr
    obtain ⟨node, hnode, lua', rfl, hnew, heligible⟩ := mem_listed (v := .eligible) hr
    refine ⟨node, hnode, rfl, fun hjoin htype => Bool.eq_false_iff.2 fun hpending => ?_⟩
    obtain ⟨r, hr, hlive⟩ := h node hnode hnew (fun _ => htype) hpending
    rw [awaited, if_neg hjoin] at hr
    have hready : joinReady exec node = true := by
      rw [judge_of_joinOn hjoin] at heligible
      cases hj : joinReady exec node <;> simp [hj] at heligible ⊢
    obtain ⟨inst, hinst, hterm⟩ := (joinReady_all htype).1 hready r hr
    rw [notTerminal _ hlive inst hinst] at hterm
    cases hterm

/-- Only the instances of the execution count. -/
theorem Guarded.congr {x y : WorkflowExecution} (h : Guarded x wdef)
    (heq : y.taskInstances = x.taskInstances) : Guarded y wdef := by
  unfold Guarded retryPending live WorkflowExecution.refs at h ⊢
  have hparked : parked y = parked x := by
    funext r
    simp only [parked, heq]
  rwa [hparked, heq]

theorem guarded_of_nil {x : WorkflowExecution} (h : x.taskInstances = []) : Guarded x wdef := by
  intro node _ _ _ hpending
  have hnone : ∀ r, parked x r = false := fun r => by simp [parked, h]
  simp [retryPending, hnone] at hpending

/-- A new instance has no retry armed and hides no other instance. -/
theorem Guarded.spawn {inst : TaskInstance} (h : Guarded c.exec wdef)
    (hretry : inst.nextRetryAt = none) : Guarded (c.spawn inst).exec wdef := by
  intro node hnode hnew hjoin hpending
  rw [refs_spawn, mem_append, not_or] at hnew
  have hparked : parked (c.spawn inst).exec = parked c.exec := by
    funext r
    simp [parked, Cursor.spawn, WorkflowExecution.addTaskInstance, hretry]
  rw [retryPending, hparked] at hpending
  obtain ⟨r, hr, hlive⟩ := h node hnode hnew.1 hjoin hpending
  refine ⟨r, hr, ?_⟩
  rw [live, Option.any_eq_true] at hlive ⊢
  obtain ⟨i, hi, hi'⟩ := hlive
  exact ⟨i, by
    simp only [findInstance] at hi
    simp [findInstance, Cursor.spawn, WorkflowExecution.addTaskInstance, find?_append, hi], hi'⟩

theorem Guarded.move {c' : Cursor σ} (h : Guarded c.exec wdef) (hm : Move H wdef c c') :
    Guarded c'.exec wdef := by
  cases hm with
  | spawn inst new => exact h.spawn new.nextRetryAt
  | complete running done =>
    rw [maybeComplete_eq running done]
    exact h.congr rfl
  | _ => exact h.congr rfl

/-! ### Which execution a step hands to `advance` -/

/-- The execution that waits for a start, with its definition. -/
def StartCallback.suspended : StartCallback → Option (WorkflowDef × WorkflowExecution)
  | .startWorkflow exec wdef _ _ _ | .subWorkflow exec wdef _ _ _ _ => some (wdef, exec)
  | .caller _ | .ignore => none

/-- The execution that the callback of an operation goes on working on, as it is
handed to `advance` or to the spawning of the next node, with its definition. The
new execution of a `start` has no instance and is left out. -/
def Op.advanced (w : World σ) : Op → Option (WorkflowDef × WorkflowExecution)
  | .findDef name (.onTaskTerminal inst exec) =>
    if inst.status.isDone then
      (w.findDef name (.onTaskTerminal inst exec)).map fun wdef => (wdef, syncInstance exec inst)
    else none
  | .findDef name (.sweepAdvance exec) =>
    (w.findDef name (.sweepAdvance exec)).map fun wdef => (wdef, exec)
  | .findDef name (.resume exec caller) =>
    (w.findDef name (.resume exec caller)).map fun wdef => (wdef, exec)
  | .findDef name (.reconcile exec caller) =>
    (w.findDef name (.reconcile exec caller)).map fun wdef => (wdef, exec)
  | .findDef name (.retry exec caller) =>
    (w.findDef name (.retry exec caller)).map fun wdef =>
      (wdef, { exec with taskInstances := exec.taskInstances.map retryInstance, status :=
        .running })
  | .findDef name (.rerun exec nodeRef input caller) =>
    (w.findDef name (.rerun exec nodeRef input caller)).bind fun wdef =>
      (Orchestrator.findInstance exec.taskInstances nodeRef).map fun inst =>
        (wdef, { exec with
          taskInstances := Keyed.put TaskInstance.nodeRef
            { resetInstance inst with inputData := input } exec.taskInstances
          status := .running })
  | .findDef _ (.start _ _ callback) | .insertExec _ callback => callback.suspended
  | .findTaskDef _ (.spawnNext exec wdef _ _ _ _ _)
  | .findTaskDef _ (.dynamic exec wdef _ _ _ _ _) => some (wdef, exec)
  | _ => none

theorem Entry.advanced {w : World σ} {op : Op} {done : Done} (h : Entry w op wdef done c) :
    op.advanced w = some (wdef, c.exec) ∨ c.exec.taskInstances = [] := by
  cases h with
  | begins h =>
    cases h with
    | sweepAdvance hdef | resume hdef | reconcile hdef | retry hdef =>
        exact .inl (by rw [Op.advanced, hdef]; rfl)
    | deliver hdef hdone =>
      exact .inl (by rw [Op.advanced, if_pos hdone, hdef]; rfl)
    | restart => exact .inr rfl
    | rerun hdef hinst =>
      exact .inl (by rw [Op.advanced, hdef, Option.bind_some, hinst]; rfl)
    | noChild h | child h => cases h <;> exact .inl rfl
    | _ => exact .inl rfl
  | launch => exact .inr rfl

/-- A step hands only guarded executions to `advance`. -/
def RetriesGuarded (s : Config (World σ) Op) : Label Call Time → Prop
  | .step => ∀ op ∈ s.queue.head?, ∀ e ∈ op.advanced s.world, Guarded e.2 e.1
  | _ => True

instance (s : Config (World σ) Op) : ∀ l, Decidable (RetriesGuarded s l)
  | .call _ | .env _ => .isTrue trivial
  | .step => inferInstanceAs (Decidable (∀ op ∈ s.queue.head?, _))

/-- **Armed retries are respected.** In every run from an empty store, of any calls
in any order, whose steps hand only guarded executions to `advance`: no pass lists a
node to be skipped, or a join of type `ALL` to be spawned, while one of its
predecessors waits for a retry, and an instance is made as `SKIPPED` only when a pass
listed its node so. -/
theorem advance_respects_retries {order : Order} {s t : Config (World σ) Op}
    (hs : Config.Initial s) (h : (machine H).Run order RetriesGuarded s t) :
    (∀ p ∈ t.world.passes, p.RespectsRetries) ∧
    ∀ inst, Event.created inst ∈ t.world.history → inst.status = .skipped →
      ∃ wdef, Listed t.world inst.workflowExecId wdef .skip inst.nodeRef := by
  constructor
  · refine Run.pass h hs fun w op q wdef done c d lua _ hok hentry hd => ?_
    have hguard : Guarded c.exec wdef := by
      rcases hentry.advanced with hadv | hnil
      · exact hok op rfl _ hadv
      · exact guarded_of_nil hnil
    exact (moves_rule (P := fun d => Guarded d.exec wdef) hd hguard
      fun _ _ hm hg => hg.move hm).respects lua
  · intro inst he hskip
    obtain ⟨wdef, -, hlisted⟩ := Run.created_listed h hs he
    rw [if_pos hskip] at hlisted
    exact ⟨wdef, hlisted⟩

/-- A host whose conditions are the literal `true` and anything else, and whose
scripts have no value. -/
def literalHost : Host Unit where
  evalCondition lua condition _ := (condition = "true", lua)
  evalValue lua _ _ := (none, lua)
  format := Nat.repr
  format_injective _ _ h := Nat.repr_injective h

variable (workflowDefs : Keyed.Table WorkflowDef.name) (taskDefs : Keyed.Table TaskDef.name)
    (handlers : Keyed.Table EventHandler.name)

/-- The store before the first call. -/
def World.ofDefinitions {σ : Type} (lua : σ) :
    World σ where
  workflowDefs := workflowDefs
  taskDefs := taskDefs
  handlers := handlers
  execs := .empty
  instances := .empty
  fresh := 0
  now := 0
  lua := lua
  history := []

theorem initial_ofDefinitions {σ : Type} (lua : σ) :
    Config.Initial ⟨World.ofDefinitions workflowDefs taskDefs handlers lua, []⟩ :=
  ⟨⟨rfl, rfl, rfl⟩, rfl⟩

/-- `A → B`, both simple tasks. -/
def chainDef : WorkflowDef where
  name := "chain-of-two-simple-tasks"
  nodes := [{ defName := "a", refName := "A", edges := [{ fromRef := "A", toRef := "B" }] },
    { defName := "b", refName := "B" }]

/-- Run the queue for `n` steps. -/
def steps (n : ℕ) : List (Label Call Time) := List.replicate n .step

def chainStore : Config (World Unit) Op :=
  ⟨.ofDefinitions ⟨[chainDef], by decide⟩ ⟨[{ name := "a" }, { name := "b" }], by decide⟩ .empty (),
    []⟩

/-- The first attempt of `A` fails, with retries left, and the sweep comes before
the retry. -/
def failThenSweep : List (Label Call Time) :=
  .call (.start chainDef.name [] 0) :: steps 8 ++ .call
    (.submitResult "1" .failure [] 1) :: steps 8 ++
    .call .sweepAdvance :: steps 8

/-- In a sequential run, `B` is skipped while the retry of `A` is armed. -/
theorem skips_while_retry_armed : Config.Initial chainStore ∧ ∀ order, ∃ t,
    (machine literalHost).Run order Sequential chainStore t ∧
      (∃ p ∈ t.world.passes, ¬ p.RespectsRetries) ∧
      ∃ x ∈ t.world.execs.rows, x.taskInstances.map (fun i => (i.nodeRef, i.status)) =
        [("A", .failed), ("B", .skipped)] := by
  refine ⟨initial_ofDefinitions _ _ _ _, fun order => ?_⟩
  have hplays : (machine literalHost).Plays order Sequential failThenSweep chainStore := by
    cases order <;> decide +kernel
  refine ⟨_, .of_plays hplays, ?_⟩
  cases order <;> decide +kernel

/-- `A → C` and `B → C`. -/
def forkDef : WorkflowDef where
  name := "fork-of-two-simple-tasks"
  nodes := [{ defName := "a", refName := "A", edges := [{ fromRef := "A", toRef := "C" }] },
    { defName := "b", refName := "B", edges := [{ fromRef := "B", toRef := "C" }] },
    { defName := "c", refName := "C" }]

def forkStore : Config (World Unit) Op :=
  ⟨.ofDefinitions ⟨[forkDef], by decide⟩
    ⟨[{ name := "a" }, { name := "b" }, { name := "c" }], by decide⟩ .empty (), []⟩

/-- `A` fails, and the sweep comes before its retry but while `B` is scheduled. -/
def failBesideLive : List (Label Call Time) :=
  .call (.start forkDef.name [] 0) :: steps 12 ++ .call
    (.submitResult "1" .failure [] 1) :: steps 8 ++
    .call .sweepAdvance :: steps 8

theorem advance_respects_retries_fork :
    (∀ p ∈ ((machine literalHost).play .fifo failBesideLive forkStore).world.passes,
      p.RespectsRetries) ∧
    ∃ p ∈ ((machine literalHost).play .fifo failBesideLive forkStore).world.passes,
      parked p.exec "A" = true ∧ live p.exec "B" = true := by
  have hplays : (machine literalHost).Plays .fifo RetriesGuarded failBesideLive forkStore := by
    decide +kernel
  exact ⟨(advance_respects_retries (initial_ofDefinitions _ _ _ _) (.of_plays hplays)).1,
    by decide +kernel⟩

/-! ### Skipped predecessors -/

/-- The instance of the node, as `advance` finds it, was skipped. -/
def skippedIn (exec : WorkflowExecution) (ref : String) : Bool :=
  (findInstance exec.taskInstances ref).any fun inst => inst.status = .skipped

/-- What a pass that starts in a state of the interpreter does with a node all of whose
predecessors were skipped: it evaluates all the edges, skips the node exactly when each of
them carries a condition that evaluates to false, and makes it eligible exactly when one of
them evaluates to true. -/
def Pass.FollowsEdges (H : Host σ) (p : Pass) (lua : σ) (node : TaskNode) : Prop :=
  let results := edgeResults H p.exec (luaAt H p.exec p.wdef node p.wdef.nodes lua)
    (incoming p.wdef node.refName)
  results.map Prod.fst = incoming p.wdef node.refName ∧
    (node.refName ∈ p.skip ↔ ∀ r ∈ results, r.1.condition.isSome = true ∧ r.2 = false) ∧
    (node.refName ∈ p.eligible ↔ ∃ r ∈ results, r.2 = true)

theorem over_followsEdges {lua : σ} (hnd : wdef.refs.Nodup)
    (hnode : node ∈ wdef.nodes) (hjoin : node.joinOn = []) (hnew : node.refName ∉ exec.refs)
    (hin : incoming wdef node.refName ≠ [])
    (hskipped : ∀ edge ∈ incoming wdef node.refName, skippedIn exec edge.fromRef = true) :
    (Pass.over H exec wdef lua).FollowsEdges H lua node := by
  have hpred : ∀ edge ∈ incoming wdef node.refName, ∃ pred,
      findInstance exec.taskInstances edge.fromRef = some pred ∧ pred.status = .skipped := by
    intro edge hedge
    simpa [skippedIn, Option.any_eq_true] using hskipped edge hedge
  -- no predecessor is outstanding, so the node does not wait
  have hterm : (incoming wdef node.refName).all (predecessorTerminal exec) = true := by
    refine all_eq_true.2 fun edge hedge => ?_
    obtain ⟨pred, hfind, hstatus⟩ := hpred edge hedge
    simp [predecessorTerminal, hfind, hstatus, TaskStatus.isTerminal]
  have hlisted : ∀ v ≠ Verdict.wait,
      node.refName ∈ (scanNodes H exec wdef wdef.nodes lua).listed v ↔ _ :=
    fun v hv => mem_listed_iff hnd hnode hnew hv
  simp only [judge_of_edges hjoin hin, hterm, scanEdges_anySatisfied, if_true] at hlisted
  refine ⟨map_fst_edgeResults fun edge hedge => ?_, (hlisted .skip nofun).trans ?_,
    (hlisted .eligible nofun).trans ?_⟩
  · obtain ⟨pred, hfind, hstatus⟩ := hpred edge hedge
    exact ⟨pred, hfind, by rw [hstatus]; rfl⟩
  · simp only [ite_eq_right_iff, reduceCtorEq, imp_false, any_eq_true, not_exists, not_and,
      Bool.not_eq_true]
    exact ⟨fun h r hr => ⟨condition_isSome_of_result hr (h r hr), h r hr⟩, fun h r hr => (h r hr).2⟩
  · simp [Pass.over]

/-- A switch: `S` leads to `A` and, by a condition that is false, to `B`; `B` leads
to `C` without a condition and to `D` by a condition that is false. -/
def switchDef : WorkflowDef where
  name := "switch-with-losing-branch"
  nodes := [
    { defName := "s", refName := "S", edges := [
      { fromRef := "S", toRef := "A", condition := some "true" },
      { fromRef := "S", toRef := "B", condition := some "false" }] },
    { defName := "a", refName := "A" },
    { defName := "b", refName := "B", edges := [
      { fromRef := "B", toRef := "C" },
      { fromRef := "B", toRef := "D", condition := some "false" }] },
    { defName := "c", refName := "C" },
    { defName := "d", refName := "D" }]

def switchStore : Config (World Unit) Op :=
  ⟨.ofDefinitions ⟨[switchDef], by decide⟩
    ⟨[{ name := "s" }, { name := "a" }, { name := "b" }, { name := "c" }, { name := "d" }],
      by decide⟩ .empty (), []⟩

/-- `S` completes, then `A` completes. -/
def switchRun : List (Label Call Time) :=
  .call (.start switchDef.name [] 0) :: steps 10 ++ .call
    (.submitResult "1" .success [] 1) :: steps 10 ++
    .call (.submitResult "3" .success [] 2) :: steps 10

theorem switchRun_sequential (order : Order) :
    (machine literalHost).Plays order Sequential switchRun switchStore := by
  cases order <;> decide +kernel

end Congelado
