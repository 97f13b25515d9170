import Congelado.Workflow.Passes

/-!
# One instance per node

`maybe_complete` compares the number of nested instances with the number of nodes,
so it is right only when no node has two instances. New instances are made for nodes
without one (`New.fresh`), and the other updates replace an instance by a later
version of itself. The exception is `sync_instance`: a result for an instance that
the execution does not list is appended, even if its node has an instance. That
happens for an instance made before a `restart`, and for one whose chain was
abandoned before its execution was written.

`OneEach` is the invariant of the runs in which it does not happen (`SyncsKnown`): every
stored execution, and every copy a pending operation holds, has at most one instance of
each node. `completed_covers` draws the conclusion for `maybe_complete` with a pigeonhole
argument. Which calls keep to `SyncsKnown` is a question of the whole run, and is answered
with the executions as they stand (`Orderly.known`).
-/

namespace Congelado

open Orchestrator Callback List

variable {σ : Type} {H : Host σ} {w : World σ} {op : Op} {wdef : WorkflowDef} {done : Done}
  {fails : Bool} {c c' : Cursor σ} {r : World σ × List Op} {x y : WorkflowExecution}
    {inst : TaskInstance}

/-! ### Instances that are written into an execution -/

/-- The instance is listed in the execution, or its node has no instance there. -/
def KnownIn (exec : WorkflowExecution) (inst : TaskInstance) : Prop :=
  inst.taskId ∈ exec.taskIds ∨ inst.nodeRef ∉ exec.refs

instance (exec : WorkflowExecution) (inst : TaskInstance) : Decidable (KnownIn exec inst) :=
  inferInstanceAs (Decidable (_ ∨ _))

/-- The instances of the execution with the id of `inst` are instances of its node. -/
def SameNode (exec : WorkflowExecution) (inst : TaskInstance) : Prop :=
  ∀ i ∈ exec.taskInstances, i.taskId = inst.taskId → i.nodeRef = inst.nodeRef

theorem Tracked.sameNode (hx : Tracked w x) (hr : Registry w) (hi : Registered w inst) :
    SameNode x inst := fun i hmem hid =>
  (hx.registered i hmem).nodeRef_eq hi hr hid

/-- A listed instance is replaced. -/
theorem refs_sync_of_mem (hsame : SameNode x inst) (hmem : inst.taskId ∈ x.taskIds) :
    (syncInstance x inst).refs = x.refs :=
  Keyed.map_put_of_forall TaskInstance.nodeRef hmem hsame

/-- Any other instance is appended. -/
theorem refs_sync_of_not_mem (hmem : inst.taskId ∉ x.taskIds) :
    (syncInstance x inst).refs = x.refs ++ [inst.nodeRef] := by
  unfold syncInstance WorkflowExecution.refs
  rw [Keyed.put_eq_append hmem, map_append, map_singleton]

/-- `retry` replaces instances by later versions of themselves. -/
theorem map_retry {α : Type} (f : TaskInstance → α) (hf : ∀ i, f (resetInstance i) = f i)
    (insts : List TaskInstance) : (insts.map retryInstance).map f = insts.map f := by
  rw [map_map]
  refine map_congr_left fun i _ => ?_
  unfold Function.comp retryInstance
  split <;> simp only [hf]

/-- So does `rerun`. -/
theorem refs_rerun {nodeRef : String} (hinst : findInstance x.taskInstances nodeRef = some inst)
    (input : Value) :
    (Keyed.put TaskInstance.nodeRef { resetInstance inst with inputData := input }
      x.taskInstances).map TaskInstance.nodeRef = x.refs := by
  obtain ⟨hmem, -⟩ := findInstance_mem hinst
  exact Keyed.map_key_put_of_mem (show inst.nodeRef ∈ _ from mem_map_of_mem hmem)

theorem nodup_sync (hnd : x.refs.Nodup) (hsame : SameNode x inst) (hknown : KnownIn x inst) :
    (syncInstance x inst).refs.Nodup := by
  by_cases hmem : inst.taskId ∈ x.taskIds
  · rwa [refs_sync_of_mem hsame hmem]
  · rw [refs_sync_of_not_mem hmem, ← concat_eq_append]
    exact hnd.concat (hknown.resolve_left hmem)

theorem nodup_afterFailure (hnd : x.refs.Nodup) (hsame : SameNode x inst)
    (hknown : KnownIn x inst) (now : Time) (retry : RetryPolicy) :
    (afterFailure now retry inst x).2.refs.Nodup := by
  unfold afterFailure
  split
  · have harmed : (syncInstance x (armRetry now retry inst)).refs.Nodup :=
      nodup_sync hnd hsame hknown
    exact harmed
  · exact nodup_sync (x := { x with status := .failed }) hnd hsame hknown

/-! ### Stretches -/

theorem Orchestrator.Move.nodup_refs (h : Move H wdef c c') (hdef : wdef.refs.Nodup)
    (hnd : c.exec.refs.Nodup) : c'.exec.refs.Nodup := by
  cases h with
  | spawn inst new =>
    rw [refs_spawn, ← concat_eq_append]
    exact hnd.concat (new.fresh hdef)
  | complete running done =>
    rwa [maybeComplete_eq running done]
  | _ => exact hnd

theorem moves_nodup_refs (h : Moves H wdef c c') (hdef : wdef.refs.Nodup)
    (hnd : c.exec.refs.Nodup) : c'.exec.refs.Nodup :=
  moves_rule (P := fun d => d.exec.refs.Nodup) h hnd fun _ _ hm => hm.nodup_refs hdef

/-- The id of a new instance is new, so no instance of the execution has it. -/
theorem Orchestrator.New.sameNode (h : New wdef c inst) (hc : c.Sound H wdef) :
    SameNode c.exec inst := by
  intro i hi hid
  have hlt := (hc.exec.registered i hi).lt hc.world.registry
  rw [hid, h.taskId] at hlt
  exact absurd hlt (lt_irrefl _)

theorem Orchestrator.Failing.sameNode (h : Failing wdef c inst) (hc : c.Sound H wdef) :
    SameNode c.exec inst :=
  hc.exec.sameNode hc.world.registry (hc.exec.registered inst h.nested)

theorem Orchestrator.Exit.nodup_refs (h : Exit wdef done fails c r y) (hc : c.Sound H wdef)
    (hdef : wdef.refs.Nodup) (hnd : c.exec.refs.Nodup) : y.refs.Nodup := by
  cases h with
  | fail _ inst retry failing =>
    exact nodup_afterFailure hnd (failing.sameNode hc)
      (.inl (mem_map_of_mem failing.nested)) _ _
  | orphan _ inst retry new status =>
    exact nodup_afterFailure hnd (new.sameNode hc) (.inr (new.fresh hdef)) _ _
  | _ => exact hnd

/-! ### The invariant -/

/-- Under a definition with distinct references, the execution has at most one
instance of each node. -/
def Distinct (defs : Keyed.Table WorkflowDef.name) (x : WorkflowExecution) : Prop :=
  ∀ wdef, defs.find? x.defName = some wdef → wdef.refs.Nodup → x.refs.Nodup

/-- What the operation writes into its execution is known there. -/
def Op.Known : Op → Prop
  | .findDef _ (.onTaskTerminal inst exec) | .findDef _ (.handleTimeout inst exec _ _) =>
    KnownIn exec inst
  | _ => True

instance : ∀ op : Op, Decidable op.Known := fun op => by
  unfold Op.Known
  split <;> infer_instance

/-- A stretch begins with an execution that has at most one instance of each node. -/
theorem Begins.nodup_refs (h : Begins w op wdef done x c) (hop : op.Sound H w) (hr : Registry w)
    (hknown : op.Known) (hnd : x.refs.Nodup) : c.exec.refs.Nodup := by
  cases h with
  | @deliver _ _ inst x =>
    exact nodup_sync hnd ((hop.own x rfl).sameNode hr (hop.carried inst (.head _))) hknown
  | @retry _ _ x =>
    change ((x.taskInstances.map retryInstance).map TaskInstance.nodeRef).Nodup
    rwa [map_retry _ fun _ => rfl]
  | restart => exact nodup_nil
  | @rerun _ _ _ inst x input _ _ hinst =>
    change ((Keyed.put TaskInstance.nodeRef { resetInstance inst with inputData := input }
      x.taskInstances).map TaskInstance.nodeRef).Nodup
    rwa [refs_rerun hinst]
  | _ => exact hnd

theorem Changes.distinct (h : Changes H w op r x y) (hw : w.Sound) (hop : op.Sound H w)
    (hknown : op.Known) (hx : Distinct w.workflowDefs x) : Distinct w.workflowDefs y := by
  cases h with
  | same | status | vars => exact hx
  | sync name inst hop' =>
    subst hop'
    intro wdef hdef hnd
    exact nodup_sync (hx wdef hdef hnd)
      ((hop.own x rfl).sameNode hw.registry (hop.carried inst (.head _))) hknown
  | fail inst wdef' retry hop' hr =>
    intro wdef hdef hnd
    rw [(afterFailure_version _ _ _ _).defName] at hdef
    have hx := hx wdef hdef hnd
    rcases hop' with ⟨name, rfl⟩ | ⟨name, rfl⟩
    · exact nodup_afterFailure hx
        ((hop.own x rfl).sameNode hw.registry (hop.carried inst (.head _)))
        (.inl (mem_map_of_mem hop.shape.2.2.2.1)) _ _
    · exact nodup_afterFailure hx
        ((hop.own x rfl).sameNode hw.registry (hop.carried inst (.head _))) hknown _ _
  | failNow name inst retry failureWorkflow hop' hr =>
    subst hop'
    intro wdef hdef hnd
    exact nodup_sync (x := { x with status := .failed }) (hx wdef hdef hnd)
      ((hop.own x rfl).sameNode hw.registry (hop.carried inst (.head _))) hknown
  | stretch begins moves exit =>
    obtain ⟨hext, hc, -⟩ := begins.sound hw hop
    have hname : y.defName = x.defName :=
      ((begins.version.trans (moves_version moves)).trans exit.version).defName
    intro wdef' hdef hnd
    -- the definition of the execution is the one the stretch runs under
    have hwdef := hc.wdef
    rw [begins.version.defName, hext.workflowDefs, ← hname, hdef] at hwdef
    cases hwdef
    have hstart := begins.nodup_refs hop hw.registry hknown (hx _ (hname ▸ hdef) hnd)
    exact exit.nodup_refs (moves_sound moves hc) hnd (moves_nodup_refs moves hnd hstart)

theorem Born.distinct (h : Born H w op r y) (hw : w.Sound) : Distinct w.workflowDefs y := by
  obtain ⟨name, vars, parent, callback, wdef, c', -, hdef, hmoves, hexit⟩ := h
  obtain ⟨hext, hc⟩ := launch_sound (H := H) hw vars parent hdef
  intro wdef' hdef' hnd
  have hwdef := hc.wdef
  rw [hext.workflowDefs, ← (moves_version hmoves).defName, ← hexit.version.defName, hdef'] at hwdef
  cases hwdef
  exact hexit.nodup_refs (moves_sound hmoves hc) hnd
    (moves_nodup_refs hmoves hnd nodup_nil)

/-- What a step writes into an execution is known there. -/
def SyncsKnown (s : Config (World σ) Op) : Label Call Time → Prop
  | .step => ∀ op ∈ s.queue.head?, op.Known
  | _ => True

instance (s : Config (World σ) Op) : ∀ l, Decidable (SyncsKnown s l)
  | .call _ | .env _ => .isTrue trivial
  | .step => inferInstanceAs (Decidable (∀ op ∈ s.queue.head?, op.Known))

/-- The invariant: soundness, the definitions, and one instance per node. -/
structure OneEach (H : Host σ) (defs : Keyed.Table WorkflowDef.name)
    (s : Config (World σ) Op) : Prop where
  sound : Sound H s
  workflowDefs : s.world.workflowDefs = defs
  distinct : Everywhere (Distinct defs) s.world s.queue

theorem Everywhere.of_calls {P : WorkflowExecution → Prop} {order : Order} {q : List Op}
    (h : Everywhere P w q) (call : Call) (now : Time) :
    Everywhere P w (order.enqueue q (call.issue now)) := by
  refine ⟨h.stored, fun x hx => ?_⟩
  obtain ⟨o, ho, hx⟩ := mem_flatMap.1 hx
  rcases Order.mem_enqueue.1 ho with ho | ho
  · exact h.held x (mem_flatMap.2 ⟨o, ho, hx⟩)
  · -- the first operations of a call hold nothing
    cases call <;> obtain rfl := mem_singleton.1 ho <;> exact absurd hx not_mem_nil

theorem Config.Initial.oneEach {s : Config (World σ) Op} (hs : Config.Initial s) :
    OneEach H s.world.workflowDefs s :=
  ⟨hs.sound, rfl, by simp [hs.1.execs], by simp [hs.2]⟩

section OneEach

variable {defs : Keyed.Table WorkflowDef.name} {order : Order} {q : List Op}

theorem OneEach.call (h : OneEach H defs ⟨w, q⟩) (call : Call) :
    OneEach H defs ⟨w, order.enqueue q (call.issue w.now)⟩ :=
  ⟨h.sound.call call, h.workflowDefs, h.distinct.of_calls call _⟩

theorem OneEach.env (h : OneEach H defs ⟨w, q⟩) (now : Time) :
    OneEach H defs ⟨{ w with now := now }, q⟩ :=
  ⟨h.sound.env now, h.workflowDefs, h.distinct.stored, h.distinct.held⟩

theorem OneEach.step (h : OneEach H defs ⟨w, op :: q⟩) (hknown : op.Known) :
    OneEach H defs (op.next H order w q) := by
  have hop := h.sound.queue op (.head _)
  have hdefs := (run_kept h.sound.world hop).extended.workflowDefs.trans h.workflowDefs
  refine ⟨h.sound.step, hdefs, h.distinct.step h.sound.ready (fun o ho => ?_) ?_ ?_⟩
  · exact Order.mem_enqueue.1 ho
  · intro x y hc hx
    exact h.workflowDefs ▸ hc.distinct h.sound.world hop hknown (h.workflowDefs ▸ hx)
  · intro y hb
    exact h.workflowDefs ▸ hb.distinct h.sound.world

end OneEach

/-- `A` is scheduled, the execution is terminated and restarted, and then the result
for the first instance of `A` comes in. -/
def restartThenLate : List (Label Call Time) :=
  .call (.start chainDef.name [] 0) :: steps 6 ++ .call (.terminate "0" 1) :: steps 6 ++
    .call (.restart "0" 2) :: steps 6 ++ .call (.submitResult "1" .success [] 3) :: steps 8

/-- A result for an instance made before a restart adds a second instance of its
node. -/
theorem restart_duplicates : Config.Initial chainStore ∧ chainDef.refs.Nodup ∧
    ∀ order, ∃ t, (machine literalHost).Run order Sequential chainStore t ∧
      ∃ x ∈ t.world.execs.rows, x.defName = chainDef.name ∧
        x.taskInstances.map (fun i => (i.taskId, i.nodeRef)) = [(2, "A"), (1, "A")] := by
  refine ⟨initial_ofDefinitions _ _ _ _, by decide, fun order => ?_⟩
  have hplays : (machine literalHost).Plays order Sequential restartThenLate chainStore := by
    cases order <;> decide +kernel
  refine ⟨_, .of_plays hplays, ?_⟩
  cases order <;> decide +kernel

/-! ### Identities -/

/-- The task instances in the store: the rows, and the copies in the executions. -/
def World.stored (w : World σ) : List TaskInstance :=
  w.instances.rows ++ w.execs.rows.flatMap WorkflowExecution.taskInstances

/-- An id stands for one node of one execution, the instances of an execution are its own, and the
definition of the execution has their nodes. -/
structure World.Consistent (w : World σ) : Prop where
  same : ∀ i ∈ w.stored, ∀ j ∈ w.stored, i.taskId = j.taskId →
    i.nodeRef = j.nodeRef ∧ i.workflowExecId = j.workflowExecId
  own : ∀ x ∈ w.execs.rows, x.taskIds.Nodup ∧ ∀ i ∈ x.taskInstances, i.workflowExecId = x.execId
  known : ∀ x ∈ w.execs.rows, ∃ wdef, w.workflowDefs.find? x.defName = some wdef ∧
    ∀ i ∈ w.stored, i.workflowExecId = x.execId → i.nodeRef ∈ wdef.refs

theorem World.Sound.consistent (h : w.Sound) : w.Consistent := by
  have hstored : ∀ i ∈ w.stored, Registered w i := by
    intro i hi
    obtain hi | hi := mem_append.1 hi
    · exact h.instances i hi
    · obtain ⟨x, hx, hi⟩ := mem_flatMap.1 hi
      exact (h.execs x hx).registered i hi
  refine ⟨fun i hi j hj hid => ?_, fun x hx => ?_, fun x hx => ?_⟩
  · -- both are versions of one instance that was made
    obtain ⟨a, ha, haid, href, hexec⟩ := hstored i hi
    obtain ⟨b, hb, hbid, href', hexec'⟩ := hstored j hj
    obtain rfl := h.registry.created_unique a b ha hb (haid.trans (hid.trans hbid.symm))
    exact ⟨href.symm.trans href', hexec.symm.trans hexec'⟩
  · exact ⟨(h.execs x hx).nodup, (h.execs x hx).belongs⟩
  · obtain ⟨wdef, hdef⟩ := (h.execs x hx).wdef h.registry
    exact ⟨wdef, hdef, fun i hi hexec => (hstored i hi).known h.registry (h.execs x hx) hexec hdef⟩

/-- **The store is consistent** in every run from an empty store: results that come late, twice or
after a restart do not mix executions or nodes up. -/
theorem store_consistent {order : Order} {ok : Config (World σ) Op → Label Call Time → Prop}
    {s t : Config (World σ) Op} (hs : Config.Initial s) (h : (machine H).Run order ok s t) :
    t.world.Consistent := by
  have hsound : Sound H t := h.invariant hs.sound (fun _ _ call hi _ => hi.call call)
    (fun _ _ now hi _ => hi.env now) fun _ _ _ hi _ => hi.step
  exact hsound.world.consistent

/-- Also with two instances of one node. -/
theorem store_consistent_late :
    ((machine literalHost).play .fifo restartThenLate chainStore).world.stored.length = 4 ∧
      ((machine literalHost).play .fifo restartThenLate chainStore).world.Consistent := by
  have hplays : (machine literalHost).Plays .fifo Sequential restartThenLate chainStore := by
    decide +kernel
  exact ⟨by decide +kernel, store_consistent (initial_ofDefinitions _ _ _ _) (.of_plays hplays)⟩

/-! ### Completion -/

/-- With at most one instance of each node, as many instances as nodes are
instances of all nodes. -/
theorem refs_cover (hnd : x.refs.Nodup) (hsub : ∀ r ∈ x.refs, r ∈ wdef.refs)
    (hlen : wdef.nodes.length ≤ x.taskInstances.length) : ∀ r ∈ wdef.refs, r ∈ x.refs := by
  have hperm : x.refs.Perm wdef.refs := by
    refine (hnd.subperm hsub).perm_of_length_le ?_
    simpa [WorkflowExecution.refs, WorkflowDef.refs] using hlen
  exact fun r hr => hperm.mem_iff.2 hr

theorem Cursor.Sound.refs_subset (hc : c.Sound H wdef) : ∀ r ∈ c.exec.refs, r ∈ wdef.refs := by
  intro r hr
  obtain ⟨i, hi, rfl⟩ := mem_map.1 hr
  exact (hc.exec.registered i hi).known hc.world.registry hc.exec (hc.exec.belongs i hi) hc.wdef

/-- Every node of the definition has an instance that is completed or skipped. -/
def Covers (x : WorkflowExecution) (wdef : WorkflowDef) : Prop :=
  ∀ node ∈ wdef.nodes, ∃ inst ∈ x.taskInstances, inst.nodeRef = node.refName ∧
    inst.status.isDone = true

instance (x : WorkflowExecution) (wdef : WorkflowDef) : Decidable (Covers x wdef) :=
  inferInstanceAs (Decidable (∀ node ∈ wdef.nodes, _))

theorem covers_of_allDone (hc : c.Sound H wdef) (hnd : c.exec.refs.Nodup)
    (hall : allDone c.exec wdef = true) : Covers c.exec wdef := by
  rw [allDone, Bool.and_eq_true, all_eq_true] at hall
  intro node hnode
  have hmem := refs_cover hnd hc.refs_subset (by simpa using hall.1) _ (mem_map_of_mem hnode)
  obtain ⟨i, hi, href⟩ := mem_map.1 hmem
  exact ⟨i, hi, href, hall.2 i hi⟩

/-- A stretch is entered with at most one instance of each node. -/
theorem Entry.nodup_refs {q : List Op} {defs : Keyed.Table WorkflowDef.name}
    (h : Entry w op wdef done c) (hi : OneEach H defs ⟨w, op :: q⟩) (hknown : op.Known)
    (hnd : wdef.refs.Nodup) : c.Sound H wdef ∧ c.exec.refs.Nodup := by
  have hop := hi.sound.queue op (.head _)
  cases h with
  | @begins _ _ _ x _ h =>
    obtain ⟨hext, hc, -⟩ := h.sound hi.sound.world hop
    have hx : x ∈ op.copies := by
      rcases h.copies with ⟨heq, -⟩ | ⟨child, callback, -, heq, -⟩ <;> simp [heq]
    have hdef : defs.find? x.defName = some wdef := by
      rw [← h.version.defName, ← hi.workflowDefs, ← hext.workflowDefs]
      exact hc.wdef
    exact ⟨hc, h.nodup_refs hop hi.sound.world.registry hknown
      (hi.distinct.held x (mem_append_left _ hx) wdef hdef hnd)⟩
  | launch hdef =>
    exact ⟨(launch_sound hi.sound.world _ _ hdef).2, nodup_nil⟩

/-- **Completion covers the definition.** In every run from an empty store, of any
calls in any order, in which every result or timeout that is written into an
execution is for an instance the execution lists or for a node without one: whenever
`maybe_complete` completes an execution of a definition with distinct references,
every node has an instance that is completed or skipped. -/
theorem completed_covers {order : Order} {s t : Config (World σ) Op}
    (hs : Config.Initial s) (h : (machine H).Run order SyncsKnown s t) :
    ∀ p ∈ t.world.completions, p.2.refs.Nodup → Covers p.1 p.2 := by
  have hinv : OneEach H s.world.workflowDefs t ∧
      ∀ p ∈ t.world.completions, p.2.refs.Nodup → Covers p.1 p.2 := by
    refine h.invariant (I := fun u => OneEach H s.world.workflowDefs u ∧
      ∀ p ∈ u.world.completions, p.2.refs.Nodup → Covers p.1 p.2) ⟨hs.oneEach, ?_⟩ ?_ ?_ ?_
    · simp [World.completions, hs.1.history]
    · exact fun _ _ call hi _ => ⟨hi.1.call call, hi.2⟩
    · exact fun _ _ now hi _ => ⟨hi.1.env now, hi.2⟩
    · rintro w op q ⟨hi, hold⟩ hok
      have hknown : op.Known := hok op rfl
      refine ⟨hi.step hknown, ?_⟩
      rintro ⟨x, wdef⟩ hp hnd
      have he : Event.completed x wdef ∈ (op.run H w).1.history := mem_completions.1 hp
      rcases recorded_of_run hi.sound.ready he id fun _ => id with
        he | ⟨wdef', done, c, d, hentry, hd, hrec, -⟩
      · exact hold (x, wdef) (mem_completions.2 he) hnd
      · cases hrec with
        | completed running hall =>
          obtain ⟨hc, hstart⟩ := hentry.nodup_refs hi hknown hnd
          have hcovers : Covers d.exec wdef :=
            covers_of_allDone (moves_sound hd hc) (moves_nodup_refs hd hnd hstart) hall
          exact hcovers
  exact hinv.2

/-- Both tasks of the chain complete. -/
def chainRun : List (Label Call Time) :=
  .call (.start chainDef.name [] 0) :: steps 8 ++ .call
    (.submitResult "1" .success [] 1) :: steps 8 ++
    .call (.submitResult "2" .success [] 2) :: steps 8

theorem completed_covers_chain :
    ((machine literalHost).play .fifo chainRun chainStore).world.completions.length = 1 ∧
    ∀ p ∈ ((machine literalHost).play .fifo chainRun chainStore).world.completions,
      p.2.refs.Nodup → Covers p.1 p.2 := by
  have hplays : (machine literalHost).Plays .fifo SyncsKnown chainRun chainStore := by
    decide +kernel
  exact ⟨by decide +kernel, completed_covers (initial_ofDefinitions _ _ _ _) (.of_plays hplays)⟩

/-- `T` leads to `A` and to the sub-workflow `S`, whose name is an output of `T`. -/
def parentDef : WorkflowDef where
  name := "parent-with-sub-workflow"
  nodes := [
    { defName := "t", refName := "T", edges := [
      { fromRef := "T", toRef := "A" },
      { fromRef := "T", toRef := "S",
        mappings := [{ source := "child", target := "workflow_name" }] }] },
    { defName := "a", refName := "A" },
    { defName := "sub-workflow-of-the-input", refName := "S" }]

/-- A workflow whose only task rejects its input. -/
def childDef : WorkflowDef where
  name := "child-with-input-schema"
  nodes := [{ defName := "task-with-required-input", refName := "K" }]

def parentStore : Config (World Unit) Op :=
  ⟨.ofDefinitions ⟨[parentDef, childDef], by decide⟩
    ⟨[{ name := "t" }, { name := "a" },
      { name := "sub-workflow-of-the-input", type := .subWorkflow },
      { name := "task-with-required-input", enforceSchema := true,
        inputSchema := some "\x7b\"required\": [\"x\"]\x7d" }],
      by decide⟩ .empty (), []⟩

/-- `T` completes twice and each time names the child, whose start is abandoned: the
rows of two instances of `A` are inserted, and neither is nested. Then both complete,
and at last `T` completes without naming a child. -/
def abandonedTwice : List (Label Call Time) :=
  .call (.start parentDef.name [] 0) :: steps 15 ++
    .call (.submitResult "1" .success [("child", childDef.name)] 1) :: steps 15 ++
    .call (.submitResult "1" .success [("child", childDef.name)] 2) :: steps 15 ++
    .call (.submitResult "2" .success [] 3) :: steps 15 ++
    .call (.submitResult "5" .success [] 4) :: steps 15 ++
    .call (.submitResult "1" .success [] 5) :: steps 15

/-- The parent is completed with two instances of `A` and none of `S`. -/
theorem completes_uncovered : Config.Initial parentStore ∧ parentDef.refs.Nodup ∧
    ∀ order, ∃ t, (machine literalHost).Run order Sequential parentStore t ∧
      (∃ p ∈ t.world.completions, p.2 = parentDef ∧ p.1.refs = ["T", "A", "A"] ∧
        ¬ Covers p.1 p.2) ∧
      ∃ x ∈ t.world.execs.rows, x.defName = parentDef.name ∧ x.status = .completed := by
  refine ⟨initial_ofDefinitions _ _ _ _, by decide, fun order => ?_⟩
  have hplays : (machine literalHost).Plays order Sequential abandonedTwice parentStore := by
    cases order <;> decide +kernel
  refine ⟨_, .of_plays hplays, ?_⟩
  cases order <;> decide +kernel

end Congelado
