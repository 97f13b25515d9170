import Congelado.Workflow.Copies

/-!
# What holds of every pending operation

Every task instance the system handles (a stored row, an instance nested in a
stored execution or in a copy of one, an instance captured by a callback) was made
once, under an id of its own, for a node of the definition its execution runs.
`Registry` says so of the history, and `Registered` and `Tracked` that an instance
or an execution is one of those recorded there; so an id determines the node and
the execution of an instance, whichever copy one looks at.

`Op.Sound` adds what the callbacks rely on: a chain is suspended where it may go on
(`Ready`), a result is handed to the execution it belongs to, and that execution
was live when it was read. `Sound` collects all this for a configuration, and
every step of a run keeps it.
-/

namespace Congelado

open Orchestrator Callback List

variable {σ : Type} {H : Host σ} {w w' : World σ} {x : WorkflowExecution} {op : Op}
    {inst : TaskInstance} {i : TaskInstance} {ops : List Op} {order : Order} {frames : List Frame}
    {q : List Op}

/-! ### The registry of identifiers -/

/-- The instances and executions that were made have ids of their own, and an
instance was made for a node of its execution's definition. -/
structure Registry (w : World σ) : Prop where
  created_lt : ∀ i, .created i ∈ w.history → i.taskId < w.fresh
  created_unique : ∀ i j, .created i ∈ w.history → .created j ∈ w.history →
    i.taskId = j.taskId → i = j
  opened_lt : ∀ e, .opened e ∈ w.history → e.execId < w.fresh
  opened_unique : ∀ e e', .opened e ∈ w.history → .opened e' ∈ w.history →
    e.execId = e'.execId → e = e'
  opened_wdef : ∀ e, .opened e ∈ w.history → ∃ wdef, w.workflowDefs.find? e.defName = some wdef
  known : ∀ i, .created i ∈ w.history → ∃ e wdef, .opened e ∈ w.history ∧
    e.execId = i.workflowExecId ∧ w.workflowDefs.find? e.defName = some wdef ∧
    i.nodeRef ∈ wdef.refs

/-- The instance is (a later version of) one that was made. -/
def Registered (w : World σ) (x : TaskInstance) : Prop :=
  ∃ i, .created i ∈ w.history ∧ i.taskId = x.taskId ∧ i.nodeRef = x.nodeRef ∧
    i.workflowExecId = x.workflowExecId

/-- The execution is (a later version of) one that was made, and its instances are
its own. -/
structure Tracked (w : World σ) (x : WorkflowExecution) : Prop where
  opened : ∃ e, .opened e ∈ w.history ∧ e.execId = x.execId ∧ e.defName = x.defName
  registered : ∀ i ∈ x.taskInstances, Registered w i
  belongs : ∀ i ∈ x.taskInstances, i.workflowExecId = x.execId
  nodup : x.taskIds.Nodup

theorem Registered.extends {x : TaskInstance} (h : Registered w x) (hw : w.Extends w') :
    Registered w' x := by
  obtain ⟨i, hi, hid⟩ := h
  exact ⟨i, hw.history.subset hi, hid⟩

theorem Tracked.extends (h : Tracked w x) (hw : w.Extends w') :
    Tracked w' x := by
  obtain ⟨e, he, hid⟩ := h.opened
  exact ⟨⟨e, hw.history.subset he, hid⟩, fun i hi => (h.registered i hi).extends hw, h.belongs,
    h.nodup⟩

/-- The definition of an execution is there. -/
theorem Tracked.wdef (h : Tracked w x) (hr : Registry w) :
    ∃ wdef, w.workflowDefs.find? x.defName = some wdef := by
  obtain ⟨e, he, -, hname⟩ := h.opened
  obtain ⟨wdef, hdef⟩ := hr.opened_wdef e he
  exact ⟨wdef, hname ▸ hdef⟩

/-- Only the identity of an instance counts. -/
theorem Registered.congr {x y : TaskInstance} (h : Registered w x) (hid : y.taskId = x.taskId)
    (href : y.nodeRef = x.nodeRef) (hexec : y.workflowExecId = x.workflowExecId) :
    Registered w y := by
  obtain ⟨i, hi, h₁, h₂, h₃⟩ := h
  exact ⟨i, hi, h₁.trans hid.symm, h₂.trans href.symm, h₃.trans hexec.symm⟩

theorem Registered.lt {x : TaskInstance} (h : Registered w x) (hr : Registry w) :
    x.taskId < w.fresh := by
  obtain ⟨i, hi, hid, -⟩ := h
  exact hid ▸ hr.created_lt i hi

/-- An id determines the node of an instance. -/
theorem Registered.nodeRef_eq {x y : TaskInstance} (hx : Registered w x) (hy : Registered w y)
    (hr : Registry w) (h : x.taskId = y.taskId) : x.nodeRef = y.nodeRef := by
  obtain ⟨i, hi, hid, href, -⟩ := hx
  obtain ⟨j, hj, hjd, hjref, -⟩ := hy
  obtain rfl := hr.created_unique i j hi hj (hid.trans (h.trans hjd.symm))
  exact href.symm.trans hjref

/-- An instance is one of a node of the definition its execution runs. -/
theorem Registered.known {wdef : WorkflowDef}
    (h : Registered w i) (hr : Registry w) (hx : Tracked w x) (hexec : i.workflowExecId = x.execId)
    (hdef : w.workflowDefs.find? x.defName = some wdef) : i.nodeRef ∈ wdef.refs := by
  obtain ⟨j, hj, -, href, hjexec⟩ := h
  obtain ⟨e, wdef', he, heid, hdef', hmem⟩ := hr.known j hj
  obtain ⟨e', he', heid', hname⟩ := hx.opened
  obtain rfl := hr.opened_unique e e' he he' (heid.trans (hjexec.trans (hexec.trans heid'.symm)))
  rw [hname, hdef] at hdef'
  cases hdef'
  exact href ▸ hmem

/-- Events that make nothing leave the registry as it is. -/
theorem Registry.of_same (h : Registry w) (hdefs : w'.workflowDefs = w.workflowDefs)
    (hfresh : w.fresh ≤ w'.fresh) (hcreated : ∀ i, .created i ∈ w'.history ↔ .created i ∈ w.history)
    (hopened : ∀ e, .opened e ∈ w'.history ↔ .opened e ∈ w.history) : Registry w' where
  created_lt i hi := (h.created_lt i ((hcreated i).1 hi)).trans_le hfresh
  created_unique i j hi hj := h.created_unique i j ((hcreated i).1 hi) ((hcreated j).1 hj)
  opened_lt e he := (h.opened_lt e ((hopened e).1 he)).trans_le hfresh
  opened_unique e e' he he' := h.opened_unique e e' ((hopened e).1 he) ((hopened e').1 he')
  opened_wdef e he := by
    obtain ⟨wdef, hdef⟩ := h.opened_wdef e ((hopened e).1 he)
    exact ⟨wdef, hdefs ▸ hdef⟩
  known i hi := by
    obtain ⟨e, wdef, he, hid, hdef, hmem⟩ := h.known i ((hcreated i).1 hi)
    exact ⟨e, wdef, (hopened e).2 he, hid, hdefs ▸ hdef, hmem⟩

/-- The event is not about something new. -/
def Event.Plain : Event → Prop
  | .created _ | .opened _ => False
  | _ => True

theorem Registry.record (h : Registry w) {e : Event} (he : e.Plain) : Registry (w.record e) := by
  refine h.of_same rfl le_rfl (fun i => ?_) (fun x => ?_)
  all_goals
    simp only [World.record, mem_cons, or_iff_right_iff_imp]
    rintro rfl
    exact he.elim

/-- A new instance for a node of its execution's definition. -/
theorem Registry.create (h : Registry w)
    {wdef : WorkflowDef} (hid : i.taskId = w.fresh) (hx : Tracked w x)
    (hexec : i.workflowExecId = x.execId) (hdef : w.workflowDefs.find? x.defName = some wdef)
    (hmem : i.nodeRef ∈ wdef.refs) : Registry (w.bump.record (.created i)) := by
  have hold : ∀ j, Event.created j ∈ (w.bump.record (.created i)).history →
      j = i ∨ .created j ∈ w.history := fun j hj => by
    simpa [World.record, World.bump] using hj
  have hopen : ∀ e, Event.opened e ∈ (w.bump.record (.created i)).history →
      .opened e ∈ w.history := fun e he => by
    simpa [World.record, World.bump] using he
  refine ⟨fun j hj => ?_, fun j k hj hk hjk => ?_, fun e he => ?_, fun e e' he he' => ?_,
    fun e he => h.opened_wdef e (hopen e he), fun j hj => ?_⟩
  · rcases hold j hj with rfl | hj
    · exact hid ▸ Nat.lt_succ_self _
    · exact (h.created_lt j hj).trans (Nat.lt_succ_self _)
  · rcases hold j hj with rfl | hj' <;> rcases hold k hk with rfl | hk'
    · rfl
    · exact absurd (h.created_lt k hk') (by rw [← hjk, hid]; exact lt_irrefl _)
    · exact absurd (h.created_lt j hj') (by rw [hjk, hid]; exact lt_irrefl _)
    · exact h.created_unique j k hj' hk' hjk
  · exact (h.opened_lt e (hopen e he)).trans (Nat.lt_succ_self _)
  · exact h.opened_unique e e' (hopen e he) (hopen e' he')
  · rcases hold j hj with rfl | hj
    · obtain ⟨e, he, heid, hname⟩ := hx.opened
      exact ⟨e, wdef, .tail _ he, heid.trans hexec.symm, hname ▸ hdef, hmem⟩
    · obtain ⟨e, wdef', he, heid, hdef', hmem'⟩ := h.known j hj
      exact ⟨e, wdef', .tail _ he, heid, hdef', hmem'⟩

/-- A new execution. -/
theorem Registry.open (h : Registry w) {wdef : WorkflowDef}
    (hid : x.execId = w.fresh) (hdef : w.workflowDefs.find? x.defName = some wdef) :
    Registry (w.bump.record (.opened x)) := by
  have hold : ∀ e, Event.opened e ∈ (w.bump.record (.opened x)).history →
      e = x ∨ .opened e ∈ w.history := fun e he => by
    simpa [World.record, World.bump] using he
  have hcreate : ∀ i, Event.created i ∈ (w.bump.record (.opened x)).history →
      .created i ∈ w.history := fun i hi => by
    simpa [World.record, World.bump] using hi
  refine ⟨fun i hi => ?_, fun i j hi hj => ?_, fun e he => ?_, fun e e' he he' hee => ?_,
    fun e he => ?_, fun i hi => ?_⟩
  · exact (h.created_lt i (hcreate i hi)).trans (Nat.lt_succ_self _)
  · exact h.created_unique i j (hcreate i hi) (hcreate j hj)
  · rcases hold e he with rfl | he
    · exact hid ▸ Nat.lt_succ_self _
    · exact (h.opened_lt e he).trans (Nat.lt_succ_self _)
  · rcases hold e he with rfl | hold₁ <;> rcases hold e' he' with rfl | hold₂
    · rfl
    · exact absurd (h.opened_lt e' hold₂) (by rw [← hee, hid]; exact lt_irrefl _)
    · exact absurd (h.opened_lt e hold₁) (by rw [hee, hid]; exact lt_irrefl _)
    · exact h.opened_unique e e' hold₁ hold₂ hee
  · rcases hold e he with rfl | he
    · exact ⟨wdef, hdef⟩
    · exact h.opened_wdef e he
  · obtain ⟨e, wdef, he, heid, hdef, hmem⟩ := h.known i (hcreate i hi)
    exact ⟨e, wdef, .tail _ he, heid, hdef, hmem⟩

/-! ### Updates of tracked executions -/

section Tracked

section

variable (h : Tracked w x)

include h

/-- Only the identity of an execution and its instances count. -/
theorem Tracked.congr {y : WorkflowExecution} (hid : y.execId = x.execId)
    (hname : y.defName = x.defName) (hsub : y.taskInstances.Sublist x.taskInstances) :
    Tracked w y := by
  obtain ⟨e, he, heid, hename⟩ := h.opened
  refine ⟨⟨e, he, heid.trans hid.symm, hename.trans hname.symm⟩, ?_, ?_, ?_⟩
  · exact fun i hi => h.registered i (hsub.subset hi)
  · exact fun i hi => (h.belongs i (hsub.subset hi)).trans hid.symm
  · exact h.nodup.sublist (hsub.map _)

/-- An instance of the execution is written into it, under whichever key. -/
theorem Tracked.put {κ : Type} [DecidableEq κ] {key : TaskInstance → κ}
    (hreg : Registered w inst) (hexec : inst.workflowExecId = x.execId)
    (hids : ((Keyed.put key inst x.taskInstances).map TaskInstance.taskId).Nodup)
    (status : WorkflowStatus) :
    Tracked w { x with status := status, taskInstances := Keyed.put key inst x.taskInstances } where
  opened := h.opened
  registered i hi := by
    rcases Keyed.mem_put hi with rfl | hi
    · exact hreg
    · exact h.registered i hi
  belongs i hi := by
    rcases Keyed.mem_put hi with rfl | hi
    · exact hexec
    · exact h.belongs i hi
  nodup := hids

theorem Tracked.sync (hreg : Registered w inst)
    (hexec : inst.workflowExecId = x.execId) : Tracked w (syncInstance x inst) :=
  h.put hreg hexec (Keyed.nodup_put h.nodup) x.status

/-- The instances of the execution are replaced by later versions of themselves. -/
theorem Tracked.map (f : TaskInstance → TaskInstance)
    (hf : ∀ i, (f i).taskId = i.taskId ∧ (f i).nodeRef = i.nodeRef ∧
      (f i).workflowExecId = i.workflowExecId) (status : WorkflowStatus) :
    Tracked w { x with taskInstances := x.taskInstances.map f, status := status } where
  opened := h.opened
  registered i hi := by
    obtain ⟨j, hj, rfl⟩ := mem_map.1 hi
    obtain ⟨hid, href, hexec⟩ := hf j
    exact (h.registered j hj).congr hid href hexec
  belongs i hi := by
    obtain ⟨j, hj, rfl⟩ := mem_map.1 hi
    exact (hf j).2.2.trans (h.belongs j hj)
  nodup := by
    have hids : (x.taskInstances.map f).map TaskInstance.taskId = x.taskIds := by
      rw [map_map]
      exact map_congr_left fun i _ => (hf i).1
    unfold WorkflowExecution.taskIds
    rw [hids]
    exact h.nodup

/-- What `handle_failure` writes is tracked. -/
theorem Tracked.afterFailure (hreg : Registered w inst)
    (hexec : inst.workflowExecId = x.execId) (now : Time) (retry : RetryPolicy) :
    Registered w (afterFailure now retry inst x).1 ∧
      Tracked w (afterFailure now retry inst x).2 := by
  unfold Orchestrator.afterFailure
  split
  · have harmed : Registered w (armRetry now retry inst) := hreg.congr rfl rfl rfl
    exact ⟨harmed, h.sync harmed hexec⟩
  · exact ⟨hreg, h.put hreg hexec (Keyed.nodup_put h.nodup) .failed⟩

end

end Tracked

/-! ### Sound operations -/

/-- The task instances captured by the callback of an operation. -/
def Op.carried : Op → List TaskInstance
  | .findDef _ (.onTaskTerminal inst _) | .findDef _ (.handleTimeout inst _ _ _)
  | .findTaskDef _ (.processTerminal inst _ _) | .findTaskDef _ (.handleTimeout inst)
  | .findTaskDef _ (.claim inst _) | .findExec _ (.onTaskTerminal inst)
  | .findExec _ (.handleTimeout inst _ _) | .insertInstance inst | .updateInstance inst _ => [inst]
  | _ => []

/-- What a callback relies on when it goes on: a definition is looked up under the
execution's name, an execution under the name of the instance, and the execution
was live or running when it was read. -/
def Op.Shape (H : Host σ) (w : World σ) : Op → Prop
  | .findDef name (.onTaskTerminal inst exec) =>
    name = exec.defName ∧ exec.status.isTerminal = false ∧ inst.workflowExecId = exec.execId
  | .findDef name (.handleTimeout inst exec _ _) =>
    name = exec.defName ∧ exec.status.isTerminal = false ∧ inst.workflowExecId = exec.execId ∧
      inst.status = .timedOut
  | .findDef name (.sweepAdvance exec) | .findDef name (.resume exec _) =>
    name = exec.defName ∧ exec.status = .running
  | .findDef name (.retry exec _) | .findDef name (.restart exec _)
  | .findDef name (.rerun exec _ _ _) | .findDef name (.reconcile exec _) => name = exec.defName
  | .findTaskDef _ (.processTerminal inst exec wdef) =>
    w.workflowDefs.find? exec.defName = some wdef ∧ exec.status.isTerminal = false ∧
      inst.workflowExecId = exec.execId ∧ inst ∈ exec.taskInstances ∧
      (inst.status = .failed ∨ inst.status = .timedOut)
  | .findExec key (.onTaskTerminal inst) => key = H.format inst.workflowExecId
  | .findExec key (.handleTimeout inst _ _) =>
    key = H.format inst.workflowExecId ∧ inst.status = .timedOut
  | _ => True

/-- The suspended chains of an operation may go on, under the definitions of the
executions they hold. -/
structure FramesSound (w : World σ) (frames : List Frame) : Prop where
  ready : ∀ f ∈ frames, Ready w f ∧ w.workflowDefs.find? f.exec.defName = some f.wdef
  tracked : ∀ f ∈ frames, Tracked w f.exec

theorem FramesSound.extends (h : FramesSound w frames)
    (hw : w.Extends w') : FramesSound w' frames where
  ready f hf := ⟨(h.ready f hf).1.extends hw, hw.workflowDefs ▸ (h.ready f hf).2⟩
  tracked f hf := (h.tracked f hf).extends hw

theorem FramesSound.nil : FramesSound w [] :=
  ⟨forall_mem_nil _, forall_mem_nil _⟩

theorem FramesSound.cons {f : Frame} (hready : Ready w f)
    (hdef : w.workflowDefs.find? f.exec.defName = some f.wdef) (hf : Tracked w f.exec)
    (h : FramesSound w frames) : FramesSound w (f :: frames) where
  ready := forall_mem_cons.2 ⟨⟨hready, hdef⟩, h.ready⟩
  tracked := forall_mem_cons.2 ⟨hf, h.tracked⟩

theorem FramesSound.tail {f : Frame} (h : FramesSound w (f :: frames)) :
    FramesSound w frames :=
  ⟨(forall_mem_cons.1 h.ready).2, (forall_mem_cons.1 h.tracked).2⟩

/-- A pending operation is sound: its suspended chains may go on, and what it holds
and carries is registered. -/
structure Op.Sound (H : Host σ) (w : World σ) (op : Op) : Prop where
  frames : FramesSound w op.frames
  own : ∀ x ∈ op.own, Tracked w x
  carried : ∀ i ∈ op.carried, Registered w i
  shape : op.Shape H w

theorem Op.Sound.extends (h : op.Sound H w) (hw : w.Extends w') : op.Sound H w' where
  frames := h.frames.extends hw
  own x hx := (h.own x hx).extends hw
  carried i hi := (h.carried i hi).extends hw
  shape := by
    have hshape := h.shape
    unfold Op.Shape at hshape ⊢
    split <;> simp_all [hw.workflowDefs]

theorem Op.Sound.copies (h : op.Sound H w) : ∀ x ∈ op.copies, Tracked w x := by
  intro x hx
  rcases mem_append.1 hx with hx | hx
  · exact h.own x (Option.mem_toList.1 hx)
  · obtain ⟨f, hf, rfl⟩ := mem_map.1 hx
    exact h.frames.tracked f hf

/-- An operation that holds and carries nothing. -/
theorem Op.Sound.of_nil (hown : op.own = none) (hframes : op.frames = [])
    (hcarried : op.carried = []) (hshape : op.Shape H w) : op.Sound H w where
  frames := hframes ▸ .nil
  own x hx := by simp [hown] at hx
  carried := hcarried ▸ forall_mem_nil _
  shape := hshape

/-- An operation that holds nothing and carries one instance. -/
theorem Op.Sound.of_carried (hown : op.own = none)
    (hframes : op.frames = []) (hcarried : op.carried = [inst]) (hreg : Registered w inst)
    (hshape : op.Shape H w) : op.Sound H w where
  frames := hframes ▸ .nil
  own x hx := by simp [hown] at hx
  carried := hcarried ▸ forall_mem_singleton.2 hreg
  shape := hshape

/-- An operation that holds one execution of its own. -/
theorem Op.Sound.of_own (hown : op.own = some x)
    (hframes : op.frames = []) (hx : Tracked w x) (hcarried : ∀ i ∈ op.carried, Registered w i)
    (hshape : op.Shape H w) : op.Sound H w where
  frames := hframes ▸ .nil
  own y hy := by
    rw [hown, Option.mem_some_iff] at hy
    exact hy ▸ hx
  carried := hcarried
  shape := hshape

/-- An operation that holds suspended chains only. -/
theorem Op.Sound.of_frames (h : FramesSound w op.frames) (hown : op.own = none)
    (hcarried : op.carried = []) (hshape : op.Shape H w) : op.Sound H w where
  frames := h
  own x hx := by simp [hown] at hx
  carried := hcarried ▸ forall_mem_nil _
  shape := hshape

theorem Op.Announces.sound (h : op.Announces) : op.Sound H w := by
  unfold Op.Announces at h
  split at h
  · exact .of_nil rfl rfl rfl trivial
  · exact .of_nil rfl rfl rfl trivial
  · exact .of_nil rfl rfl rfl trivial
  · exact h.elim

theorem sound_onExecutionTerminal (x : WorkflowExecution) :
    ∀ op ∈ onExecutionTerminal x, op.Sound H w := fun op hop =>
  (announces_onExecutionTerminal x op hop).sound

theorem sound_updateInstance {k : InstanceWritten} (h : Registered w inst) :
    (Op.updateInstance inst k).Sound H w :=
  .of_carried rfl rfl rfl h trivial

theorem sound_updateExec {k : ExecWritten} (h : Tracked w x) : (Op.updateExec x k).Sound H w :=
  .of_own rfl rfl h (forall_mem_nil _) trivial

theorem sound_onTaskTerminal (h : Registered w inst) :
    ∀ op ∈ onTaskTerminal H inst, op.Sound H w :=
  forall_mem_singleton.2 (.of_carried rfl rfl rfl h rfl)

/-- `done` is called with a tracked execution. -/
theorem sound_done {done : Done} (hx : Tracked w x)
    (hframes : FramesSound w done.frames) : ∀ op ∈ done.apply x, op.Sound H w := by
  cases done with
  | insertExec callback =>
    exact forall_mem_singleton.2 ⟨hframes, fun y hy => Option.mem_some_iff.1 hy ▸ hx,
      forall_mem_nil _, trivial⟩
  | updateExec | updateExecThen => exact forall_mem_singleton.2 (sound_updateExec hx)

/-! ### Sound stretches -/

/-- The store is sound: it holds registered instances and tracked executions. -/
structure World.Sound (w : World σ) : Prop where
  registry : Registry w
  execs : ∀ x ∈ w.execs.rows, Tracked w x
  instances : ∀ i ∈ w.instances.rows, Registered w i

section

variable (h : w.Sound)

include h

/-- Nothing was written, and the registry is in order. -/
theorem World.Sound.later (hw : w.Later w') (hr : Registry w') : w'.Sound where
  registry := hr
  execs x hx := (h.execs x (hw.execs ▸ hx)).extends hw.toExtends
  instances i hi := (h.instances i (hw.instances ▸ hi)).extends hw.toExtends

theorem World.Sound.setLua (lua : σ) : (w.setLua lua).Sound :=
  h.later (World.later_setLua _ _)
    (h.registry.of_same rfl le_rfl (fun _ => Iff.rfl) fun _ => Iff.rfl)

theorem World.Sound.record {e : Event} (he : e.Plain) : (w.record e).Sound :=
  h.later (World.later_record _ _) (h.registry.record he)

theorem World.Sound.answered (hanswer : Answered w w') : w'.Sound := by
  obtain rfl | ⟨e, he, rfl⟩ := hanswer
  · exact h
  · cases e <;> first | exact h.record trivial | exact he.elim

theorem World.Sound.putExec (hx : Tracked w x) : (w.putExec x).Sound where
  registry := h.registry.of_same rfl le_rfl (fun _ => Iff.rfl) fun _ => Iff.rfl
  execs y hy := by
    rcases Keyed.mem_put hy with rfl | hy
    · exact hx.extends (World.extends_putExec _ _)
    · exact (h.execs y hy).extends (World.extends_putExec _ _)
  instances i hi := (h.instances i hi).extends (World.extends_putExec _ _)

theorem World.Sound.putInstance (hi : Registered w i) : (w.putInstance i).Sound where
  registry := h.registry.of_same rfl le_rfl (fun _ => Iff.rfl) fun _ => Iff.rfl
  execs y hy := (h.execs y hy).extends (World.extends_putInstance _ _)
  instances j hj := by
    rcases Keyed.mem_put hj with rfl | hj
    · exact hi.extends (World.extends_putInstance _ _)
    · exact (h.instances j hj).extends (World.extends_putInstance _ _)

end

/-- What a callback leaves: a sound store and sound operations. -/
structure Kept (H : Host σ) (w : World σ) (r : World σ × List Op) : Prop where
  extended : w.Extends r.1
  world : r.1.Sound
  ops : ∀ op ∈ r.2, op.Sound H r.1

/-- A callback that issues nothing. -/
theorem Kept.nil (hw : w.Extends w') (h : w'.Sound) : Kept H w (w', []) :=
  ⟨hw, h, forall_mem_nil _⟩

/-- A callback that may answer, and issues operations. -/
theorem Kept.after (h : w.Sound) (hanswer : Answered w w') (hops : ∀ op ∈ ops, op.Sound H w) :
    Kept H w (w', ops) where
  extended := hanswer.later.toExtends
  world := h.answered hanswer
  ops op hop := (hops op hop).extends hanswer.later.toExtends

/-- A callback that does nothing but issue operations. -/
theorem Kept.issue (h : w.Sound) (hops : ∀ op ∈ ops, op.Sound H w) :
    Kept H w (w, ops) :=
  ⟨World.Extends.refl w, h, hops⟩

theorem Kept.single (h : w.Sound) (hop : op.Sound H w) : Kept H w (w, [op]) :=
  .issue h (forall_mem_singleton.2 hop)

/-- A cursor at work on a tracked execution under its own definition. -/
structure Cursor.Sound (H : Host σ) (wdef : WorkflowDef) (c : Cursor σ) : Prop where
  world : c.world.Sound
  exec : Tracked c.world c.exec
  wdef : c.world.workflowDefs.find? c.exec.defName = some wdef
  ops : ∀ op ∈ c.ops, op.Sound H c.world

section Stretch

variable {wdef : WorkflowDef} {done : Done} {fails : Bool} {c c' : Cursor σ} {r : World σ × List Op}
    {y : WorkflowExecution}

/-- A new instance is registered in the world in which it was made. -/
theorem Orchestrator.New.sound (h : New wdef c inst) (hc : c.Sound H wdef) :
    (c.world.bump.record (.created inst)).Sound ∧
      Registered (c.world.bump.record (.created inst)) inst :=
  ⟨hc.world.later ((World.later_bump _).trans (World.later_record _ _))
      (hc.world.registry.create h.taskId hc.exec h.workflowExecId hc.wdef h.known),
    inst, .head _, rfl, rfl, rfl⟩

theorem Orchestrator.Move.sound (h : Move H wdef c c') (hc : c.Sound H wdef) :
    c'.Sound H wdef := by
  have hw := h.later.toExtends
  have hops : ∀ op ∈ c.ops, op.Sound H c'.world := fun op hop => (hc.ops op hop).extends hw
  have hexec := hc.exec.extends hw
  cases h with
  | lua lua => exact ⟨hc.world.setLua lua, hexec, hc.wdef, hops⟩
  | pass running lua => exact ⟨hc.world.record trivial, hexec, hc.wdef, hops⟩
  | spawn inst new =>
    obtain ⟨hworld, hreg⟩ := new.sound hc
    refine ⟨hworld, ⟨hexec.opened, ?_, ?_, ?_⟩, hc.wdef, ?_⟩
    · exact forall_mem_append.2 ⟨hexec.registered, forall_mem_singleton.2 hreg⟩
    · exact forall_mem_append.2
        ⟨hexec.belongs, forall_mem_singleton.2 new.workflowExecId⟩
    · -- the ids of the other instances were handed out before
      have hnew : inst.taskId ∉ c.exec.taskIds := fun hmem => by
        obtain ⟨i, hi, hid⟩ := mem_map.1 hmem
        have hlt := (hc.exec.registered i hi).lt hc.world.registry
        rw [hid, new.taskId] at hlt
        exact absurd hlt (lt_irrefl _)
      rw [taskIds_spawn]
      exact nodup_append.2 ⟨hc.exec.nodup, nodup_singleton _, fun a ha b hb => by
        rw [mem_singleton] at hb
        rintro rfl
        exact hnew (hb ▸ ha)⟩
    · exact forall_mem_append.2
        ⟨hops, forall_mem_singleton.2 (.of_carried rfl rfl rfl hreg trivial)⟩
  | vars vars running =>
    exact ⟨hc.world, hexec.congr rfl rfl (.refl _), hc.wdef, hops⟩
  | publish event payload =>
    exact ⟨hc.world, hexec, hc.wdef, forall_mem_append.2
      ⟨hops, forall_mem_singleton.2 (.of_nil rfl rfl rfl trivial)⟩⟩
  | complete running done =>
    rw [maybeComplete_eq running done] at hops hexec ⊢
    exact ⟨hc.world.record trivial, hexec.congr rfl rfl (.refl _), hc.wdef,
      forall_mem_append.2 ⟨hops, sound_onExecutionTerminal _⟩⟩
  | terminate running status terminal =>
    exact ⟨hc.world, hexec.congr rfl rfl (.refl _), hc.wdef,
      forall_mem_append.2 ⟨hops, sound_onExecutionTerminal _⟩⟩

theorem moves_sound (h : Moves H wdef c c') (hc : c.Sound H wdef) :
    c'.Sound H wdef :=
  moves_rule (P := fun d => d.Sound H wdef) h hc fun _ _ hm => hm.sound

/-- The two writes of a failure are sound. -/
theorem Kept.failed {tail : List Op}
    (hw : w.Extends c.world) (hworld : c.world.Sound) (hops : ∀ op ∈ c.ops, op.Sound H c.world)
    (hreg : Registered c.world inst) (hx : Tracked c.world x) (htail : ∀ op ∈ tail, op.Announces) :
    Kept H w (c.close (.updateInstance inst .log :: .updateExec x .log :: tail)) := by
  refine ⟨hw, hworld, forall_mem_append.2 ⟨hops, ?_⟩⟩
  simp only [forall_mem_cons]
  exact ⟨sound_updateInstance hreg, sound_updateExec hx, fun op hop => (htail op hop).sound⟩

/-- A failure of an instance of the execution. -/
theorem kept_handleFailure (hworld : c.world.Sound)
    (hexec : Tracked c.world c.exec) (hops : ∀ op ∈ c.ops, op.Sound H c.world)
    (hreg : Registered c.world inst) (hid : inst.workflowExecId = c.exec.execId)
    (wdef : WorkflowDef) (retry : RetryPolicy) :
    Kept H c.world (handleFailure inst wdef retry c) := by
  obtain ⟨tail, heq, htail⟩ := handleFailure_eq inst wdef retry c
  obtain ⟨hreg', hx⟩ := hexec.afterFailure hreg hid c.world.now retry
  rw [heq]
  exact .failed (World.Extends.refl _) hworld hops hreg' hx htail

theorem kept_failExecution (hworld : c.world.Sound)
    (hexec : Tracked c.world c.exec) (hops : ∀ op ∈ c.ops, op.Sound H c.world)
    (hreg : Registered c.world inst) (hid : inst.workflowExecId = c.exec.execId)
    (failureWorkflow : Option String) :
    Kept H c.world (failExecution inst failureWorkflow c) := by
  obtain ⟨tail, heq, htail⟩ := failExecution_eq inst failureWorkflow c
  rw [heq]
  exact .failed (World.Extends.refl _) hworld hops hreg
    (hexec.put hreg hid (Keyed.nodup_put hexec.nodup) .failed) htail

theorem Kept.head (hw : w.Extends w') (h : Kept H w' r) : Kept H w r :=
  ⟨hw.trans h.extended, h.world, h.ops⟩

/-- A stretch that ends with one more sound operation. -/
theorem Cursor.Sound.close (hc : c.Sound H wdef)
    (hops : ∀ op ∈ ops, op.Sound H c.world) : Kept H c.world (c.close ops) :=
  ⟨World.Extends.refl _, hc.world, forall_mem_append.2 ⟨hc.ops, hops⟩⟩

theorem Orchestrator.Exit.kept (h : Exit wdef done fails c r y) (hc : c.Sound H wdef)
    (hdone : FramesSound c.world done.frames) : Kept H c.world r := by
  -- a suspended chain goes in front of those that wait for `done`
  have suspended : ∀ refs, Ready c.world ⟨c.exec, wdef, refs⟩ →
      FramesSound c.world (⟨c.exec, wdef, refs⟩ :: done.frames) := fun refs hready =>
    .cons hready hc.wdef hc.exec hdone
  cases h with
  | yield => exact hc.close (sound_done hc.exec hdone)
  | spawn _ _ _ _ _ ready | startWorkflow _ _ _ _ _ ready | subWorkflow _ _ _ _ _ _ ready =>
    exact hc.close (forall_mem_singleton.2 (.of_frames (suspended _ ready) rfl rfl trivial))
  | fail _ inst retry failing =>
    exact kept_handleFailure hc.world hc.exec hc.ops (hc.exec.registered inst failing.nested)
      failing.workflowExecId wdef retry
  | orphan _ inst retry new status =>
    obtain ⟨hworld, hreg⟩ := new.sound hc
    have hw := ((World.later_bump c.world).trans (World.later_record _ (.created inst))).toExtends
    exact .head hw (kept_handleFailure (c := c.create inst) hworld (hc.exec.extends hw)
      (fun op hop => (hc.ops op hop).extends hw) hreg new.workflowExecId wdef retry)

theorem Orchestrator.Stretch.kept (h : Stretch H wdef done fails c r) (hc : c.Sound H wdef)
    (hdone : FramesSound c.world done.frames) : Kept H c.world r := by
  obtain ⟨c', y, hmoves, hexit⟩ := h
  have hw := (moves_later hmoves).toExtends
  exact .head hw (hexit.kept (moves_sound hmoves hc) (hdone.extends hw))

end Stretch

/-! ### Every operation keeps the store sound -/

section Run

variable {wdef : WorkflowDef} {done : Done} {fails : Bool} {c : Cursor σ} {r : World σ × List Op}
    {key : String}

/-- Starting on a tracked execution under its definition. -/
theorem Cursor.Sound.start (hw : w.Sound) (hx : Tracked w x)
    (hdef : w.workflowDefs.find? x.defName = some wdef) : (Cursor.start w x).Sound H wdef :=
  ⟨hw, hx, hdef, forall_mem_nil _⟩

theorem Cursor.Sound.issue (h : c.Sound H wdef)
    (hops : ∀ op ∈ ops, op.Sound H c.world) : (c.issue ops).Sound H wdef :=
  ⟨h.world, h.exec, h.wdef, forall_mem_append.2 ⟨h.ops, hops⟩⟩

theorem Resumes.sound {callback : StartCallback} (h : Resumes callback wdef done x)
    (hw : w.Sound) (hframes : FramesSound w callback.frames) :
    (Cursor.start w x).Sound H wdef ∧ FramesSound w done.frames := by
  have split : ∀ refs, FramesSound w (⟨x, wdef, refs⟩ :: done.frames) →
      (Cursor.start w x).Sound H wdef ∧ FramesSound w done.frames := fun refs hf =>
    ⟨.start hw (hf.tracked _ (.head _)) (hf.ready _ (.head _)).2, hf.tail⟩
  cases h with
  | startWorkflow | subWorkflow => exact split _ hframes

/-- The instance that `rerun` resets takes its own place. -/
theorem taskIds_rerun {nodeRef : String} (hinst : findInstance x.taskInstances nodeRef = some inst)
    (input : Value) :
    (Keyed.put TaskInstance.nodeRef { resetInstance inst with inputData := input }
      x.taskInstances).map TaskInstance.taskId = x.taskIds := by
  obtain ⟨-, href⟩ := findInstance_mem hinst
  have hfind : x.taskInstances.find? (fun i => i.nodeRef = inst.nodeRef) = some inst := by
    rwa [href]
  exact Keyed.map_put_of_find? TaskInstance.taskId hfind rfl

/-- A stretch begins on a sound cursor. -/
theorem Begins.sound (h : Begins w op wdef done x c) (hw : w.Sound) (hop : op.Sound H w) :
    w.Extends c.world ∧ c.Sound H wdef ∧ FramesSound c.world done.frames := by
  have hrefl := World.Extends.refl w
  -- what is found under the key is stored under the name
  have hfind :
    ∀ {name : String} {callback : DefCallback} {y : WorkflowExecution} {wdef' : WorkflowDef},
      w.findDef name callback = some wdef' → name = y.defName →
        w.workflowDefs.find? y.defName = some wdef' := by
    rintro name callback y wdef' hdef rfl
    exact World.find?_of_findDef hdef
  cases h with
  | sweepAdvance hdef | resume hdef =>
    exact ⟨hrefl, .start hw (hop.own _ rfl) (hfind hdef hop.shape.1), .nil⟩
  | @reconcile _ _ x _ hdef =>
    exact ⟨hrefl, .start hw (hop.own x rfl) (hfind hdef hop.shape), .nil⟩
  | @deliver _ _ inst x hdef hdone =>
    have hsync : Tracked w (syncInstance x inst) :=
      (hop.own x rfl).sync (hop.carried inst (.head _)) hop.shape.2.2
    exact ⟨hrefl, .start hw hsync (hfind hdef hop.shape.1), .nil⟩
  | @retry _ _ x _ hdef =>
    have hx := hop.own x rfl
    refine ⟨hrefl, .issue (.start hw (hx.map retryInstance ?_ .running) (hfind hdef hop.shape)) ?_,
      .nil⟩
    · intro i
      unfold retryInstance
      split <;> exact ⟨rfl, rfl, rfl⟩
    · intro op hop
      obtain ⟨i, hi, rfl⟩ := mem_map.1 hop
      exact sound_updateInstance (((hx.registered i (mem_of_mem_filter hi)).congr rfl rfl rfl))
  | @restart _ _ x _ hdef =>
    have hx : Tracked w { x with taskInstances := [], status := .running } :=
      (hop.own x rfl).congr rfl rfl (nil_sublist _)
    have hext := (World.later_record w (.restarted x.execId)).toExtends
    exact ⟨hext, .start (hw.record trivial) (hx.extends hext) (hfind hdef hop.shape), .nil⟩
  | @rerun _ _ _ inst x input _ hdef hinst =>
    have hx := hop.own x rfl
    obtain ⟨hmem, -⟩ := findInstance_mem hinst
    have hids : ((Keyed.put TaskInstance.nodeRef { resetInstance inst with inputData := input }
        x.taskInstances).map TaskInstance.taskId).Nodup := by
      rw [taskIds_rerun hinst]
      exact hx.nodup
    have hreg : Registered w { resetInstance inst with inputData := input } :=
      (hx.registered inst hmem).congr rfl rfl rfl
    have hput : Tracked w { x with
        status := .running
        taskInstances := Keyed.put TaskInstance.nodeRef
          { resetInstance inst with inputData := input } x.taskInstances } :=
      hx.put hreg (hx.belongs inst hmem) hids .running
    exact ⟨hrefl, .issue (.start hw hput (hfind hdef hop.shape))
      (forall_mem_singleton.2 (sound_updateInstance hreg)), .nil⟩
  | spawnNext | dynamic =>
    exact ⟨hrefl, .start hw (hop.frames.tracked _ (.head _))
      (hop.frames.ready _ (.head _)).2, hop.frames.tail⟩
  | noChild h => exact ⟨hrefl, h.sound hw hop.frames⟩
  | @child _ _ _ _ child h =>
    have hext := World.extends_putExec w child
    exact ⟨hext, h.sound (hw.putExec (hop.own child rfl)) (hop.frames.extends hext)⟩

theorem Begins.kept (h : Begins w op wdef done x c) (hw : w.Sound) (hop : op.Sound H w)
    (hs : Stretch H wdef done fails c r) : Kept H w r := by
  obtain ⟨hext, hc, hframes⟩ := h.sound hw hop
  exact .head hext (hs.kept hc hframes)

/-- A new execution is tracked in the world in which it was made. -/
theorem launch_sound (hw : w.Sound) {name : String} (vars : StringMap) (parent : Option Uuid)
    (hdef : w.workflowDefs.find? name = some wdef) :
    w.Extends (Cursor.launch w wdef vars parent).world ∧
      (Cursor.launch w wdef vars parent).Sound H wdef := by
  have hlater := (World.later_bump w).trans
    (World.later_record _ (.opened (newExecution w wdef vars parent)))
  have hname : w.workflowDefs.find? wdef.name = some wdef := by
    rwa [Keyed.Table.key_of_find? hdef]
  exact ⟨hlater.toExtends, .start (hw.later hlater (hw.registry.open rfl hname))
    ⟨⟨_, .head _, rfl, rfl⟩, forall_mem_nil _, forall_mem_nil _,
      nodup_nil⟩ hname⟩

theorem key_of_findExec (h : w.findExec H key = some x) :
    x ∈ w.execs.rows ∧ H.format x.execId = key :=
  ⟨mem_of_find?_eq_some h, by simpa using find?_some h⟩

theorem key_of_findInstance (h : w.findInstance H key = some inst) :
    inst ∈ w.instances.rows ∧ H.format inst.taskId = key :=
  ⟨mem_of_find?_eq_some h, by simpa using find?_some h⟩

/-- A read execution is passed on to the lookup of its definition. -/
theorem Kept.lookup (hw : w.Sound) (hx : Tracked w x) {callback : DefCallback}
    (hown : (Op.findDef x.defName callback).own = some x)
    (hframes : (Op.findDef x.defName callback).frames = [])
    (hcarried : ∀ i ∈ (Op.findDef x.defName callback).carried, Registered w i)
    (hshape : (Op.findDef x.defName callback).Shape H w) :
    Kept H w (w, [.findDef x.defName callback]) :=
  .single hw (.of_own hown hframes hx hcarried hshape)

/-- A changed instance is written and reported to its execution. -/
theorem sound_report (h : Registered w inst) :
    ∀ op ∈ Op.updateInstance inst .log :: onTaskTerminal H inst, op.Sound H w :=
  forall_mem_cons.2 ⟨sound_updateInstance h, sound_onTaskTerminal h⟩

/-- Rows are updated, each to a later version of itself. -/
theorem sound_updateRows {rows : List TaskInstance} (hw : w.Sound)
    (hrows : ∀ i ∈ rows, i ∈ w.instances.rows) (f : TaskInstance → TaskInstance)
    (hf : ∀ i, (f i).taskId = i.taskId ∧ (f i).nodeRef = i.nodeRef ∧
      (f i).workflowExecId = i.workflowExecId) :
    ∀ op ∈ rows.map fun i => Op.updateInstance (f i) .log, op.Sound H w := by
  intro op hop
  obtain ⟨i, hi, rfl⟩ := mem_map.1 hop
  obtain ⟨hid, href, hexec⟩ := hf i
  exact sound_updateInstance ((hw.instances i (hrows i hi)).congr hid href hexec)

theorem Op.Acts.sound (h : op.Acts) : op.Sound H w := by
  unfold Op.Acts at h
  split at h <;> first | exact .of_nil rfl rfl rfl trivial | exact h.elim

theorem Runs.kept (h : Runs H w op r) (hw : w.Sound) (hop : op.Sound H w) : Kept H w r := by
  have exec : ∀ {key : String} {x : WorkflowExecution}, w.findExec H key = some x → Tracked w x :=
    fun hfind => hw.execs _ (key_of_findExec hfind).1
  have row : ∀ {key : String} {i : TaskInstance}, w.findInstance H key = some i →
      Registered w i := fun hfind => hw.instances _ (key_of_findInstance hfind).1
  have hnone : ∀ i ∈ ([] : List TaskInstance), Registered w i := forall_mem_nil _
  cases h with
  | stretch begins run => exact begins.kept hw hop run
  | launch hdef =>
    obtain ⟨hext, hc⟩ := launch_sound hw _ _ hdef
    exact .head hext ((advance_stretch _ _ _ _).kept hc (hop.frames.extends hext))
  | fail | timedOut =>
    exact kept_handleFailure (c := .start w _) hw (hop.own _ rfl) (forall_mem_nil _)
      (hop.carried _ (.head _)) hop.shape.2.2.1 _ _
  | failNow =>
    exact kept_failExecution (c := .start w _) hw (hop.own _ rfl) (forall_mem_nil _)
      (hop.carried _ (.head _)) hop.shape.2.2.1 _
  | stop _ _ hanswer => exact .after hw hanswer (forall_mem_nil _)
  | judge hdef hfailed =>
    obtain ⟨hname, hlive, hexec⟩ := hop.shape
    have hreg := hop.carried _ (.head _)
    exact .single hw (.of_own rfl rfl ((hop.own _ rfl).sync hreg hexec)
      (forall_mem_singleton.2 hreg)
      ⟨hname ▸ hdef, hlive, hexec, Keyed.mem_put_self, hfailed⟩)
  | takeOver =>
    exact .single hw (sound_updateExec
      ((hop.own _ rfl).sync (hop.carried _ (.head _)) hop.shape.2.2))
  | resumeUndefined => exact .single hw (sound_updateExec (hop.own _ rfl))
  | redirect => exact .single hw (.of_frames hop.frames rfl rfl trivial)
  | waited =>
    exact .issue hw (sound_onTaskTerminal ((hop.carried _ (.head _)).congr rfl rfl rfl))
  | expired =>
    exact .single hw (.of_carried rfl rfl rfl
      ((hop.carried _ (.head _)).congr rfl rfl rfl) ⟨rfl, rfl⟩)
  | claim =>
    exact .single hw (sound_updateInstance ((hop.carried _ (.head _)).congr rfl rfl rfl))
  | lapse => exact .single hw (sound_updateInstance (hop.carried _ (.head _)))
  | deliver hfind live =>
    -- the execution that was found is the one of the instance
    have hid : _ = H.format _ := (key_of_findExec hfind).2.trans hop.shape
    exact .lookup hw (exec hfind) rfl rfl hop.carried ⟨rfl, live, (H.format_injective hid).symm⟩
  | timeOut hfind live =>
    have hid : _ = H.format _ := (key_of_findExec hfind).2.trans hop.shape.1
    exact .lookup hw (exec hfind) rfl rfl hop.carried
      ⟨rfl, live, (H.format_injective hid).symm, hop.shape.2⟩
  | resume hfind =>
    exact .single hw (.of_own rfl rfl ((exec hfind).congr rfl rfl (.refl _)) hnone ⟨rfl, rfl⟩)
  | retry hfind | restart hfind | rerun hfind | reconcile hfind =>
    exact .lookup hw (exec hfind) rfl rfl hnone rfl
  | pause hfind | terminate hfind | setVars hfind =>
    exact .single hw (sound_updateExec ((exec hfind).congr rfl rfl (.refl _)))
  | eventTerminate hfind =>
    exact .issue hw (forall_mem_cons.2
      ⟨sound_updateExec ((exec hfind).congr rfl rfl (.refl _)), sound_onExecutionTerminal _⟩)
  | signal hfind hinst =>
    exact .after hw answered_answer (sound_report
      (((exec hfind).registered _ (mem_of_find?_eq_some hinst)).congr rfl rfl rfl))
  | complete hfind hinst =>
    exact .issue hw (sound_report
      (((exec hfind).registered _ (findInstance_mem hinst).1).congr rfl rfl rfl))
  | fetch hfind => exact .issue hw (sound_onTaskTerminal (row hfind))
  | report hfind => exact .after hw answered_answer (sound_onTaskTerminal (row hfind))
  | submit hfind => exact .single hw (sound_updateInstance ((row hfind).congr rfl rfl rfl))
  | propagate hfind =>
    exact .issue hw (sound_report
      ((hw.instances _ (mem_of_find?_eq_some hfind)).congr rfl rfl rfl))
  | sweepTimeouts =>
    refine .issue hw fun op hop => ?_
    obtain ⟨i, hi, hop⟩ := mem_flatMap.1 hop
    obtain rfl := mem_singleton.1 hop
    exact .of_carried rfl rfl rfl (hw.instances i (mem_of_mem_filter hi)) trivial
  | sweepRetries =>
    exact .issue hw (sound_updateRows hw (fun _ hi => mem_of_mem_filter hi) _
      fun _ => ⟨rfl, rfl, rfl⟩)
  | requeue hanswer =>
    exact .after hw hanswer (sound_updateRows hw (fun _ hi => mem_of_mem_filter hi)
      (fun i => { i with status := .scheduled }) fun _ => ⟨rfl, rfl, rfl⟩)
  | findFirst hfirst =>
    have hreg := hw.instances _ (mem_of_mem_filter (firstBySeq_mem hfirst))
    exact .single hw (.of_carried rfl rfl rfl (hreg.congr rfl rfl rfl) trivial)
  | findAllExecs =>
    refine .issue hw fun op hop => ?_
    obtain ⟨x, hx, rfl⟩ := mem_map.1 hop
    obtain ⟨hmem, hrun⟩ := mem_filter.1 hx
    exact .of_own rfl rfl (hw.execs x hmem) hnone ⟨rfl, by simpa using hrun⟩
  | listen | findAllTaskDefs => exact .single hw (.of_nil rfl rfl rfl trivial)
  | handlers hops =>
    exact ⟨(World.later_setLua _ _).toExtends, hw.setLua _, fun op hop => (hops op hop).sound⟩
  | insertExec _ hanswer =>
    exact .head (World.extends_putExec _ _)
      (.after (hw.putExec (hop.own _ rfl)) hanswer (forall_mem_nil _))
  | updateExec hanswer hops =>
    exact .head (World.extends_putExec _ _) (.after (hw.putExec (hop.own _ rfl)) hanswer
      fun op hop => (hops op hop).sound)
  | insertInstance =>
    exact .nil ((World.extends_putInstance _ _).trans (World.later_record _ _).toExtends)
      ((hw.putInstance (hop.carried _ (.head _))).record trivial)
  | updateInstance hanswer =>
    exact .head (World.extends_putInstance _ _) (.after
      (hw.putInstance (hop.carried _ (.head _))) hanswer (forall_mem_nil _))
  | submitted hanswer =>
    exact .head (World.extends_putInstance _ _) (.after
      (hw.putInstance (hop.carried _ (.head _))) hanswer
      (forall_mem_singleton.2 (.of_nil rfl rfl rfl trivial)))

/-- **Soundness of one operation.** -/
theorem run_kept (hw : w.Sound) (hop : op.Sound H w) : Kept H w (op.run H w) :=
  (Runs.of_run fun f hf => (hop.frames.ready f hf).1).kept hw hop

end Run

/-! ### Every run -/

/-- The store before the first call: definitions and handlers, and nothing else. -/
structure World.Initial (w : World σ) : Prop where
  execs : w.execs.rows = []
  instances : w.instances.rows = []
  history : w.history = []

theorem World.Initial.sound (h : w.Initial) : w.Sound where
  registry := by
    constructor <;> simp [h.history]
  execs := by simp [h.execs]
  instances := by simp [h.instances]

/-- The store and all pending operations are sound. -/
structure Sound (H : Host σ) (s : Config (World σ) Op) : Prop where
  world : s.world.Sound
  queue : ∀ op ∈ s.queue, op.Sound H s.world

theorem call_sound (call : Call) (now : Time) : ∀ op ∈ call.issue now, op.Sound H w := by
  intro op hop
  cases call <;> obtain rfl := mem_singleton.1 hop <;> exact .of_nil rfl rfl rfl trivial

/-- The clock plays no part in soundness. -/
theorem extends_now (w : World σ) (now : Time) : w.Extends { w with now := now } :=
  ⟨rfl, rfl, rfl, le_rfl, suffix_refl _⟩

theorem World.Sound.now (h : w.Sound) (now : Time) : World.Sound { w with now := now } where
  registry := h.registry.of_same rfl le_rfl (fun _ => Iff.rfl) fun _ => Iff.rfl
  execs x hx := (h.execs x hx).extends (extends_now w now)
  instances i hi := (h.instances i hi).extends (extends_now w now)

theorem Sound.call (h : Sound H ⟨w, q⟩) (call : Call) :
    Sound H ⟨w, order.enqueue q (call.issue w.now)⟩ := by
  refine ⟨h.world, fun op hop => ?_⟩
  rcases Order.mem_enqueue.1 hop with hop | hop
  · exact h.queue op hop
  · exact call_sound call w.now op hop

theorem Sound.env (h : Sound H ⟨w, q⟩) (now : Time) :
    Sound H ⟨{ w with now := now }, q⟩ :=
  ⟨h.world.now now, fun op hop => (h.queue op hop).extends (extends_now w now)⟩

/-- What it leads to to run the operation in front. -/
abbrev Op.next (H : Host σ) (order : Order) (w : World σ) (op : Op) (q : List Op) :
    Config (World σ) Op := ⟨(op.run H w).1, order.enqueue q (op.run H w).2⟩

theorem Sound.step (h : Sound H ⟨w, op :: q⟩) :
    Sound H (op.next H order w q) := by
  obtain ⟨hext, hworld, hops⟩ := run_kept h.world (h.queue op (.head _))
  refine ⟨hworld, fun o ho => ?_⟩
  rcases Order.mem_enqueue.1 ho with ho | ho
  · exact (h.queue o (.tail _ ho)).extends hext
  · exact hops o ho

/-- An empty store with an empty queue. -/
def Config.Initial (s : Config (World σ) Op) : Prop := s.world.Initial ∧ s.queue = []

theorem Config.Initial.sound {s : Config (World σ) Op} (h : Config.Initial s) : Sound H s :=
  ⟨h.1.sound, by simp [h.2]⟩

end Congelado
