import Congelado.Workflow.Sound

/-!
# Where the events of a run come from

The history of a run records what `advance` looked at (`pass`), what it made
(`created`) and when an execution was completed (`completed`). An operation either
runs a stretch, which it enters on a copy it holds or on an execution it has just
made (`Entry`), or it records nothing but answers (`run_entry`). So each of these
events comes from one move of one stretch, or from its exit (`Records`), and
`recorded_of_run` gives the cursor at which it was recorded.

Statements about every pass or every completion of a run are proved with these: a
property of the execution a stretch is entered with, kept by the moves, holds where
the event is recorded.
-/

namespace Congelado

open Orchestrator Callback List

variable {σ : Type} {H : Host σ} {w w' : World σ} {op : Op} {wdef : WorkflowDef} {done : Done}
    {fails : Bool} {c c' : Cursor σ} {r : World σ × List Op} {e : Event} {x : WorkflowExecution}
    {inst : TaskInstance} {order : Order} {ok : Config (World σ) Op → Label Call Time → Prop}
    {s t : Config (World σ) Op} {wdef' : WorkflowDef}

/-! ### Events along a stretch -/

/-- What a stretch records, and the cursor at which it does. -/
inductive Records (H : Host σ) (wdef : WorkflowDef) (d : Cursor σ) : Event → Prop
  | pass (running : d.exec.status = .running) (lua : σ) :
      Records H wdef d (.pass d.exec wdef (scanNodes H d.exec wdef wdef.nodes lua).eligible
        (scanNodes H d.exec wdef wdef.nodes lua).skip)
  | created {inst : TaskInstance} (new : New wdef d inst) : Records H wdef d (.created inst)
  | completed (running : d.exec.status = .running) (done : allDone d.exec wdef = true) :
      Records H wdef d (.completed
        { d.exec with vars := mappedOutput d.exec wdef, status := .completed } wdef)

/-- At most one event is recorded. -/
def RecordsOne (H : Host σ) (wdef : WorkflowDef) (d : Cursor σ) (w' : World σ) : Prop :=
  w'.history = d.world.history ∨ ∃ e, Records H wdef d e ∧ w'.history = e :: d.world.history

theorem Orchestrator.Move.records (h : Move H wdef c c') : RecordsOne H wdef c c'.world := by
  cases h with
  | pass running lua => exact .inr ⟨_, .pass running lua, rfl⟩
  | spawn inst new => exact .inr ⟨_, .created new, rfl⟩
  | complete running done =>
    rw [maybeComplete_eq running done]
    exact .inr ⟨_, .completed running done, rfl⟩
  | _ => exact .inl rfl

/-- An exit records the instance it was made to fail with, if anything. -/
theorem Orchestrator.Exit.records {y : WorkflowExecution} (h : Exit wdef done fails c r y) :
    RecordsOne H wdef c r.1 := by
  cases h with
  | fail _ inst retry failing =>
    rw [handleFailure_world]
    exact .inl rfl
  | orphan _ inst retry new status =>
    rw [handleFailure_world]
    exact .inr ⟨_, .created new, rfl⟩
  | _ => exact .inl rfl

/-- The event was there when the stretch began, or the stretch has recorded it. -/
def Traced (H : Host σ) (wdef : WorkflowDef) (c : Cursor σ) (e : Event) (w' : World σ) : Prop :=
  e ∈ c.world.history ∨ ∃ d, Moves H wdef c d ∧ Records H wdef d e ∧ d.world.Extends w'

theorem RecordsOne.traced (h : RecordsOne H wdef c' w') (hmoves : Moves H wdef c c')
    (hext : c'.world.Extends w') (ih : e ∈ c'.world.history → Traced H wdef c e c'.world)
    (he : e ∈ w'.history) : Traced H wdef c e w' := by
  have hold : e ∈ c'.world.history → Traced H wdef c e w' := fun he =>
    (ih he).imp_right fun ⟨d, hd, hrec, hd'⟩ => ⟨d, hd, hrec, hd'.trans hext⟩
  rcases h with hsame | ⟨e', hrec, hcons⟩
  · exact hold (hsame ▸ he)
  · rw [hcons] at he
    rcases mem_cons.1 he with rfl | he
    · exact .inr ⟨c', hmoves, hrec, hext⟩
    · exact hold he

/-- **Events of a stretch.** -/
theorem Orchestrator.Stretch.traced (h : Stretch H wdef done fails c r) (he : e ∈ r.1.history) :
    Traced H wdef c e r.1 := by
  obtain ⟨c', y, hmoves, hexit⟩ := h
  refine hexit.records.traced hmoves hexit.later.toExtends ?_ he
  clear he hexit
  induction hmoves with
  | refl => exact .inl
  | tail hd hm ih => exact hm.records.traced hd hm.later.toExtends ih

/-! ### The stretch of an operation -/

/-- An operation enters a stretch: on a copy it holds, or on a new execution. -/
inductive Entry (w : World σ) : Op → WorkflowDef → Done → Cursor σ → Prop
  | begins {op : Op} {wdef : WorkflowDef} {done : Done} {x : WorkflowExecution} {c : Cursor σ}
      (h : Begins w op wdef done x c) : Entry w op wdef done c
  | launch {name : String} {vars : StringMap} {parent : Option Uuid} {callback : StartCallback}
      {wdef : WorkflowDef} (hdef : w.workflowDefs.find? name = some wdef) :
      Entry w (.findDef name (.start vars parent callback)) wdef (.insertExec callback)
        (.launch w wdef vars parent)

theorem Entry.sound (h : Entry w op wdef done c) (hw : w.Sound) (hop : op.Sound H w) :
    w.Extends c.world ∧ c.Sound H wdef := by
  cases h with
  | begins h =>
    obtain ⟨hext, hc, -⟩ := h.sound hw hop
    exact ⟨hext, hc⟩
  | launch hdef => exact launch_sound hw _ _ hdef

/-- The event is an answer, or the insertion of the row that the operation inserts. -/
def Event.Outer (op : Op) : Event → Prop
  | .inserted inst => op = .insertInstance inst
  | .answered _ _ | .started _ _ | .claimed _ _ | .requeued _ _ => True
  | _ => False

/-- Only answers and insertions were recorded. -/
def Quiet (w : World σ) (op : Op) (w' : World σ) : Prop :=
  w'.history = w.history ∨ ∃ e, Event.Outer op e ∧ w'.history = e :: w.history

theorem Quiet.event (h : Quiet w op w') (he : e ∈ w'.history)
    (hnot : ¬ Event.Outer op e) : e ∈ w.history := by
  rcases h with h | ⟨e', he', h⟩
  · exact h ▸ he
  · rw [h] at he
    rcases mem_cons.1 he with rfl | he
    · exact absurd he' hnot
    · exact he

/-- The rows an operation inserts. -/
def Op.inserts : Op → List TaskInstance
  | .insertInstance inst => [inst]
  | _ => []

/-- The operation inserts no row, and holds no execution as it was read. -/
def Op.plain : Op → Bool
  | .insertInstance _ => false
  | op => op.asRead.isNone

/-- What an operation does that runs no stretch: it records only answers and
insertions, makes no row, and what it reads is what is stored. -/
structure Aside (w : World σ) (op : Op) (r : World σ × List Op) : Prop where
  quiet : Quiet w op r.1
  inserts : ∀ o ∈ r.2, o.inserts = []
  asRead : ∀ o ∈ r.2, ∀ x ∈ o.asRead, w.execs.find? x.execId = some x

theorem Op.inserts_of_plain (h : op.plain = true) : op.inserts = [] := by
  cases op <;> first | rfl | cases h

theorem Op.asRead_of_plain (h : op.plain = true) : op.asRead = none := by
  cases op <;> first | rfl | exact Option.isNone_iff_eq_none.1 h

theorem Aside.of_plain (hquiet : Quiet w op r.1) (hops : ∀ o ∈ r.2, o.plain = true) :
    Aside w op r where
  quiet := hquiet
  inserts o ho := Op.inserts_of_plain (hops o ho)
  asRead o ho x hx := by simp [Op.asRead_of_plain (hops o ho)] at hx

/-- What an operation does: it runs a stretch, or nothing that is about making
instances. -/
def EntryOrAside (H : Host σ) (w : World σ) (op : Op) (r : World σ × List Op) : Prop :=
  (∃ wdef done fails c, Entry w op wdef done c ∧ Stretch H wdef done fails c r) ∨ Aside w op r

theorem Begins.entry (h : Begins w op wdef done x c)
    (hs : Stretch H wdef done fails c r) : EntryOrAside H w op r :=
  .inl ⟨wdef, done, fails, c, .begins h, hs⟩

theorem quiet_answer {caller : Caller} {ok : Bool} : Quiet w op (w.answer caller ok) :=
  .inr ⟨.answered caller ok, trivial, rfl⟩

theorem Aside.nil (h : Quiet w op w') : Aside w op (w', []) :=
  .of_plain h (forall_mem_nil _)

/-- Only one plain operation is issued. -/
theorem Aside.single {o : Op} (ho : o.plain = true) : Aside w op (w, [o]) :=
  .of_plain (.inl rfl) (forall_mem_singleton.2 ho)

/-- The definition of a stored execution is looked up. -/
theorem Aside.lookup {o : Op} (hx : x ∈ w.execs.rows)
    (hinserts : o.inserts = []) (hread : o.asRead = some x) : Aside w op (w, [o]) where
  quiet := .inl rfl
  inserts _ h := mem_singleton.1 h ▸ hinserts
  asRead o' h y hy := by
    rw [mem_singleton.1 h, hread, Option.mem_some_iff] at hy
    exact hy ▸ Keyed.Table.find?_of_mem hx

theorem Op.Announces.plain (h : op.Announces) : op.plain = true := by
  unfold Op.Announces at h
  split at h <;> first | rfl | exact h.elim

theorem plain_onExecutionTerminal (child : WorkflowExecution) :
    ∀ o ∈ onExecutionTerminal child, o.plain = true := fun o ho =>
  (announces_onExecutionTerminal child o ho).plain

theorem Op.Acts.plain (h : op.Acts) : op.plain = true := by
  unfold Op.Acts at h
  split at h <;> first | rfl | exact h.elim

/-- The two writes of a failure, and the announcement of the end. -/
theorem plain_failure {tail : List Op} (htail : ∀ o ∈ tail, o.Announces) (inst : TaskInstance)
    (x : WorkflowExecution) :
    ∀ o ∈ Op.updateInstance inst .log :: Op.updateExec x .log :: tail, o.plain = true := by
  simp only [forall_mem_cons]
  exact ⟨rfl, rfl, fun o ho => (htail o ho).plain⟩

variable (inst)

theorem aside_handleFailure (wdef : WorkflowDef)
    (retry : RetryPolicy) : Aside w op (handleFailure inst wdef retry (.start w x)) := by
  obtain ⟨tail, heq, htail⟩ := handleFailure_eq inst wdef retry (Cursor.start w x)
  rw [heq]
  exact .of_plain (.inl rfl) (plain_failure htail _ _)

theorem aside_failExecution (failureWorkflow : Option String) :
    Aside w op (failExecution inst failureWorkflow (.start w x)) := by
  obtain ⟨tail, heq, htail⟩ := failExecution_eq inst failureWorkflow (Cursor.start w x)
  rw [heq]
  exact .of_plain (.inl rfl) (plain_failure htail _ _)

/-- A row is written and the instance is delivered. -/
theorem plain_report :
    ∀ o ∈ Op.updateInstance inst .log :: onTaskTerminal H inst, o.plain = true := by
  exact forall_mem_cons.2 ⟨rfl, forall_mem_singleton.2 rfl⟩

variable {inst}

theorem Answered.quiet {v : World σ} (h : Answered v w') (hv : v.history = w.history) :
    Quiet w op w' := by
  obtain rfl | ⟨e, he, rfl⟩ := h
  · exact .inl hv
  · refine .inr ⟨e, ?_, congrArg _ hv⟩
    cases e <;> trivial

theorem Runs.entry (h : Runs H w op r) : EntryOrAside H w op r := by
  cases h with
  | stretch begins run => exact begins.entry run
  | launch hdef =>
    exact .inl ⟨_, _, false, _, .launch hdef, advance_stretch _ _ _ _⟩
  | fail | timedOut => exact .inr (aside_handleFailure _ _ _)
  | failNow => exact .inr (aside_failExecution _ _)
  | stop _ _ hanswer | insertExec _ hanswer | updateInstance hanswer =>
    exact .inr (.nil (hanswer.quiet rfl))
  | deliver hfind | timeOut hfind | retry hfind | restart hfind | rerun hfind | reconcile hfind =>
    exact .inr (.lookup (mem_of_find?_eq_some hfind) rfl rfl)
  | signal => exact .inr (.of_plain quiet_answer (plain_report _))
  | complete | propagate => exact .inr (.of_plain (.inl rfl) (plain_report _))
  | report => exact .inr (.of_plain quiet_answer (forall_mem_singleton.2 rfl))
  | eventTerminate =>
    exact .inr (.of_plain (.inl rfl)
      (forall_mem_cons.2 ⟨rfl, plain_onExecutionTerminal _⟩))
  | sweepTimeouts =>
    refine .inr (.of_plain (.inl rfl) fun o ho => ?_)
    obtain ⟨inst, -, ho⟩ := mem_flatMap.1 ho
    exact mem_singleton.1 ho ▸ rfl
  | sweepRetries =>
    refine .inr (.of_plain (.inl rfl) fun o ho => ?_)
    obtain ⟨inst, -, rfl⟩ := mem_map.1 ho
    rfl
  | requeue hanswer =>
    refine .inr (.of_plain (hanswer.quiet rfl) fun o ho => ?_)
    obtain ⟨inst, -, rfl⟩ := mem_map.1 ho
    rfl
  | findAllExecs =>
    refine .inr ⟨.inl rfl, fun o ho => ?_, fun o ho x hx => ?_⟩
    · obtain ⟨exec, -, rfl⟩ := mem_map.1 ho
      rfl
    · obtain ⟨exec, hexec, rfl⟩ := mem_map.1 ho
      cases hx
      exact Keyed.Table.find?_of_mem (mem_of_mem_filter hexec)
  | handlers hops => exact .inr (.of_plain (.inl rfl) fun o ho => (hops o ho).plain)
  | updateExec hanswer hops =>
    exact .inr (.of_plain (hanswer.quiet rfl) fun o ho => (hops o ho).plain)
  | insertInstance => exact .inr (.nil (.inr ⟨.inserted _, rfl, rfl⟩))
  | submitted hanswer =>
    exact .inr (.of_plain (hanswer.quiet rfl) (forall_mem_singleton.2 rfl))
  | _ => exact .inr (.single rfl)

/-- **Entries.** Every operation runs one stretch or does nothing that is about making
instances. -/
theorem run_entry (hready : ∀ f ∈ op.frames, Ready w f) : EntryOrAside H w op (op.run H w) :=
  (Runs.of_run hready).entry

/-- The execution was made, or restarted. -/
def Event.Opens (execId : Uuid) : Event → Prop
  | .opened x => x.execId = execId
  | .restarted id => id = execId
  | _ => False

/-- Entering a stretch records at most that. -/
theorem Entry.history (h : Entry w op wdef done c) :
    c.world.history = w.history ∨
      ∃ ev, Event.Opens c.exec.execId ev ∧ c.world.history = ev :: w.history := by
  cases h with
  | begins h =>
    cases h with
    | restart => exact .inr ⟨.restarted _, rfl, rfl⟩
    | _ => exact .inl rfl
  | launch => exact .inr ⟨.opened _, rfl, rfl⟩

theorem Entry.event (h : Entry w op wdef done c) (he : e ∈ c.world.history)
    (hnot : ∀ id, ¬Event.Opens id e) : e ∈ w.history := by
  rcases h.history with heq | ⟨ev, hopens, heq⟩
  · exact heq ▸ he
  · rw [heq] at he
    refine (mem_cons.1 he).resolve_left ?_
    rintro rfl
    exact hnot _ hopens

/-- **Where an event is recorded:** at a cursor of the stretch that the operation runs. -/
theorem recorded_of_run (hready : ∀ f ∈ op.frames, Ready w f) (he : e ∈ (op.run H w).1.history)
    (houter : ¬Event.Outer op e) (hopens : ∀ id, ¬Event.Opens id e) :
    e ∈ w.history ∨ ∃ wdef done c d, Entry w op wdef done c ∧ Moves H wdef c d ∧
      Records H wdef d e ∧ d.world.Extends (op.run H w).1 := by
  rcases run_entry hready with ⟨wdef, done, fails, c, hentry, hs⟩ | haside
  · rcases hs.traced he with he | ⟨d, hd, hrec⟩
    · exact .inl (hentry.event he hopens)
    · exact .inr ⟨wdef, done, c, d, hentry, hd, hrec⟩
  · exact .inl (haside.quiet.event he houter)

/-! ### Events of a run -/

/-- **Event rule.** What holds of every event that a step records in a sound
configuration holds of every event of a run from an empty store. -/
theorem Run.events {Q : Event → Prop} (h : (machine H).Run order ok s t) (hs : Config.Initial s)
    (hstep : ∀ w op q, Sound H ⟨w, op :: q⟩ → ok ⟨w, op :: q⟩ .step →
      ∀ e ∈ (op.run H w).1.history, e ∈ w.history ∨ Q e) :
    ∀ e ∈ t.world.history, Q e := by
  have hinv : Sound H t ∧ ∀ e ∈ t.world.history, Q e := by
    refine h.invariant (I := fun s => Sound H s ∧ ∀ e ∈ s.world.history, Q e)
      ⟨hs.sound, by simp [hs.1.history]⟩ ?_ ?_ ?_
    · exact fun w q call hi _ => ⟨hi.1.call call, hi.2⟩
    · exact fun w q now hi _ => ⟨hi.1.env now, hi.2⟩
    · intro w op q hi hok
      refine ⟨hi.1.step, fun e he => ?_⟩
      exact (hstep w op q hi.1 hok e he).elim (hi.2 e) id
  exact hinv.2

/-- The operation in front of a sound queue may run. -/
theorem Sound.ready {q : List Op} (h : Sound H ⟨w, op :: q⟩) : ∀ f ∈ op.frames, Ready w f :=
  fun f hf => ((h.queue op (.head _)).frames.ready f hf).1

/-- A recorded pass: the execution it looked at, its definition, and the two lists. -/
structure Pass where
  exec : WorkflowExecution
  wdef : WorkflowDef
  eligible : List String
  skip : List String

/-- The passes that were recorded, the last one first. -/
def World.passes (w : World σ) : List Pass :=
  w.history.filterMap fun
    | .pass exec wdef eligible skip => some ⟨exec, wdef, eligible, skip⟩
    | _ => none

theorem mem_passes {p : Pass} :
    p ∈ w.passes ↔ Event.pass p.exec p.wdef p.eligible p.skip ∈ w.history := by
  rw [World.passes, mem_filterMap]
  constructor
  · rintro ⟨e, he, hp⟩
    split at hp
    · cases hp
      exact he
    · cases hp
  · exact fun h => ⟨_, h, rfl⟩

/-- The pass over an execution, with the interpreter in some state. -/
def Pass.over (H : Host σ) (exec : WorkflowExecution) (wdef : WorkflowDef) (lua : σ) : Pass where
  exec := exec
  wdef := wdef
  eligible := (scanNodes H exec wdef wdef.nodes lua).eligible
  skip := (scanNodes H exec wdef wdef.nodes lua).skip

/-- Every pass of a run was made on an execution that a step entered a stretch
with, after some moves. -/
theorem Run.pass {P : Pass → Prop} (h : (machine H).Run order ok s t) (hs : Config.Initial s)
    (hstep : ∀ w op q wdef done c d lua, Sound H ⟨w, op :: q⟩ → ok ⟨w, op :: q⟩ .step →
      Entry w op wdef done c → Moves H wdef c d →
      P (.over H d.exec wdef lua)) : ∀ p ∈ t.world.passes, P p := by
  intro p hp
  refine Run.events (Q := fun e => ∀ p : Pass, e = .pass p.exec p.wdef p.eligible p.skip → P p) h hs
    (fun w op q hsound hok e he => ?_) _ (mem_passes.1 hp) p rfl
  by_cases hpass : ∃ p : Pass, e = .pass p.exec p.wdef p.eligible p.skip
  · obtain ⟨⟨x, wdef, eligible, skip⟩, rfl⟩ := hpass
    change Event.pass x wdef eligible skip ∈ _ at he
    rcases recorded_of_run hsound.ready he id fun _ => id with
      he | ⟨wdef', done, c, d, hentry, hd, hrec, -⟩
    · exact .inl he
    · cases hrec with
      | pass running lua =>
        refine .inr fun p' heq => ?_
        have hp' : p' = .over H d.exec wdef lua := by
          obtain ⟨x', wdef', eligible', skip'⟩ := p'
          obtain ⟨rfl, rfl, rfl, rfl⟩ := Event.pass.inj heq
          rfl
        exact hp' ▸ hstep w op q wdef done c d lua hsound hok hentry hd
  · exact .inr fun p heq => absurd ⟨p, heq⟩ hpass

/-- The completions that were recorded: the execution as `maybe_complete` left it,
and its definition. -/
def World.completions (w : World σ) : List (WorkflowExecution × WorkflowDef) :=
  w.history.filterMap fun
    | .completed exec wdef => some (exec, wdef)
    | _ => none

theorem mem_completions {p : WorkflowExecution × WorkflowDef} :
    p ∈ w.completions ↔ Event.completed p.1 p.2 ∈ w.history := by
  rw [World.completions, mem_filterMap]
  constructor
  · rintro ⟨e, he, hp⟩
    split at hp
    · cases hp
      exact he
    · cases hp
  · exact fun h => ⟨_, h, rfl⟩

/-- Every instance a run makes was listed by a recorded pass: under `skip` if it is
made as `SKIPPED`, and as eligible otherwise. -/
theorem Run.created_listed (h : (machine H).Run order ok s t) (hs : Config.Initial s)
    (he : Event.created inst ∈ t.world.history) :
    ∃ wdef, inst.nodeRef ∈ wdef.refs ∧ Listed t.world inst.workflowExecId wdef
      (if inst.status = .skipped then .skip else .eligible) inst.nodeRef := by
  have hinv : Sound H t ∧ ∀ inst, Event.created inst ∈ t.world.history →
      ∃ wdef, inst.nodeRef ∈ wdef.refs ∧ Listed t.world inst.workflowExecId wdef
        (if inst.status = .skipped then .skip else .eligible) inst.nodeRef := by
    refine h.invariant (I := fun s => Sound H s ∧ ∀ inst, Event.created inst ∈ s.world.history →
      ∃ wdef, inst.nodeRef ∈ wdef.refs ∧ Listed s.world inst.workflowExecId wdef
        (if inst.status = .skipped then .skip else .eligible) inst.nodeRef)
      ⟨hs.sound, by simp [hs.1.history]⟩ ?_ ?_ ?_
    · exact fun w q call hi _ => ⟨hi.1.call call, hi.2⟩
    · exact fun w q now hi _ => ⟨hi.1.env now, hi.2⟩
    · intro w op q hi hok
      refine ⟨hi.1.step, fun inst he => ?_⟩
      have hext := (run_kept hi.1.world (hi.1.queue op (.head _))).extended
      rcases recorded_of_run hi.1.ready he id fun _ => id with
        hold | ⟨wdef, done, c, d, -, -, hrec, hlater⟩
      · obtain ⟨wdef, hmem, hlisted⟩ := hi.2 inst hold
        exact ⟨wdef, hmem, hlisted.extends hext⟩
      · cases hrec with
        | created hnew =>
          exact ⟨wdef, hnew.known, hnew.workflowExecId ▸ hnew.listed.extends hlater⟩
  exact hinv.2 inst he

end Congelado
