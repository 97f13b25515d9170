import Congelado.Workflow.Distinct

/-!
# Executions that are worked on by one chain at a time

Every operation on an execution is a read-modify-write of the whole record, spread
over several operations of the store. Two chains that overlap on one execution lose
the work of the chain that writes first, and may do the same work twice.

`Serial` is the condition that they do not overlap: an execution is read only while
no copy of it is held, and no chain that holds a copy of it is abandoned. In the runs
that meet it there is at most one copy (`Single`), so the execution *as it stands*
(`standing`) is that copy or the stored record, and it changes only by the work of
the step (`Single.outcome`).

What a stretch makes is said once (`Makes`). From it follows that the execution as it stands
lists all instances that were made since it was restarted last (`Listing`). Three
consequences are drawn from that:

* a result for an instance that was made after the restart finds it listed, so an execution
  has one instance per node (`stored_refs_distinct`);
* the row of an instance is inserted at most once per node (`inserted_once`);
* a delivered result stays in the execution until it is replaced
  (`delivered_results_stay`).
-/

namespace Congelado

open Orchestrator Callback List

variable {σ : Type} {H : Host σ} {w : World σ} {op : Op} {wdef : WorkflowDef} {done : Done}
    {fails : Bool} {c c' : Cursor σ} {r : World σ × List Op} {x y : WorkflowExecution} {e : Uuid}
    {s : Config (World σ) Op} {w' : World σ}

/-! ### What a stretch issues -/

/-- The instances of an execution that were made since it was restarted last, the last one
first. -/
def madeSince (e : Uuid) : List Event → List TaskInstance
  | [] => []
  | .restarted id :: history => if id = e then [] else madeSince e history
  | .created inst :: history =>
    if inst.workflowExecId = e then inst :: madeSince e history else madeSince e history
  | _ :: history => madeSince e history

def World.made (w : World σ) (e : Uuid) : List TaskInstance := madeSince e w.history

theorem made_of_cons {ev : Event} (h : w'.history = ev :: w.history) (hopens : ¬Event.Opens e ev)
    (hcreated : ∀ inst, ev = .created inst → inst.workflowExecId ≠ e) : w'.made e = w.made e := by
  unfold World.made
  rw [h]
  cases ev with
  | restarted id => exact if_neg hopens
  | created inst => exact if_neg (hcreated inst rfl)
  | _ => rfl

theorem mem_made {inst : TaskInstance} {history : List Event} (h : inst ∈ madeSince e history) :
    .created inst ∈ history ∧ inst.workflowExecId = e := by
  induction history with
  | nil => exact absurd h not_mem_nil
  | cons ev history ih =>
    have hlater := fun h => (ih h).imp_left (mem_cons_of_mem ev)
    cases ev with
    | restarted id =>
      rw [madeSince] at h
      split at h
      · exact absurd h not_mem_nil
      · exact hlater h
    | created i =>
      rw [madeSince] at h
      split at h
      · obtain rfl | h := mem_cons.1 h
        · exact ⟨.head _, ‹_›⟩
        · exact hlater h
      · exact hlater h
    | _ => exact hlater h

/-- The rows a list of operations inserts. -/
def insertsBy (ops : List Op) : List TaskInstance := ops.flatMap Op.inserts

@[simp] theorem insertsBy_append (ops ops' : List Op) :
    insertsBy (ops ++ ops') = insertsBy ops ++ insertsBy ops' := flatMap_append

theorem insertsBy_of_plain {ops : List Op} (h : ∀ o ∈ ops, o.plain = true) :
    insertsBy ops = [] :=
  flatMap_eq_nil_iff.2 fun o ho => Op.inserts_of_plain (h o ho)

/-- The rows that were inserted, the last one first. -/
def World.insertions (w : World σ) : List TaskInstance :=
  w.history.filterMap fun
    | .inserted inst => some inst
    | _ => none

theorem insertions_of_cons {ev : Event} (h : w'.history = ev :: w.history)
    (hnot : ∀ inst, ev ≠ .inserted inst) : w'.insertions = w.insertions := by
  unfold World.insertions
  rw [h, filterMap_cons]
  cases ev <;> first | rfl | exact absurd rfl (hnot _)

/-- An operation that a move issues beside the insertions: it announces the end of the
execution, or an event. -/
def Op.Tells (op : Op) : Prop :=
  op.Announces ∨ ∃ event payload, op ∈ publishEvent event payload

theorem Op.Tells.plain (h : op.Tells) : op.plain = true := by
  obtain h | ⟨event, payload, h⟩ := h
  · exact h.plain
  · exact mem_singleton.1 h ▸ rfl

/-- A move makes an instance and issues the insertion of its row, or it tells something and
leaves the instances alone. -/
theorem Orchestrator.Move.issues (h : Move H wdef c c') :
    (∃ inst, New wdef c inst ∧ c' = c.spawn inst) ∨
      (∃ new, c'.ops = c.ops ++ new ∧ ∀ o ∈ new, o.Tells) ∧
        c'.exec.taskInstances = c.exec.taskInstances ∧ (∀ e, c'.world.made e = c.world.made e) ∧
          c'.world.insertions = c.world.insertions := by
  have hnone : ∃ new, c.ops = c.ops ++ new ∧ ∀ o ∈ new, o.Tells :=
    ⟨[], (append_nil _).symm, forall_mem_nil _⟩
  have hends : ∀ x, ∀ o ∈ onExecutionTerminal x, o.Tells := fun x o ho =>
    .inl (announces_onExecutionTerminal x o ho)
  cases h with
  | lua | vars | pass => exact .inr ⟨hnone, rfl, fun _ => rfl, rfl⟩
  | spawn inst new => exact .inl ⟨inst, new, rfl⟩
  | publish event payload =>
    exact .inr ⟨⟨_, rfl, fun o ho => .inr ⟨event, payload, ho⟩⟩, rfl, fun _ => rfl, rfl⟩
  | complete running done =>
    rw [maybeComplete_eq running done]
    exact .inr ⟨⟨_, rfl, hends _⟩, rfl, fun _ => rfl, rfl⟩
  | terminate running status terminal =>
    exact .inr ⟨⟨_, rfl, hends _⟩, rfl, fun _ => rfl, rfl⟩

theorem plain_done (done : Done) (x : WorkflowExecution) :
    ∀ o ∈ done.apply x, o.plain = true := by
  intro o ho
  cases done <;> exact mem_singleton.1 ho ▸ rfl

/-- An exit issues plain operations. -/
theorem Orchestrator.Exit.issues (h : Exit wdef done fails c r y) :
    ∃ last, r.2 = c.ops ++ last ∧ ∀ o ∈ last, o.plain = true := by
  cases h with
  | yield => exact ⟨_, rfl, plain_done done c.exec⟩
  | spawn | startWorkflow | subWorkflow =>
    exact ⟨_, rfl, fun o ho => mem_singleton.1 ho ▸ rfl⟩
  | fail _ inst retry failing =>
    obtain ⟨tail, heq, htail⟩ := handleFailure_eq inst wdef retry c
    rw [heq]
    exact ⟨_, rfl, plain_failure htail _ _⟩
  | orphan _ inst retry new status =>
    obtain ⟨tail, heq, htail⟩ := handleFailure_eq inst wdef retry (c.create inst)
    rw [heq]
    exact ⟨_, rfl, plain_failure htail _ _⟩

theorem taskIds_subset_sync (x : WorkflowExecution) (inst : TaskInstance) :
    x.taskIds ⊆ (syncInstance x inst).taskIds := by
  by_cases hmem : inst.taskId ∈ x.taskIds
  · exact (Perm.of_eq (Keyed.map_key_put_of_mem hmem).symm).subset
  · unfold syncInstance WorkflowExecution.taskIds
    rw [Keyed.put_eq_append hmem, map_append]
    exact subset_append_left _ _

theorem taskIds_afterFailure (now : Time) (retry : RetryPolicy) (inst : TaskInstance)
    (x : WorkflowExecution) : x.taskIds ⊆ (afterFailure now retry inst x).2.taskIds ∧
      inst.taskId ∈ (afterFailure now retry inst x).2.taskIds := by
  unfold afterFailure
  have hmem : ∀ (x : WorkflowExecution) (i : TaskInstance),
      i.taskId ∈ (syncInstance x i).taskIds := fun _ _ => mem_map_of_mem Keyed.mem_put_self
  split
  · exact ⟨taskIds_subset_sync x _, hmem x (armRetry now retry inst)⟩
  · exact ⟨taskIds_subset_sync { x with status := .failed } inst, hmem _ inst⟩

/-- What a stretch makes: the execution `y` it hands on lists the new instances, the last one
first, and the rows it inserts are theirs. -/
structure Makes (wdef : WorkflowDef) (c : Cursor σ) (r : World σ × List Op)
    (y : WorkflowExecution) (new : List TaskInstance) : Prop where
  self : r.1.made c.exec.execId = new ++ c.world.made c.exec.execId
  other : ∀ e, c.exec.execId ≠ e → r.1.made e = c.world.made e
  insertions : r.1.insertions = c.world.insertions
  kept : c.exec.taskIds ⊆ y.taskIds
  listed : ∀ i ∈ new, i.taskId ∈ y.taskIds
  rows : (insertsBy r.2).Subperm (insertsBy c.ops ++ new)
  once : wdef.refs.Nodup →
    (new.map TaskInstance.nodeRef).Nodup ∧ ∀ i ∈ new, i.nodeRef ∉ c.exec.refs

section Makes

variable {d : Cursor σ} {new : List TaskInstance} (h : Makes wdef c (d.world, d.ops) d.exec new)
    (hids : d.exec.taskIds ⊆ y.taskIds)

include h hids

theorem Makes.keep (hmade : ∀ e, r.1.made e = d.world.made e)
    (hins : r.1.insertions = d.world.insertions) (hrows : insertsBy r.2 = insertsBy d.ops) :
    Makes wdef c r y new where
  self := (hmade _).trans h.self
  other e he := (hmade e).trans (h.other e he)
  insertions := hins.trans h.insertions
  kept := List.Subset.trans h.kept hids
  listed i hi := hids (h.listed i hi)
  rows := hrows ▸ h.rows
  once := h.once

theorem Makes.add {inst : TaskInstance} (hnew : New wdef d inst)
    (hid : d.exec.execId = c.exec.execId)
    (hrefs : c.exec.refs ++ new.map TaskInstance.nodeRef ⊆ d.exec.refs)
    (hw : r.1.history = .created inst :: d.world.history)
    (hrows : (insertsBy r.2).Subperm (insertsBy d.ops ++ [inst])) (hmem : inst.taskId ∈ y.taskIds) :
    Makes wdef c r y (inst :: new) where
  self := by
    rw [World.made, hw, madeSince, if_pos (hnew.workflowExecId.trans hid)]
    exact congrArg (inst :: ·) h.self
  other e he := by
    refine (made_of_cons hw (fun h => h) fun i hi => ?_).trans (h.other e he)
    obtain rfl := Event.created.inj hi
    rwa [hnew.workflowExecId, hid]
  insertions := (insertions_of_cons hw (by simp)).trans h.insertions
  kept := List.Subset.trans h.kept hids
  listed := forall_mem_cons.2 ⟨hmem, fun i hi => hids (h.listed i hi)⟩
  rows := by
    refine (hrows.trans (perm_append_singleton inst _).subperm).trans ?_
    exact ((subperm_cons inst).2 h.rows).trans perm_middle.symm.subperm
  once hnd := by
    -- the node of the new instance has none yet, be it an old one or one of this stretch
    obtain ⟨hnodup, hfresh⟩ := h.once hnd
    have hinst := hnew.fresh hnd
    exact ⟨nodup_cons.2 ⟨fun hmem => hinst (hrefs (mem_append_right _ hmem)), hnodup⟩,
      forall_mem_cons.2 ⟨fun hmem => hinst (hrefs (mem_append_left _ hmem)), hfresh⟩⟩

end Makes

theorem moves_makes (h : Moves H wdef c c') :
    ∃ new, Makes wdef c (c'.world, c'.ops) c'.exec new ∧
      c.exec.refs ++ new.map TaskInstance.nodeRef ⊆ c'.exec.refs := by
  induction h with
  | refl =>
    have hrows := (Perm.of_eq (append_nil (insertsBy c.ops)).symm).subperm
    exact ⟨[], ⟨rfl, fun _ _ => rfl, rfl, fun _ h => h, by simp, hrows, by simp⟩, by simp⟩
  | @tail d d' hmoves hm ih =>
    obtain ⟨new, hmakes, hrefs⟩ := ih
    rcases hm.issues with ⟨inst, hnew, rfl⟩ | ⟨⟨tells, hops, htells⟩, hinst, hmade, hins⟩
    · have hids := taskIds_spawn d inst
      refine ⟨inst :: new, hmakes.add ?_ hnew (moves_version hmoves).execId hrefs rfl ?_ ?_, ?_⟩
      · rw [hids]
        exact subset_append_left _ _
      · exact (Perm.of_eq (insertsBy_append d.ops [.insertInstance inst])).subperm
      · rw [hids]
        exact mem_append_right _ (.head _)
      · rw [refs_spawn, map_cons]
        exact List.Subset.trans (perm_middle.trans (perm_append_singleton _ _).symm).subset
          (append_subset.2 ⟨List.Subset.trans hrefs (subset_append_left _ _),
            subset_append_right _ _⟩)
    · have hrows : insertsBy d'.ops = insertsBy d.ops := by
        rw [hops, insertsBy_append, insertsBy_of_plain fun o ho => (htells o ho).plain, append_nil]
      have hids : d'.exec.taskIds = d.exec.taskIds := congrArg (map TaskInstance.taskId) hinst
      have hsame : d'.exec.refs = d.exec.refs := congrArg (map TaskInstance.nodeRef) hinst
      exact ⟨new, hmakes.keep (Perm.of_eq hids.symm).subset hmade hins hrows, hsame ▸ hrefs⟩

/-- **What a stretch makes**, with its exit. -/
theorem Orchestrator.Exit.makes (h : Exit wdef done fails c' r y) (hmoves : Moves H wdef c c') :
    ∃ new, Makes wdef c r y new := by
  obtain ⟨new, hmakes, hrefs⟩ := moves_makes hmoves
  have hrows : insertsBy r.2 = insertsBy c'.ops := by
    obtain ⟨last, hops, hlast⟩ := h.issues
    rw [hops, insertsBy_append, insertsBy_of_plain hlast, append_nil]
  cases h with
  | fail _ inst retry failing =>
    have hworld : (handleFailure inst wdef retry c').1 = c'.world := handleFailure_world inst retry
    exact ⟨new, hmakes.keep (taskIds_afterFailure _ _ _ _).1 (fun _ => by rw [hworld])
      (by rw [hworld]) hrows⟩
  | orphan _ inst retry hnew status =>
    -- the instance is listed, but its row is not inserted
    obtain ⟨hids, hmem⟩ := taskIds_afterFailure c'.world.now retry inst c'.exec
    refine ⟨inst :: new, hmakes.add hids hnew (moves_version hmoves).execId hrefs ?_ ?_ hmem⟩
    · rw [handleFailure_world]
      rfl
    · exact hrows ▸ (sublist_append_left _ _).subperm
  | _ => exact ⟨new, hmakes.keep (fun _ h => h) (fun _ => rfl) rfl hrows⟩

section

variable (h : Entry w op wdef done c)

include h

/-- Where a stretch is entered, only updates of rows are waiting. -/
theorem Entry.ops_updates :
    ∀ o ∈ c.ops, ∃ j, o = .updateInstance j .log := by
  cases h with
  | begins h => exact h.ops_updates
  | launch => exact fun _ ho => absurd ho not_mem_nil

theorem Entry.plain : ∀ o ∈ c.ops, o.plain = true := by
  intro o ho
  obtain ⟨j, rfl⟩ := h.ops_updates o ho
  rfl

theorem Entry.heldBy_ops : heldBy c.ops = [] := by
  cases h with
  | begins h => exact h.heldBy_ops
  | launch => rfl

/-- No operation that a stretch issues holds an execution as it was read. -/
theorem Entry.asRead (hs : Stretch H wdef done fails c r) :
    ∀ o ∈ r.2, o.asRead = none := by
  obtain ⟨c', y, hmoves, hexit⟩ := hs
  have hmoved : ∀ o ∈ c'.ops, o.asRead = none := by
    refine moves_rule (P := fun d => ∀ o ∈ d.ops, o.asRead = none) hmoves
      (fun o ho => Op.asRead_of_plain (h.plain o ho)) fun d d' hm hd o ho => ?_
    rcases hm.issues with ⟨inst, -, rfl⟩ | ⟨⟨new, hops, htells⟩, -⟩
    · rcases mem_append.1 ho with ho | ho
      · exact hd o ho
      · exact mem_singleton.1 ho ▸ rfl
    · rcases mem_append.1 (hops ▸ ho) with ho | ho
      · exact hd o ho
      · exact Op.asRead_of_plain (htells o ho).plain
  obtain ⟨last, hops, hplain⟩ := hexit.issues
  intro o ho
  rcases mem_append.1 (hops ▸ ho) with ho | ho
  · exact hmoved o ho
  · exact Op.asRead_of_plain (hplain o ho)

end

/-- What an operation reads and holds is what is stored. -/
theorem run_asRead (hready : ∀ f ∈ op.frames, Ready w f) {o : Op} (ho : o ∈ (op.run H w).2)
    (hx : x ∈ o.asRead) : w.execs.find? x.execId = some x := by
  rcases run_entry (H := H) hready with ⟨wdef, done, fails, c, hentry, hs⟩ | haside
  · rw [hentry.asRead hs o ho] at hx
    cases hx
  · exact haside.asRead o ho x hx

theorem Op.mem_copies_of_asRead (h : x ∈ op.asRead) : x ∈ op.copies := by
  unfold Op.asRead at h
  split at h
  all_goals first
    | exact Option.some.inj h ▸ (.head _)
    | cases h

/-! ### One copy at a time -/

open Session (copies current)

/-- The step works on the execution alone: it reads it only while no other copy of it
is held, and it does not abandon a chain that holds a copy of it. -/
def Serial (H : Host σ) (e : Uuid) (s : Config (World σ) Op) : Label Call Time → Prop
  | .step => ∀ op ∈ s.queue.head?,
      (e ∈ op.reads H s.world → ∀ x ∈ heldBy s.queue.tail, x.execId ≠ e) ∧
      (op.abandons s.world = true → ∀ x ∈ op.copies.tail, x.execId ≠ e)
  | _ => True

instance (e : Uuid) (s : Config (World σ) Op) : ∀ l, Decidable (Serial H e s l)
  | .call _ | .env _ => .isTrue trivial
  | .step => inferInstanceAs (Decidable (∀ op ∈ s.queue.head?, _ ∧ _))

/-- The execution as it stands: the copy that is held, or else the stored record. -/
def standing (e : Uuid) (s : Config (World σ) Op) : Option WorkflowExecution :=
  current WorkflowExecution.execId s.world.execs.find? (heldBy s.queue) e

/-- The invariant: there is at most one copy, and what is held as it was read is what
is stored. -/
structure Single (H : Host σ) (e : Uuid) (s : Config (World σ) Op) : Prop where
  sound : Sound H s
  one : (copies WorkflowExecution.execId e (heldBy s.queue)).length ≤ 1
  asRead : ∀ op ∈ s.queue, ∀ x ∈ op.asRead, x.execId = e → s.world.execs.find? e = some x

theorem Config.Initial.single (hs : Config.Initial s) :
    Single H e s :=
  ⟨hs.sound, by simp [hs.2, copies], by simp [hs.2]⟩

/-- An execution that somebody holds is not new. -/
theorem Sound.held_ne_fresh (h : Sound H s)
    (hx : x ∈ heldBy s.queue) : x.execId ≠ s.world.fresh := by
  obtain ⟨o, ho, hx⟩ := mem_flatMap.1 hx
  obtain ⟨e, he, hid, -⟩ := ((h.queue o ho).copies x hx).opened
  exact hid ▸ (h.world.registry.opened_lt e he).ne

section Step

variable {order : Order} {q : List Op}

theorem heldBy_call (call : Call) (now : Time) : heldBy (call.issue now) = [] := by
  cases call <;> rfl

/-- Putting operations into the queue does not change what is held of an execution
with at most one copy. -/
theorem copies_enqueue {new : List Op}
    (hone : (copies WorkflowExecution.execId e (heldBy q ++ heldBy new)).length ≤ 1) :
    copies WorkflowExecution.execId e (heldBy (order.enqueue q new)) =
      copies WorkflowExecution.execId e (heldBy q ++ heldBy new) := by
  refine Session.copies_eq_of_perm ?_ hone
  rw [← heldBy_append]
  exact ((order.enqueue_perm q new).flatMap_right Op.copies).symm

section

variable (h : Single H e ⟨w, q⟩)

include h

theorem copies_call (call : Call) (order : Order) :
    copies WorkflowExecution.execId e (heldBy (order.enqueue q (call.issue w.now))) =
      copies WorkflowExecution.execId e (heldBy q) := by
  have hone : (copies WorkflowExecution.execId e
      (heldBy q ++ heldBy (call.issue w.now))).length ≤ 1 := by
    rw [heldBy_call, append_nil]
    exact h.one
  rw [copies_enqueue hone, heldBy_call, append_nil]

theorem Single.call (call : Call) :
    Single H e ⟨w, order.enqueue q (call.issue w.now)⟩ := by
  refine ⟨h.sound.call call, ?_, fun o ho x hx hxe => ?_⟩
  · rw [copies_call h call order]
    exact h.one
  · rcases Order.mem_enqueue.1 ho with ho | ho
    · exact h.asRead o ho x hx hxe
    · cases call <;> obtain rfl := mem_singleton.1 ho <;> cases hx

theorem Single.standing_call (call : Call) (order : Order) :
    standing e ⟨w, order.enqueue q (call.issue w.now)⟩ = standing e ⟨w, q⟩ :=
  Session.current_congr (copies_call h call order)

theorem Single.env (now : Time) :
    Single H e ⟨{ w with now := now }, q⟩ :=
  ⟨h.sound.env now, h.one, h.asRead⟩

end

section

variable (h : Single H e ⟨w, op :: q⟩)

include h

/-- The copy that the operation in front holds is the only one. -/
theorem Single.alone (hx : x ∈ op.copies) (hxe : x.execId = e) :
    copies WorkflowExecution.execId e op.copies = [x] ∧ ∀ y ∈ heldBy q, y.execId ≠ e := by
  have hone : (copies WorkflowExecution.execId e (op.copies ++ heldBy q)).length ≤ 1 := h.one
  obtain ⟨htaken, hothers⟩ := Session.Flow.copies_of_mem hone hx hxe
  exact ⟨htaken, Session.copies_eq_nil.1 hothers⟩

/-- A held copy is not new, so a step makes no copy of it. -/
theorem Single.born (hb : Born H w op r y) (hy : y.execId = e) :
    ∀ x ∈ op.copies ++ heldBy q, x.execId ≠ e := by
  intro x hx hxe
  have hne : x.execId ≠ w.fresh := Sound.held_ne_fresh h.sound hx
  exact hne (hxe.trans (hy.symm.trans hb.execId))

section

variable (hok : Serial H e ⟨w, op :: q⟩ .step)

include hok

/-- A step hands on at most one copy, and works on the execution as it stands. -/
theorem Single.handed :
    (copies WorkflowExecution.execId e (heldBy q ++ heldBy (op.run H w).2)).length ≤ 1 ∧
      Session.Flow.Outcome WorkflowExecution.execId (effects H w op (op.run H w)) e
        (standing e ⟨w, op :: q⟩)
        (current WorkflowExecution.execId (op.run H w).1.execs.find?
          (heldBy q ++ heldBy (op.run H w).2) e) := by
  have hflow : Flows H w op (op.run H w) := run_flow h.sound.ready
  obtain ⟨hread, hlost⟩ := hok op rfl
  exact hflow.current_step (fun _ _ hc => (Changes.version hc).execId) h.one
    (fun y hb hy => h.born hb hy) hread
    (fun x hx hxe => h.asRead op mem_cons_self x hx hxe) hlost

/-- **One step keeps the single copy.** -/
theorem Single.step :
    Single H e (op.next H order w q) := by
  have hone := (h.handed hok).1
  refine ⟨h.sound.step, ?_, fun o ho x hx hxe => ?_⟩
  · rwa [copies_enqueue hone]
  · have hmem : x ∈ o.copies := Op.mem_copies_of_asRead hx
    -- the record was not written in this step, since the writer would hold a second copy
    have hstore : (op.run H w).1.execs.find? e = w.execs.find? e := by
      rcases stored_or_written (H := H) h.sound.ready e with
        hsame | ⟨z, rest, htaken, -, hze, -, hgiven⟩
      · exact hsame
      · exfalso
        obtain ⟨honly, hothers⟩ := h.alone (htaken ▸ (.head _)) hze
        rcases Order.mem_enqueue.1 ho with ho | ho
        · exact hothers x (mem_flatMap.2 ⟨o, ho, hmem⟩) hxe
        · obtain ⟨x', hx', hv⟩ := hgiven x (mem_flatMap.2 ⟨o, ho, hmem⟩)
          rw [htaken, Session.copies_cons_of_eq hze, List.cons.injEq] at honly
          exact Session.copies_eq_nil.1 honly.2 x' hx' (hv.execId.symm.trans hxe)
    rw [hstore]
    rcases Order.mem_enqueue.1 ho with ho | ho
    · exact h.asRead o (.tail _ ho) x hx hxe
    · exact hxe ▸ run_asRead h.sound.ready ho hx

/-- **One step changes the execution as it stands** only by its work on it. -/
theorem Single.outcome (order : Order) :
    Session.Flow.Outcome WorkflowExecution.execId (effects H w op (op.run H w)) e
      (standing e ⟨w, op :: q⟩)
      (standing e (op.next H order w q)) := by
  obtain ⟨hone, houtcome⟩ := h.handed hok
  rwa [← Session.current_congr (copies_enqueue hone)] at houtcome

end

end

/-- The copy that somebody holds is the execution as it stands. -/
theorem Single.standing_of_held (h : Single H e s)
    (hx : x ∈ heldBy s.queue) (hxe : x.execId = e) : standing e s = some x := by
  have hmem : x ∈ copies WorkflowExecution.execId e (heldBy s.queue) :=
    Session.mem_copies.2 ⟨hx, hxe⟩
  have hone := h.one
  refine Session.current_of_copies ?_
  match hc : copies WorkflowExecution.execId e (heldBy s.queue) with
  | [] => rw [hc] at hmem; exact absurd hmem not_mem_nil
  | [z] => rw [hc, mem_singleton] at hmem; rw [hmem]
  | _ :: _ :: _ => rw [hc] at hone; simp at hone

end Step

/-! ### What an execution lists -/

/-- The operation clears the instances of the execution. -/
def Op.restarts (e : Uuid) : Op → Bool
  | .findDef _ (.restart x _) => x.execId = e
  | _ => false

theorem Begins.taskIds_subset (h : Begins w op wdef done x c)
    (hnot : op.restarts x.execId = false) : x.taskIds ⊆ c.exec.taskIds := by
  cases h with
  | deliver => exact taskIds_subset_sync _ _
  | retry => exact (Perm.of_eq (map_retry _ (fun _ => rfl) _).symm).subset
  | restart => simp [Op.restarts] at hnot
  | rerun _ hinst => exact (Perm.of_eq (taskIds_rerun hinst _).symm).subset
  | _ => exact fun _ h => h

/-- A stretch that begins with a restart records it. -/
theorem Begins.not_quiet (h : Begins w op wdef done x c) (hrestarts : op.restarts x.execId = true)
    (hext : c.world.Extends r.1) : ¬Quiet w op r.1 := by
  cases h with
  | restart =>
    have hsuffix := hext.history
    rintro (hsame | ⟨ev, houter, hcons⟩)
    · rw [hsame] at hsuffix
      exact absurd hsuffix.length_le (Nat.not_succ_le_self _)
    · rw [hcons] at hsuffix
      obtain ⟨rfl, -⟩ := List.cons.inj (hsuffix.eq_of_length rfl)
      exact houter
  | _ => cases hrestarts

/-- A step other than a restart keeps the instances that an execution lists. -/
theorem Changes.taskIds_subset (h : Changes H w op r x y)
    (hquiet : op.restarts x.execId = true → Quiet w op r.1) : x.taskIds ⊆ y.taskIds := by
  cases h with
  | same | status | vars => exact fun _ h => h
  | sync name inst => exact taskIds_subset_sync _ _
  | fail => exact (taskIds_afterFailure _ _ _ _).1
  | failNow name inst => exact taskIds_subset_sync { x with status := .failed } inst
  | stretch begins moves exit =>
    have hnot : op.restarts x.execId = false := by
      refine Bool.eq_false_of_not_eq_true fun hrestarts => ?_
      exact begins.not_quiet hrestarts ((moves_later moves).trans exit.later).toExtends
        (hquiet hrestarts)
    obtain ⟨new, hmakes⟩ := exit.makes moves
    exact List.Subset.trans (begins.taskIds_subset hnot) hmakes.kept

/-- A stretch that restarts an execution works on it, and nothing was made of it since then. -/
theorem Entry.restarts (h : Entry w op wdef done c) (hrestarts : op.restarts e = true) :
    c.exec.execId = e ∧ c.world.made e = [] := by
  cases h with
  | begins h =>
    cases h with
    | restart =>
      have hid := of_decide_eq_true hrestarts
      exact ⟨hid, if_pos hid⟩
    | _ => cases hrestarts
  | launch => cases hrestarts

theorem Entry.made_self (h : Entry w op wdef done c) (hnot : op.restarts c.exec.execId = false) :
    c.world.made c.exec.execId = w.made c.exec.execId := by
  cases h with
  | begins h =>
    cases h with
    | restart => simp [Op.restarts, Cursor.start] at hnot
    | _ => rfl
  | launch => rfl

/-- A stretch makes instances of its own execution only, and inserts no row itself. -/
theorem Entry.stretched (h : Entry w op wdef done c) (hs : Stretch H wdef done fails c r) :
    (∀ e, c.exec.execId ≠ e → r.1.made e = w.made e) ∧ r.1.insertions = w.insertions := by
  obtain ⟨c', y, hmoves, hexit⟩ := hs
  obtain ⟨new, hmakes⟩ := hexit.makes hmoves
  rcases h.history with hsame | ⟨ev, hopens, hcons⟩
  · exact ⟨fun e hne => (hmakes.other e hne).trans (congrArg (madeSince e) hsame),
      hmakes.insertions.trans (congrArg (filterMap _) hsame)⟩
  · refine ⟨fun e hne => (hmakes.other e hne).trans ?_, hmakes.insertions.trans ?_⟩
    · refine made_of_cons hcons (fun hopens' => hne ?_) ?_
      · cases ev <;> first | exact hopens.symm.trans hopens' | exact hopens.elim
      · rintro inst rfl
        exact hopens.elim
    · refine insertions_of_cons hcons ?_
      rintro inst rfl
      exact hopens

theorem Quiet.made (h : Quiet w op w') : w'.made e = w.made e := by
  rcases h with hsame | ⟨ev, houter, hcons⟩
  · rw [World.made, hsame, World.made]
  · refine made_of_cons hcons (fun hopens => ?_) ?_
    · cases ev <;> first | exact houter | exact hopens
    · rintro inst rfl
      exact houter.elim

/-- What stands is held or stored, and tracked. -/
theorem Sound.standing (h : Sound H s) (hx : standing e s = some x) :
    Tracked s.world x ∧ x.execId = e := by
  unfold Congelado.standing current at hx
  split at hx
  · exact ⟨h.world.execs x (Keyed.Table.mem_of_find? hx), Keyed.Table.key_of_find? hx⟩
  · next z rest hc =>
    obtain rfl := Option.some.inj hx
    obtain ⟨hz, hze⟩ := Session.mem_copies.1 (hc ▸ mem_cons_self : z ∈ copies _ e _)
    obtain ⟨o, ho, hz⟩ := mem_flatMap.1 hz
    exact ⟨(h.queue o ho).copies z hz, hze⟩

theorem Sound.standing_ne_fresh (h : Sound H s)
    (hx : Congelado.standing e s = some x) : e ≠ s.world.fresh := by
  obtain ⟨htracked, hxe⟩ := h.standing hx
  obtain ⟨o, ho, hid, -⟩ := htracked.opened
  have hlt := h.world.registry.opened_lt o ho
  rw [hid, hxe] at hlt
  exact hlt.ne

/-- The invariant: the execution as it stands lists what was made of it. -/
structure Listing (H : Host σ) (e : Uuid) (s : Config (World σ) Op) : Prop where
  single : Single H e s
  listed : ∀ i ∈ s.world.made e, ∃ x, standing e s = some x ∧ i.taskId ∈ x.taskIds

theorem Config.Initial.listing (hs : Config.Initial s) : Listing H e s :=
  ⟨hs.single, by simp [World.made, madeSince, hs.1.history]⟩

section Listing

variable {order : Order} {q : List Op}

theorem Listing.call (h : Listing H e ⟨w, q⟩) (call : Call) :
    Listing H e ⟨w, order.enqueue q (call.issue w.now)⟩ := by
  refine ⟨h.single.call call, ?_⟩
  rw [h.single.standing_call call order]
  exact h.listed

theorem Listing.env (h : Listing H e ⟨w, q⟩) (now : Time) :
    Listing H e ⟨{ w with now := now }, q⟩ :=
  ⟨h.single.env now, h.listed⟩

variable (h : Listing H e ⟨w, op :: q⟩)

include h

/-- What was made of the execution is listed where a stretch on it begins. -/
theorem Listing.entry (hentry : Entry w op wdef done c) (hce : c.exec.execId = e) :
    ∀ i ∈ c.world.made e, i.taskId ∈ c.exec.taskIds := by
  subst hce
  intro i hi
  by_cases hrestarts : op.restarts c.exec.execId = true
  · rw [(hentry.restarts hrestarts).2] at hi
    exact absurd hi not_mem_nil
  · have hnot := Bool.eq_false_of_not_eq_true hrestarts
    rw [hentry.made_self hnot] at hi
    obtain ⟨x, hx, hid⟩ := h.listed i hi
    cases hentry with
    | @begins _ _ _ z _ hbegins =>
      have hze := hbegins.version.execId
      have hz : z ∈ heldBy (op :: q) := by
        rw [heldBy_cons]
        refine mem_append_left _ ?_
        rcases hbegins.copies with ⟨heq, -⟩ | ⟨child, callback, -, heq, -⟩
        · rw [heq]
          exact .head _
        · rw [heq]
          exact .tail _ (.head _)
      -- the copy the stretch works on is the execution as it stands
      rw [h.single.standing_of_held hz hze.symm] at hx
      cases hx
      exact hbegins.taskIds_subset (hze ▸ hnot) hid
    | launch => exact absurd rfl (h.single.sound.standing_ne_fresh hx)

variable (hok : Serial H e ⟨w, op :: q⟩ .step)

include hok

/-- A step that makes no instance of the execution. -/
theorem Listing.keep (hmade : (op.run H w).1.made e = w.made e)
    (hquiet : op.restarts e = true → Quiet w op (op.run H w).1) :
    Listing H e (op.next H order w q) := by
  refine ⟨h.single.step hok, fun i hi => ?_⟩
  obtain ⟨x, hx, hid⟩ := h.listed i (hmade ▸ hi)
  obtain ⟨-, hxe⟩ := h.single.sound.standing hx
  have houtcome := h.single.outcome hok order
  rw [hx] at houtcome
  generalize standing e (op.next H order w q) = after at houtcome ⊢
  cases houtcome with
  | same => exact ⟨x, rfl, hid⟩
  | changed _ y hc => exact ⟨y, rfl, Changes.taskIds_subset hc (hxe ▸ hquiet) hid⟩
  | born y _ hb hy =>
    exact absurd (hy.symm.trans (Born.execId hb)) (h.single.sound.standing_ne_fresh hx)

/-- A step that works on the execution. -/
theorem Listing.work {new : List TaskInstance} (hentry : Entry w op wdef done c)
    (hmoves : Moves H wdef c c') (hexit : Exit wdef done fails c' (op.run H w) y)
    (hmakes : Makes wdef c (op.run H w) y new) (hce : c.exec.execId = e) (order : Order) :
    Listing H e (op.next H order w q) ∧ standing e (op.next H order w q) = some y := by
  have hnext : Single H e (op.next H order w q) := h.single.step hok
  have hye : y.execId = e := (hexit.version.execId.trans (moves_version hmoves).execId).trans hce
  -- the execution the stretch hands on is the one that stands
  have hy : y ∈ heldBy (order.enqueue q (op.run H w).2) := by
    refine mem_heldBy_enqueue.2 (.inr ?_)
    rw [hexit.heldBy (moves_heldBy_ops hmoves hentry.heldBy_ops)]
    exact .head _
  have hstanding := hnext.standing_of_held hy hye
  refine ⟨⟨hnext, fun i hi => ⟨y, hstanding, ?_⟩⟩, hstanding⟩
  subst hce
  rcases mem_append.1 (hmakes.self ▸ hi) with hi | hi
  · exact hmakes.listed i hi
  · exact hmakes.kept (h.entry hentry rfl i hi)

theorem Listing.step (order : Order) : Listing H e (op.next H order w q) := by
  rcases run_entry (H := H) h.single.sound.ready with ⟨wdef, done, fails, c, hentry, hs⟩ | haside
  · by_cases hce : c.exec.execId = e
    · obtain ⟨c', y, hmoves, hexit⟩ := hs
      obtain ⟨new, hmakes⟩ := hexit.makes hmoves
      exact (h.work hok hentry hmoves hexit hmakes hce order).1
    · exact h.keep hok ((hentry.stretched hs).1 e hce) fun hrestarts =>
        absurd (hentry.restarts hrestarts).1 hce
  · exact h.keep hok haside.quiet.made fun _ => haside.quiet

end Listing

/-! ### One instance per node -/

/-- The instance that an operation hands to the execution it holds. -/
def Op.hands : Op → Option TaskInstance
  | .findDef _ (.onTaskTerminal inst _) | .findDef _ (.handleTimeout inst _ _ _)
  | .findTaskDef _ (.processTerminal inst _ _) => some inst
  | _ => none

/-- An execution is read only while no copy of it is held, no chain that other chains wait for is
abandoned, and no result or timeout is handed to an execution for an instance that was made before
it was restarted. -/
def Orderly (H : Host σ) (s : Config (World σ) Op) : Label Call Time → Prop
  | .step => ∀ op ∈ s.queue.head?,
      (∀ e ∈ op.reads H s.world, ∀ x ∈ heldBy s.queue.tail, x.execId ≠ e) ∧
      (op.abandons s.world = true → op.copies.tail = []) ∧
      ∀ x ∈ op.own, ∀ inst ∈ op.hands, inst.taskId ∈ (s.world.made x.execId).map TaskInstance.taskId
  | _ => True

instance (s : Config (World σ) Op) : ∀ l, Decidable (Orderly H s l)
  | .call _ | .env _ => .isTrue trivial
  | .step => inferInstanceAs (Decidable (∀ op ∈ s.queue.head?, _))

theorem Orderly.serial (h : Orderly H s .step) (e : Uuid) : Serial H e s .step := by
  intro op hop
  obtain ⟨hread, habandons, -⟩ := h op hop
  refine ⟨hread e, fun ha x hx => ?_⟩
  rw [habandons ha] at hx
  exact absurd hx not_mem_nil

/-- What is handed over is listed, since it was made after the restart. -/
theorem Orderly.known {q : List Op} (h : Orderly H ⟨w, op :: q⟩ .step)
    (hlisting : ∀ e, Listing H e ⟨w, op :: q⟩) : op.Known := by
  have listed : ∀ x inst, x ∈ op.own → inst ∈ op.hands → x ∈ op.copies → KnownIn x inst := by
    intro x inst hx hinst hcopy
    obtain ⟨i, hi, hid⟩ := mem_map.1 ((h op rfl).2.2 x hx inst hinst)
    obtain ⟨y, hy, hmem⟩ := (hlisting x.execId).listed i hi
    have hheld : x ∈ heldBy (op :: q) := mem_append_left _ hcopy
    rw [(hlisting x.execId).single.standing_of_held hheld rfl] at hy
    cases hy
    exact .inl (hid ▸ hmem)
  unfold Op.Known
  split
  · exact listed _ _ rfl rfl (.head _)
  · exact listed _ _ rfl rfl (.head _)
  · trivial

/-- **One instance per node.** In every run from an empty store, of any calls in any order, in which
work on the executions is serial and no chain that other chains wait for is abandoned: if no result
or timeout is handed over for an instance that was made before a restart, a stored execution of a
definition with distinct references has at most one instance of each node. -/
theorem stored_refs_distinct {order : Order} {s t : Config (World σ) Op}
    (hs : Config.Initial s) (h : (machine H).Run order (Orderly H) s t) :
    ∀ x ∈ t.world.execs.rows, ∀ wdef, t.world.workflowDefs.find? x.defName = some wdef →
      wdef.refs.Nodup → x.refs.Nodup := by
  have hinv : OneEach H s.world.workflowDefs t ∧ ∀ e, Listing H e t :=
    h.invariant (I := fun u => OneEach H s.world.workflowDefs u ∧ ∀ e, Listing H e u)
      ⟨hs.oneEach, fun _ => hs.listing⟩
      (fun _ _ call hi _ => ⟨hi.1.call call, fun e => (hi.2 e).call call⟩)
      (fun _ _ now hi _ => ⟨hi.1.env now, fun e => (hi.2 e).env now⟩)
      fun w op q hi hok => ⟨hi.1.step (hok.known hi.2), fun e => (hi.2 e).step (hok.serial e) order⟩
  intro x hx wdef hdef hnd
  exact hinv.1.distinct.stored x hx wdef (hinv.1.workflowDefs ▸ hdef) hnd

/-- The result is for the instance made after the restart. -/
def restartThenResult : List (Label Call Time) :=
  .call (.start chainDef.name [] 0) :: steps 6 ++ .call (.terminate "0" 1) :: steps 6 ++
    .call (.restart "0" 2) :: steps 6 ++ .call (.submitResult "2" .success [] 3) :: steps 8

theorem stored_refs_distinct_restart :
    ((machine literalHost).play .fifo restartThenResult chainStore).world.execs.rows.map
        (fun x => (x.defName, x.taskInstances.map fun i => (i.taskId, i.nodeRef))) =
      [(chainDef.name, [(2, "A"), (3, "B")])] ∧
    ∀ x ∈ ((machine literalHost).play .fifo restartThenResult chainStore).world.execs.rows,
      x.refs.Nodup := by
  have hplays : (machine literalHost).Plays .fifo (Orderly literalHost) restartThenResult
      chainStore := by
    decide +kernel
  have hdef : ∀ x ∈ ((machine literalHost).play .fifo restartThenResult
      chainStore).world.execs.rows, ((machine literalHost).play .fifo restartThenResult
        chainStore).world.workflowDefs.find? x.defName = some chainDef := by
    decide +kernel
  refine ⟨by decide +kernel, fun x hx => ?_⟩
  exact stored_refs_distinct (initial_ofDefinitions _ _ _ _) (.of_plays hplays) x hx chainDef
    (hdef x hx) (by decide)

/-! ### Rows are inserted once -/

/-- The rows of the execution: inserted, or about to be. -/
def rowsOf (e : Uuid) (s : Config (World σ) Op) : List TaskInstance :=
  (insertsBy s.queue ++ s.world.insertions).filter fun inst => inst.workflowExecId = e

section Rows

variable {order : Order} {q : List Op}

/-- The rows after a step: those before, and those the step issues. -/
theorem rowsOf_step (order : Order) (hready : ∀ f ∈ op.frames, Ready w f) :
    (rowsOf e (op.next H order w q)).Perm
      (rowsOf e ⟨w, op :: q⟩ ++
        (insertsBy (op.run H w).2).filter fun inst => inst.workflowExecId = e) := by
  have hqueue : (insertsBy (order.enqueue q (op.run H w).2)).Perm
      (insertsBy q ++ insertsBy (op.run H w).2) := by
    rw [← insertsBy_append]
    exact (order.enqueue_perm q (op.run H w).2).flatMap_right Op.inserts
  -- the row the operation itself inserts moves from the queue to the history
  have hhistory : (op.run H w).1.insertions = op.inserts ++ w.insertions := by
    by_cases hop : ∃ inst, op = .insertInstance inst
    · obtain ⟨inst, rfl⟩ := hop
      rfl
    · have hnone : op.inserts = [] := by
        cases op <;> first | rfl | exact absurd ⟨_, rfl⟩ hop
      rw [hnone, nil_append]
      rcases run_entry (H := H) hready with ⟨wdef, done, fails, c, hentry, hs⟩ | haside
      · exact (hentry.stretched hs).2
      · rcases haside.quiet with hsame | ⟨ev, houter, hcons⟩
        · unfold World.insertions
          rw [hsame]
        · refine insertions_of_cons hcons fun inst hev => hop ⟨inst, ?_⟩
          rwa [hev] at houter
  unfold rowsOf
  rw [← filter_append]
  refine List.Perm.filter _ ?_
  rw [hhistory]
  refine (hqueue.append_right _).trans ?_
  rw [← Multiset.coe_eq_coe]
  simp only [insertsBy, flatMap_cons, ← Multiset.coe_add]
  abel

/-- The definition an execution was made for. -/
def Defines (w : World σ) (e : Uuid) (wdef : WorkflowDef) : Prop :=
  ∃ x, .opened x ∈ w.history ∧ x.execId = e ∧ w.workflowDefs.find? x.defName = some wdef

/-- The invariant: rows are inserted for instances that were made, one of each node. -/
structure RowsOnce (H : Host σ) (e : Uuid) (s : Config (World σ) Op) : Prop
    extends Listing H e s where
  once : ∀ wdef, Defines s.world e wdef → wdef.refs.Nodup →
    ((s.world.made e).map TaskInstance.nodeRef).Nodup
  rows : (rowsOf e s).Subperm (s.world.made e)

/-- Work on the execution is serial, and it is not restarted. -/
def SpawnsSerially (H : Host σ) (e : Uuid) (s : Config (World σ) Op) :
    Label Call Time → Prop
  | .step => Serial H e s .step ∧ ∀ op ∈ s.queue.head?, op.restarts e = false
  | _ => True

instance (e : Uuid) (s : Config (World σ) Op) : ∀ l, Decidable (SpawnsSerially H e s l)
  | .call _ | .env _ => .isTrue trivial
  | .step => inferInstanceAs (Decidable (_ ∧ _))

/-- A tracked execution is one of the definition it was made for. -/
theorem Tracked.defines (hx : Tracked w x) (hr : Registry w) (hdef : Defines w x.execId wdef) :
    w.workflowDefs.find? x.defName = some wdef := by
  obtain ⟨o, ho, hid, hname⟩ := hx.opened
  obtain ⟨o', ho', hid', hfind⟩ := hdef
  obtain rfl := hr.opened_unique o o' ho ho' (hid.trans hid'.symm)
  rwa [← hname]

/-- The definition of an execution that stands was known before the step. -/
theorem Defines.of_step (h : Defines w' e wdef) (hx : Tracked w x)
    (hxe : x.execId = e) (hext : w.Extends w') (hr : Registry w') : Defines w e wdef := by
  subst hxe
  have hfind := (hx.extends hext).defines hr h
  obtain ⟨o, ho, hid, hname⟩ := hx.opened
  exact ⟨o, ho, hid, by rw [hname, ← hext.workflowDefs]; exact hfind⟩

section

variable (h : RowsOnce H e ⟨w, op :: q⟩)

include h

theorem RowsOnce.once_before (hdef : Defines (op.run H w).1 e wdef) (hnd : wdef.refs.Nodup) :
    ((w.made e).map TaskInstance.nodeRef).Nodup := by
  have hsound := h.single.sound
  have hkept := run_kept hsound.world (hsound.queue op (.head _))
  by_cases hmade : w.made e = []
  · rw [hmade]
    exact nodup_nil
  · -- what was made belongs to an execution that stands already
    obtain ⟨i, hi⟩ := exists_mem_of_ne_nil _ hmade
    obtain ⟨x, hx, -⟩ := h.listed i hi
    obtain ⟨htracked, hxe⟩ := hsound.standing hx
    exact h.once wdef (hdef.of_step htracked hxe hkept.extended hkept.world.registry) hnd

variable (hok : SpawnsSerially H e ⟨w, op :: q⟩ .step)

include hok

/-- A step that makes no instance of the execution. -/
theorem RowsOnce.keep (hmade : (op.run H w).1.made e = w.made e)
    (hnone : (insertsBy (op.run H w).2).filter (fun i => i.workflowExecId = e) = []) :
    RowsOnce H e (op.next H order w q) := by
  have hperm := rowsOf_step (H := H) (e := e) (q := q) order h.single.sound.ready
  rw [hnone, append_nil] at hperm
  have hnext := h.toListing.step hok.1 order
  refine ⟨hnext, fun wdef hdef hnd => ?_, hperm.subperm.trans (hmade.symm ▸ h.rows)⟩
  change (((op.run H w).1.made e).map TaskInstance.nodeRef).Nodup
  rw [hmade]
  exact h.once_before hdef hnd

/-- A step that works on the execution. -/
theorem RowsOnce.work (hentry : Entry w op wdef done c)
    (hs : Stretch H wdef done fails c (op.run H w)) (hce : c.exec.execId = e) :
    RowsOnce H e (op.next H order w q) := by
  obtain ⟨hserial, hrestarts⟩ := hok
  have hsound := h.single.sound
  obtain ⟨-, hc⟩ := hentry.sound hsound.world (hsound.queue op (.head _))
  obtain ⟨c', y, hmoves, hexit⟩ := hs
  obtain ⟨new, hmakes⟩ := hexit.makes hmoves
  obtain ⟨hnext, hstanding⟩ := h.toListing.work hserial hentry hmoves hexit hmakes hce order
  subst hce
  have hself : (op.run H w).1.made c.exec.execId = new ++ w.made c.exec.execId := by
    rw [hmakes.self, hentry.made_self (hrestarts op rfl)]
  refine ⟨hnext, fun wdef' hdef hnd => ?_, ?_⟩
  · -- the stretch runs under the definition of the execution
    obtain ⟨htracked, hye⟩ := hnext.single.sound.standing hstanding
    have hfind := htracked.defines hnext.single.sound.world.registry (hye.symm ▸ hdef)
    have hdefs : (op.run H w).1.workflowDefs = c.world.workflowDefs :=
      ((moves_later hmoves).trans hexit.later).workflowDefs
    have hname : y.defName = c.exec.defName :=
      hexit.version.defName.trans (moves_version hmoves).defName
    rw [hname, hdefs, hc.wdef] at hfind
    cases hfind
    obtain ⟨hnodup, hfresh⟩ := hmakes.once hnd
    change (((op.run H w).1.made c.exec.execId).map TaskInstance.nodeRef).Nodup
    rw [hself, map_append]
    refine nodup_append.2 ⟨hnodup, h.once_before hdef hnd, fun ref href ref' href' heq => ?_⟩
    -- what was made before is listed, so its node has an instance
    obtain ⟨i, hi, rfl⟩ := mem_map.1 href
    obtain ⟨j, hj, rfl⟩ := mem_map.1 href'
    rw [← hentry.made_self (hrestarts op rfl)] at hj
    obtain ⟨k, hk, hid⟩ := mem_map.1 (h.toListing.entry hentry rfl j hj)
    have hreg : Registered c.world j := ⟨j, (mem_made hj).1, rfl, rfl, rfl⟩
    have hsame := (hc.exec.registered k hk).nodeRef_eq hreg hc.world.registry hid
    exact hfresh i hi (mem_map.2 ⟨k, hk, hsame.trans heq.symm⟩)
  · have hperm := rowsOf_step (H := H) (e := c.exec.execId) (q := q) order hsound.ready
    have hrows := hmakes.rows
    rw [insertsBy_of_plain hentry.plain, nil_append] at hrows
    change (rowsOf _ _).Subperm ((op.run H w).1.made c.exec.execId)
    rw [hself]
    refine (hperm.trans perm_append_comm).subperm.trans ?_
    exact (filter_sublist.subperm.trans hrows).append h.rows

theorem RowsOnce.step : RowsOnce H e (op.next H order w q) := by
  rcases run_entry (H := H) h.single.sound.ready with ⟨wdef, done, fails, c, hentry, hs⟩ | haside
  · by_cases hce : c.exec.execId = e
    · exact h.work hok hentry hs hce
    · -- all rows the stretch makes belong to another execution
      refine h.keep hok ((hentry.stretched hs).1 e hce) (filter_eq_nil_iff.2 fun i hi => ?_)
      obtain ⟨c', y, hmoves, hexit⟩ := hs
      obtain ⟨new, hmakes⟩ := hexit.makes hmoves
      have hnew := hmakes.rows.subset hi
      rw [insertsBy_of_plain hentry.plain, nil_append] at hnew
      have hmade : i ∈ (op.run H w).1.made c.exec.execId := hmakes.self ▸ mem_append_left _ hnew
      simpa [(mem_made hmade).2] using hce
  · refine h.keep hok haside.quiet.made ?_
    rw [insertsBy, flatMap_eq_nil_iff.2 haside.inserts]
    rfl

end

theorem RowsOnce.call (h : RowsOnce H e ⟨w, q⟩) (call : Call) :
    RowsOnce H e ⟨w, order.enqueue q (call.issue w.now)⟩ := by
  have hperm : (rowsOf e ⟨w, order.enqueue q (call.issue w.now)⟩).Perm (rowsOf e ⟨w, q⟩) := by
    have hnone : insertsBy (call.issue w.now) = [] := by cases call <;> rfl
    refine List.Perm.filter _ (List.Perm.append_right _ ?_)
    have := (order.enqueue_perm q (call.issue w.now)).flatMap_right Op.inserts
    rwa [flatMap_append, show (call.issue w.now).flatMap Op.inserts = [] from hnone,
      append_nil] at this
  exact ⟨h.toListing.call call, h.once, hperm.subperm.trans h.rows⟩

end Rows

/-- **Rows are inserted once.** In every run from an empty store, of any calls in any
order, in which work on the execution is serial and it is not restarted: if the
references of its definition are distinct, at most one row is inserted for each of its
nodes. -/
theorem inserted_once {order : Order} {s t : Config (World σ) Op} (hs : Config.Initial s)
    (h : (machine H).Run order (SpawnsSerially H e) s t) (hx : t.world.execs.find? e = some x)
    (hdef : t.world.workflowDefs.find? x.defName = some wdef) (hnd : wdef.refs.Nodup) :
    ((t.world.insertions.filter fun inst => inst.workflowExecId = e).map
      TaskInstance.nodeRef).Nodup := by
  have hinit : RowsOnce H e s := by
    have hrows : rowsOf e s = [] := by
      simp [rowsOf, insertsBy, World.insertions, hs.2, hs.1.history]
    have hmade : s.world.made e = [] := by simp [World.made, madeSince, hs.1.history]
    exact ⟨hs.listing, fun _ _ _ => by rw [hmade]; exact nodup_nil, by rw [hrows, hmade]⟩
  have ht : RowsOnce H e t :=
    h.invariant hinit (fun _ _ call hi _ => hi.call call)
      (fun _ _ now hi _ => ⟨hi.toListing.env now, hi.once, hi.rows⟩)
      fun _ _ _ hi hok => hi.step hok
  have hdefines : Defines t.world e wdef := by
    obtain ⟨o, ho, hid, hname⟩ :=
      (ht.single.sound.world.execs x (Keyed.Table.mem_of_find? hx)).opened
    exact ⟨o, ho, hid.trans (Keyed.Table.key_of_find? hx), hname ▸ hdef⟩
  obtain ⟨rows, hperm, hsub⟩ := ht.rows
  have hall : ((rowsOf e t).map TaskInstance.nodeRef).Nodup :=
    (hperm.map _).nodup_iff.1 ((ht.once wdef hdefines hnd).sublist (hsub.map _))
  rw [rowsOf, filter_append, map_append] at hall
  exact (nodup_append.1 hall).2.1

/-- In the run that completes both tasks of the chain one after the other, the two
rows are of different nodes. -/
theorem inserted_once_chain :
    ((machine literalHost).play .fifo chainRun chainStore).world.insertions.map
      TaskInstance.nodeRef = ["B", "A"] ∧
    ((((machine literalHost).play .fifo chainRun chainStore).world.insertions.filter fun inst =>
      inst.workflowExecId = 0).map TaskInstance.nodeRef).Nodup := by
  have hplays : (machine literalHost).Plays .fifo (SpawnsSerially literalHost 0) chainRun
      chainStore := by
    decide +kernel
  have hname : (((machine literalHost).play .fifo chainRun chainStore).world.execs.find? 0).map
      WorkflowExecution.defName = some chainDef.name := by
    decide +kernel
  obtain ⟨x, hx, hname⟩ := Option.map_eq_some_iff.1 hname
  have hdef : ((machine literalHost).play .fifo chainRun chainStore).world.workflowDefs.find?
      x.defName = some chainDef := by
    rw [hname]
    decide +kernel
  exact ⟨by decide +kernel, inserted_once (initial_ofDefinitions _ _ _ _) (.of_plays hplays) hx
    hdef (by decide)⟩

/-- The row of `A` is completed, and `A` is reported twice: by the chain of the result
and by a call of its own that comes in before the first report is taken over. -/
def reportTwice : List (Label Call Time) :=
  .call (.start chainDef.name [] 0) :: steps 8 ++ .call
    (.submitResult "1" .success [] 1) :: steps 2 ++
    .call (.onTaskTerminal "1" 2) :: steps 12

/-- Both chains spawn `B`. -/
theorem spawns_twice : Config.Initial chainStore ∧ chainDef.refs.Nodup ∧
    (((machine literalHost).play .fifo reportTwice chainStore).world.insertions.map
      fun inst => (inst.taskId, inst.nodeRef, inst.workflowExecId)) =
        [(3, "B", 0), (2, "B", 0), (1, "A", 0)] :=
  ⟨initial_ofDefinitions _ _ _ _, by decide, by decide +kernel⟩

end Congelado
