import Congelado.Workflow.Absorbing
import Congelado.Workflow.Exclusive

/-!
# Delivered results

`on_task_terminal` reads the execution of the instance, looks up its definition and
takes the instance over with `sync_instance`; the execution is written at the end of
the chain. A result is lost when another chain that has read the execution before
writes its copy afterwards, when the chain is abandoned on its way, or when the
execution is terminal already. `delivered_results_stay` says that these are the only
ways: if work on the execution is serial, and nobody replaces the entry of the
instance, a delivery that finds the execution live is there when the work is over.

The entry of an instance is followed through the steps: nothing that a stretch does
touches an entry it does not make itself (`moves_shows`), since new instances have new
ids.
-/

namespace Congelado

open Orchestrator Callback List Option

/-- What is reported of an instance: its status and its output. -/
structure Report where
  taskId : Uuid
  status : TaskStatus
  outputData : StringMap
  deriving DecidableEq

def TaskInstance.report (inst : TaskInstance) : Report :=
  ⟨inst.taskId, inst.status, inst.outputData⟩

variable {σ : Type} {H : Host σ} {w : World σ} {op : Op} {wdef : WorkflowDef} {done : Done}
  {fails : Bool} {c c' : Cursor σ} {r : World σ × List Op} {x y : WorkflowExecution} {e : Uuid}
  {inst inst' : TaskInstance} {p : Report}

/-! ### Entries of an execution -/

variable (x)

/-- The entry of an execution with the id of an instance. -/
def WorkflowExecution.entry (id : Uuid) : Option TaskInstance :=
  x.taskInstances.find? fun i => i.taskId = id

/-- The execution shows the report: it is that of the entry of the instance. -/
def Shows (p : Report) : Prop :=
  (x.entry p.taskId).map TaskInstance.report = some p

variable {x}

/-- The instance is another one, or has this report. -/
def Agrees (inst : TaskInstance) (p : Report) : Prop :=
  inst.taskId = p.taskId → inst.report = p

instance (inst : TaskInstance) (p : Report) : Decidable (Agrees inst p) :=
  inferInstanceAs (Decidable (_ → _))

theorem shows_sync_self : Shows (syncInstance x inst) inst.report := by
  have hentry : (syncInstance x inst).entry inst.taskId = some inst := Keyed.find?_put_self
  exact congrArg _ hentry

/-- Taking over another instance keeps an entry, and so does the same report. -/
theorem Shows.sync (h : Shows x p) (hagrees : Agrees inst p) : Shows (syncInstance x inst) p := by
  by_cases hid : inst.taskId = p.taskId
  · rw [← hagrees hid]
    exact shows_sync_self
  · have hentry : (syncInstance x inst).entry p.taskId = x.entry p.taskId :=
      Keyed.find?_put_of_ne (Ne.symm hid)
    rwa [Shows, hentry]

/-- Arming a retry does not change the report. -/
theorem Shows.afterFailure (h : Shows x p) (hagrees : Agrees inst p) (now : Time)
    (retry : RetryPolicy) : Shows (afterFailure now retry inst x).2 p := by
  unfold Orchestrator.afterFailure
  split
  · have harmed : Agrees (armRetry now retry inst) p := hagrees
    exact h.sync harmed
  · have hfailed : Shows { x with status := .failed } p := h
    exact hfailed.sync hagrees

/-- An entry stays when an instance is appended. -/
theorem Shows.spawn (h : Shows c.exec p) (inst : TaskInstance) : Shows (c.spawn inst).exec p := by
  obtain ⟨i, hi, hreport⟩ := map_eq_some_iff.1 h
  refine map_eq_some_iff.2 ⟨i, ?_, hreport⟩
  unfold WorkflowExecution.entry at hi ⊢
  simp [Cursor.spawn, WorkflowExecution.addTaskInstance, find?_append, hi]

theorem moves_shows (h : Moves H wdef c c') (hshows : Shows c.exec p) :
    Shows c'.exec p :=
  moves_rule (P := fun d => Shows d.exec p) h hshows fun d d' hm hd => by
    cases hm with
    | spawn inst new => exact hd.spawn inst
    | complete running done =>
      rwa [maybeComplete_eq running done]
    | _ => exact hd

/-- An instance that is nested in an execution has the report that the execution
shows of it. -/
theorem Shows.agrees_of_mem (h : Shows x p) (hnd : x.taskIds.Nodup)
    (hmem : inst ∈ x.taskInstances) : Agrees inst p := by
  intro hid
  obtain ⟨i, hi, hreport⟩ := map_eq_some_iff.1 h
  have hid' : i.taskId = p.taskId := by simpa using find?_some hi
  obtain rfl : inst = i :=
    inj_on_of_nodup_map hnd hmem (mem_of_find?_eq_some hi) (hid.trans hid'.symm)
  exact hreport

theorem Orchestrator.Exit.shows (h : Exit wdef done fails c r y) (hc : c.Sound H wdef)
    (hold : p.taskId < c.world.fresh) (hshows : Shows c.exec p) : Shows y p := by
  cases h with
  | fail _ inst retry failing =>
    exact hshows.afterFailure (hshows.agrees_of_mem hc.exec.nodup failing.nested) _ _
  | orphan _ inst retry new status =>
    -- the id of a new instance is new
    have hother : Agrees inst p := by
      intro hid
      rw [← hid, new.taskId] at hold
      exact absurd hold (lt_irrefl _)
    exact hshows.afterFailure hother _ _
  | _ => exact hshows

/-! ### Steps -/

theorem Begins.shows (h : Begins w op wdef done x c) (hopen : op.reopens x.execId = false)
    (hhands : ∀ i ∈ op.hands, Agrees i p) (hshows : Shows x p) : Shows c.exec p := by
  cases h with
  | deliver => exact hshows.sync (hhands _ rfl)
  | retry | restart | rerun => simp [Op.reopens] at hopen
  | _ => exact hshows

/-- **A step keeps a result** that the copy it works on shows, if the stretch that takes
the copy over begins with it and no other result of the instance is handed over. -/
theorem Changes.shows_of_begins (h : Changes H w op r x y) (hw : w.Sound) (hop : op.Sound H w)
    (hold : p.taskId < w.fresh)
    (hbegins : ∀ wdef done c, Begins w op wdef done x c → Shows c.exec p)
    (hhands : ∀ i ∈ op.hands, Agrees i p) (hshows : Shows x p) : Shows y p := by
  cases h with
  | same | status | vars => exact hshows
  | sync name inst hop' =>
    subst hop'
    exact hshows.sync (hhands inst rfl)
  | fail inst wdef retry hop' hr =>
    rcases hop' with ⟨name, rfl⟩ | ⟨name, rfl⟩ <;> exact hshows.afterFailure (hhands inst rfl) _ _
  | failNow name inst retry failureWorkflow hop' hr =>
    subst hop'
    have hfailed : Shows { x with status := .failed } p := hshows
    exact hfailed.sync (hhands inst rfl)
  | @stretch _ _ _ _ _ c' begins moves exit =>
    obtain ⟨hext, hc, -⟩ := begins.sound hw hop
    have hold' : p.taskId < c'.world.fresh :=
      hold.trans_le (hext.fresh.trans (moves_later moves).fresh)
    exact exit.shows (moves_sound moves hc) hold' (moves_shows moves (hbegins _ _ _ begins))

/-- A delivery that goes on hands over its result: the execution it holds next shows
it. -/
theorem deliver_shows (hw : w.Sound) {name : String}
    (hop : (Op.findDef name (.onTaskTerminal inst x)).Sound H w)
    (hdef : (w.findDef name (.onTaskTerminal inst x)).isSome) :
    ∃ y ∈ heldBy (Op.run H (.findDef name (.onTaskTerminal inst x)) w).2,
      y.execId = x.execId ∧ Shows y inst.report := by
  obtain ⟨wdef, hfound⟩ := isSome_iff_exists.1 hdef
  rw [Op.run, hfound]
  simp only [DefCallback.found, processTerminal]
  split
  · -- a failure is handled after the lookup of the task definition
    exact ⟨syncInstance x inst, .head _, rfl, shows_sync_self⟩
  · split
    · next hdone =>
      have hbegins : Begins w (.findDef name (.onTaskTerminal inst x)) wdef _ x _ :=
        .deliver hfound hdone
      obtain ⟨-, hc, -⟩ := hbegins.sound hw hop
      obtain ⟨c', y, hmoves, hexit⟩ :=
        advance_stretch H wdef .updateExec (Cursor.start w (syncInstance x inst))
      have hold : inst.taskId < w.fresh :=
        (hop.carried inst (.head _)).lt hw.registry
      have hold' : inst.report.taskId < c'.world.fresh :=
        hold.trans_le (moves_later hmoves).fresh
      refine ⟨y, ?_, ?_, ?_⟩
      · rw [hexit.heldBy (moves_heldBy_ops hmoves rfl)]
        exact .head _
      · exact hexit.version.execId.trans (moves_version hmoves).execId
      · exact hexit.shows (moves_sound hmoves hc) hold' (moves_shows hmoves shows_sync_self)
    · exact ⟨syncInstance x inst, .head _, rfl, shows_sync_self⟩

/-! ### Runs -/

/-- The instance that an operation is about to deliver to its execution. -/
def Op.delivers : Op → Option TaskInstance
  | .findExec _ (.onTaskTerminal inst) => some inst
  | _ => none

/-- A delivery finds the execution, and finds it live, with a definition whose name is
still seen once the execution was moved. -/
def Op.findsLive (H : Host σ) (w : World σ) (e : Uuid) : Op → Bool
  | .findExec key _ => (w.findExec H key).any fun x =>
    x.execId = e ∧ x.status.isTerminal = false ∧ viewed true x.defName = some x.defName
  | _ => false

/-- Work on the execution is serial, it is not reopened, the instances of the reports
are delivered to it while it is live, and no other reports of them are handed to it. -/
def KeepsReports (H : Host σ) (e : Uuid) (reports : List Report) (s : Config (World σ) Op) :
    Label Call Time → Prop
  | .step => Serial H e s .step ∧ ∀ op ∈ s.queue.head?, op.reopens e = false ∧
      ∀ p ∈ reports, (∀ i ∈ op.hands, Agrees i p) ∧
        ∀ i ∈ op.delivers, i.taskId = p.taskId → op.findsLive H s.world e = true
  | _ => True

instance (e : Uuid) (reports : List Report) (s : Config (World σ) Op) :
    ∀ l, Decidable (KeepsReports H e reports s l)
  | .call _ | .env _ => .isTrue trivial
  | .step => inferInstanceAs (Decidable (_ ∧ _))

/-- The result is on its way: about to be delivered, or about to be handed over. -/
def Pending (e : Uuid) (inst : TaskInstance) (op : Op) : Prop :=
  op.delivers = some inst ∨ ∃ name x, op = .findDef name (.onTaskTerminal inst x) ∧
    x.execId = e ∧ viewed true name = some name

/-- The invariant: the result is on its way, or the execution as it stands shows it. -/
structure Delivered (H : Host σ) (e : Uuid) (inst : TaskInstance) (s : Config (World σ) Op) :
    Prop where
  single : Single H e s
  registered : Registered s.world inst
  pending_or_shown : (∃ op ∈ s.queue, Pending e inst op) ∨
    ∃ x, standing e s = some x ∧ Shows x inst.report

section Step

variable {order : Order} {q : List Op}

theorem Delivered.call (h : Delivered H e inst ⟨w, q⟩) (call : Call) :
    Delivered H e inst ⟨w, order.enqueue q (call.issue w.now)⟩ := by
  refine ⟨h.single.call call, h.registered, h.pending_or_shown.imp ?_ ?_⟩
  · exact fun ⟨o, ho, hpending⟩ => ⟨o, Order.mem_enqueue.2 (.inl ho), hpending⟩
  · rw [h.single.standing_call call order]
    exact id

theorem Delivered.env (h : Delivered H e inst ⟨w, q⟩) (now : Time) :
    Delivered H e inst ⟨{ w with now := now }, q⟩ :=
  ⟨h.single.env now, h.registered.extends (extends_now w now), h.pending_or_shown⟩

/-- A delivery that finds its execution live goes on with it. -/
theorem pending_of_delivers (hdel : op.delivers = some inst)
    (hlive : op.findsLive H w e = true) : ∃ o ∈ (op.run H w).2, Pending e inst o := by
  unfold Op.delivers at hdel
  split at hdel
  · next key inst' =>
    obtain rfl := Option.some.inj hdel
    rw [Op.findsLive, Option.any_eq_true] at hlive
    obtain ⟨x, hfind, hx⟩ := hlive
    obtain ⟨hxe, hlive, hname⟩ := of_decide_eq_true hx
    refine ⟨.findDef x.defName (.onTaskTerminal inst' x), ?_, .inr ⟨_, x, rfl, hxe, hname⟩⟩
    rw [Op.run, hfind]
    simp only [ExecCallback.found, hlive, Bool.false_eq_true, if_false]
    exact .head _
  · cases hdel

theorem Delivered.step (h : Delivered H e inst ⟨w, op :: q⟩)
    (hserial : Serial H e ⟨w, op :: q⟩ .step) (hopen : op.reopens e = false)
    (hhands : ∀ i ∈ op.hands, Agrees i inst.report)
    (hlive : ∀ i ∈ op.delivers, i.taskId = inst.taskId → op.findsLive H w e = true) :
    Delivered H e inst (op.next H order w q) := by
  have hsound := h.single.sound
  have hop := hsound.queue op (.head _)
  have hnext : Single H e (op.next H order w q) :=
    h.single.step hserial
  refine ⟨hnext, h.registered.extends (run_kept hsound.world hop).extended, ?_⟩
  rcases h.pending_or_shown with ⟨o, ho, hpending⟩ | ⟨x, hx, hshows⟩
  · rcases mem_cons.1 ho with rfl | ho
    · rcases hpending with hdel | ⟨name, x, rfl, hxe, hname⟩
      · obtain ⟨o', ho', hpending⟩ := pending_of_delivers hdel (hlive inst hdel rfl)
        exact .inl ⟨o', Order.mem_enqueue.2 (.inr ho'), hpending⟩
      · -- the result is handed over in this step
        obtain ⟨wdef, hdef⟩ := (hop.own x rfl).wdef hsound.world.registry
        have hfound : w.findDef name (.onTaskTerminal inst x) = some wdef := by
          rw [World.findDef, DefCallback.moves, hname, hop.shape.1]
          exact hdef
        obtain ⟨y, hy, hyx, hshows⟩ := deliver_shows hsound.world hop (hfound ▸ rfl)
        refine .inr ⟨y, hnext.standing_of_held ?_ (hyx.trans hxe), hshows⟩
        exact mem_heldBy_enqueue.2 (.inr hy)
    · exact .inl ⟨o, Order.mem_enqueue.2 (.inl ho), hpending⟩
  · have houtcome := h.single.outcome hserial order
    rw [hx] at houtcome
    generalize standing e (op.next H order w q) = after at houtcome ⊢
    obtain ⟨-, hxe⟩ := hsound.standing hx
    cases houtcome with
    | same => exact .inr ⟨x, rfl, hshows⟩
    | changed _ y hc =>
      exact .inr ⟨y, rfl, (hc.shows_of_begins hsound.world hop
        (h.registered.lt hsound.world.registry)
        (fun _ _ _ hbegins => hbegins.shows (hxe ▸ hopen) hhands hshows) hhands hshows)⟩
    | born y _ hb hy =>
      exact absurd (hy.symm.trans (Born.execId hb)) (hsound.standing_ne_fresh hx)

end Step

/-- A result on its way stays or arrives, along a run that keeps it. -/
theorem Delivered.run {order : Order} {s t : Config (World σ) Op} {reports : List Report}
    (hs : Delivered H e inst s) (h : (machine H).Run order (KeepsReports H e reports) s t)
    (hinst : inst.report ∈ reports) : Delivered H e inst t :=
  h.invariant (I := Delivered H e inst) hs (fun _ _ call hi _ => hi.call call)
    (fun _ _ now hi _ => hi.env now) fun w op q hi hok => by
      obtain ⟨hserial, hrest⟩ := hok
      obtain ⟨hopen, hkeeps⟩ := hrest op rfl
      obtain ⟨hhands, hlive⟩ := hkeeps inst.report hinst
      exact hi.step hserial hopen hhands hlive

/-- A delivery that waits in the queue. -/
theorem Single.delivered {s : Config (World σ) Op} (h : Single H e s) (hop : op ∈ s.queue)
    (hdel : op.delivers = some inst) : Delivered H e inst s := by
  refine ⟨h, (h.sound.queue op hop).carried inst ?_, .inl ⟨op, hop, .inl hdel⟩⟩
  unfold Op.delivers at hdel
  split at hdel
  · exact Option.some.inj hdel ▸ (.head _)
  · cases hdel

/-- **No result is lost.** Take a run from an empty store, of any calls in any order, and in it two
deliveries, of `i` and of `j`, to the execution. If work on the execution is serial, and from each
delivery on the execution is not reopened, the deliveries find it live and its definition under its
name, and no other report of the two instances is handed to it, then as soon as neither delivery
waits and no operation holds the execution, the stored execution shows both reports. -/
theorem delivered_results_stay {order : Order} {s t u v : Config (World σ) Op}
    {i j : TaskInstance} {op op' : Op} (hs : Config.Initial s)
    (hst : (machine H).Run order (Serial H e) s t) (hop : op ∈ t.queue) (hi : op.delivers = some i)
    (htu : (machine H).Run order (KeepsReports H e [i.report]) t u)
    (hop' : op' ∈ u.queue) (hj : op'.delivers = some j)
    (huv : (machine H).Run order (KeepsReports H e [i.report, j.report]) u v)
    (hover : ∀ o ∈ v.queue, o.delivers ≠ some i ∧ o.delivers ≠ some j ∧
      ∀ x ∈ o.copies, x.execId ≠ e) :
    ∃ x, v.world.execs.find? e = some x ∧ x.taskIds.Nodup ∧ Shows x i.report ∧
      Shows x j.report := by
  have ht : Single H e t :=
    hst.invariant (I := Single H e) hs.single (fun _ _ call hi _ => hi.call call)
      (fun _ _ now hi _ => hi.env now) fun _ _ _ hi hok => hi.step hok
  have hu : Delivered H e i u := (ht.delivered hop hi).run htu (.head _)
  have hvi : Delivered H e i v := hu.run huv (.head _)
  have hvj : Delivered H e j v :=
    (hu.single.delivered hop' hj).run huv (.tail _ (.head _))
  -- nobody holds the execution, so it stands as it is stored
  have hstored : standing e v = v.world.execs.find? e := by
    refine Session.current_of_not_held fun x hx => ?_
    obtain ⟨o, ho, hx⟩ := mem_flatMap.1 hx
    exact (hover o ho).2.2 x hx
  have shown : ∀ k, Delivered H e k v → (∀ o ∈ v.queue, o.delivers ≠ some k) →
      ∃ x, v.world.execs.find? e = some x ∧ Shows x k.report := by
    intro k hk hnot
    rcases hk.pending_or_shown with ⟨o, ho, hdel | ⟨name, x, rfl, hxe, -⟩⟩ | ⟨x, hx, hshows⟩
    · exact absurd hdel (hnot o ho)
    · exact absurd hxe ((hover _ ho).2.2 x (.head _))
    · exact ⟨x, hstored ▸ hx, hshows⟩
  obtain ⟨x, hx, hxi⟩ := shown i hvi fun o ho => (hover o ho).1
  obtain ⟨y, hy, hyj⟩ := shown j hvj fun o ho => (hover o ho).2.1
  rw [hx] at hy
  cases hy
  exact ⟨x, hx, (hvi.single.sound.world.execs x (Keyed.Table.mem_of_find? hx)).nodup, hxi, hyj⟩

/-- The delivery at the front of the queue, by its report. -/
theorem delivery_of_head {s : Config (World σ) Op}
    (h : (s.queue.head?.bind Op.delivers).map TaskInstance.report = some p) :
    ∃ op ∈ s.queue, ∃ i, op.delivers = some i ∧ i.report = p := by
  obtain ⟨i, hi, hreport⟩ := map_eq_some_iff.1 h
  obtain ⟨op, hop, hdel⟩ := bind_eq_some_iff.1 hi
  exact ⟨op, mem_of_mem_head? hop, i, hdel, hreport⟩

/-- The result of `A` is on its way. -/
def firstResult : List (Label Call Time) :=
  .call (.start forkDef.name [] 0) :: steps 12 ++
    .call (.submitResult "1" .success [("k", "a")] 1) :: steps 3

/-- It is taken over, and then the result of `B` is on its way. -/
def secondResult : List (Label Call Time) :=
  steps 9 ++ .call (.submitResult "2" .success [("k", "b")] 2) :: steps 3

theorem delivered_results_stay_fork :
    ∃ x, ((machine literalHost).play .fifo (steps 9) ((machine literalHost).play .fifo secondResult
        ((machine literalHost).play .fifo firstResult forkStore))).world.execs.find? 0 = some x ∧
      x.taskIds.Nodup ∧ Shows x ⟨1, .completed, [("k", "a")]⟩ ∧
      Shows x ⟨2, .completed, [("k", "b")]⟩ := by
  have hfirst : (machine literalHost).Plays .fifo (Serial literalHost 0) firstResult forkStore := by
    decide +kernel
  have hi : (((machine literalHost).play .fifo firstResult forkStore).queue.head?.bind
      Op.delivers).map TaskInstance.report = some ⟨1, .completed, [("k", "a")]⟩ := by
    decide +kernel
  have hsecond : (machine literalHost).Plays .fifo
      (KeepsReports literalHost 0 [⟨1, .completed, [("k", "a")]⟩]) secondResult
      ((machine literalHost).play .fifo firstResult forkStore) := by
    decide +kernel
  have hj : (((machine literalHost).play .fifo secondResult ((machine literalHost).play .fifo
      firstResult forkStore)).queue.head?.bind Op.delivers).map TaskInstance.report =
      some ⟨2, .completed, [("k", "b")]⟩ := by
    decide +kernel
  have hrest : (machine literalHost).Plays .fifo (KeepsReports literalHost 0
      [⟨1, .completed, [("k", "a")]⟩, ⟨2, .completed, [("k", "b")]⟩]) (steps 9)
      ((machine literalHost).play .fifo secondResult
        ((machine literalHost).play .fifo firstResult forkStore)) := by
    decide +kernel
  have hempty : ((machine literalHost).play .fifo (steps 9) ((machine literalHost).play .fifo
      secondResult ((machine literalHost).play .fifo firstResult forkStore))).queue = [] := by
    rw [← List.isEmpty_iff]
    decide +kernel
  obtain ⟨op, hop, i, hdel, hreport⟩ := delivery_of_head hi
  obtain ⟨op', hop', j, hdel', hreport'⟩ := delivery_of_head hj
  rw [← hreport] at hsecond hrest ⊢
  rw [← hreport'] at hrest ⊢
  refine delivered_results_stay (initial_ofDefinitions _ _ _ _) (.of_plays hfirst) hop hdel
    (.of_plays hsecond) hop' hdel' (.of_plays hrest) ?_
  rw [hempty]
  exact fun o ho => absurd ho not_mem_nil

/-- Both results come in before either is taken over. -/
def resultsOverlap : List (Label Call Time) :=
  .call (.start forkDef.name [] 0) :: steps 12 ++
    .call (.submitResult "1" .success [] 1) :: .call (.submitResult "2" .success [] 2) :: steps 24

/-- Both chains are over and both rows are completed, but the execution does not show
the result of `A`. -/
theorem overlapping_result_lost : Config.Initial forkStore ∧
    ((machine literalHost).play .fifo resultsOverlap forkStore).queue.length = 0 ∧
    (((machine literalHost).play .fifo resultsOverlap forkStore).world.instances.rows.map
      fun i => (i.taskId, i.status)) =
        [(1, .completed), (2, .completed), (3, .scheduled), (4, .scheduled)] ∧
    (((machine literalHost).play .fifo resultsOverlap forkStore).world.execs.rows.map
      fun x => x.taskInstances.map fun i => (i.taskId, i.status)) =
        [[(1, .scheduled), (2, .completed), (4, .scheduled)]] :=
  ⟨initial_ofDefinitions _ _ _ _, by decide +kernel, by decide +kernel, by decide +kernel⟩

end Congelado
