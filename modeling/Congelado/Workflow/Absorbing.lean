import Congelado.Workflow.Passes

/-!
# Terminal statuses

No stretch leaves a terminal status: all moves but the evaluation of Lua need a
running execution, the suspended chains hold running executions, and every callback
that changes a status first looks whether the execution is live
(`Changes.status_of_terminal`). What can undo the end of an execution is a copy that
was read before it. A chain that holds such a copy writes it back, live, after the
terminal status was stored.

So a terminal status is absorbing in the runs that write it only while no other
copy of the execution is held (`EndsAlone`): from then on all copies are read from
the terminal record.
-/

namespace Congelado

open Orchestrator Callback

variable {σ : Type} {H : Host σ} {w : World σ} {op : Op} {wdef : WorkflowDef} {done : Done}
  {fails : Bool} {c c' : Cursor σ} {r : World σ × List Op} {x y : WorkflowExecution} {e : Uuid}

/-! ### Work on a terminal execution -/

theorem Orchestrator.Move.status_of_terminal (h : Move H wdef c c')
    (hterm : c.exec.status.isTerminal = true) : c'.exec.status = c.exec.status := by
  have hnot : c.exec.status ≠ .running := by
    intro hrun
    rw [hrun] at hterm
    cases hterm
  cases h with
  | lua | publish => rfl
  | pass running | vars _ running | complete running | terminate running =>
    exact absurd running hnot
  | spawn inst new => exact absurd new.running hnot

theorem moves_status_of_terminal (h : Moves H wdef c c')
    (hterm : c.exec.status.isTerminal = true) : c'.exec.status = c.exec.status :=
  moves_rule (P := fun d => d.exec.status = c.exec.status) h rfl fun d d' hm hd => by
    rw [← hd] at hterm
    rw [hm.status_of_terminal hterm, hd]

theorem Orchestrator.Exit.status_of_terminal (h : Exit wdef done fails c r y)
    (hterm : c.exec.status.isTerminal = true) : y.status = c.exec.status := by
  have hnot : c.exec.status ≠ .running := by
    intro hrun
    rw [hrun] at hterm
    cases hterm
  -- only `done` is called with an execution that is not running
  cases h with
  | yield => rfl
  | spawn _ _ _ _ _ ready | startWorkflow _ _ _ _ _ ready | subWorkflow _ _ _ _ _ _ ready =>
    exact absurd ready.running hnot
  | fail _ inst retry failing => exact absurd failing.running hnot
  | orphan _ inst retry new status => exact absurd new.running hnot

/-- The operation reopens the execution: `retry`, `restart` or `rerun` goes on with
it. -/
def Op.reopens (e : Uuid) : Op → Bool
  | .findDef _ (.retry x _) | .findDef _ (.restart x _) | .findDef _ (.rerun x _ _ _) =>
    x.execId = e
  | _ => false

/-- A stretch that does not reopen its execution begins with its status. -/
theorem Begins.status (h : Begins w op wdef done x c) (hopen : op.reopens x.execId = false) :
    c.exec.status = x.status := by
  cases h with
  | retry | restart | rerun => simp [Op.reopens] at hopen
  | _ => rfl

/-- **A step keeps a terminal status** of the copies it works on. -/
theorem Changes.status_of_terminal (h : Changes H w op r x y) (hop : op.Sound H w)
    (hopen : op.reopens x.execId = false) (hterm : x.status.isTerminal = true) :
    y.status = x.status := by
  have hlive : x.status.isTerminal ≠ false := by
    rw [hterm]
    decide
  cases h with
  | same => rfl
  | status status live => exact absurd live hlive
  | vars | sync => rfl
  | fail inst wdef retry hop' hr =>
    -- the execution was live when the failed instance was handed to it
    rcases hop' with ⟨name, rfl⟩ | ⟨name, rfl⟩ <;> exact absurd hop.shape.2.1 hlive
  | failNow name inst retry failureWorkflow hop' hr =>
    subst hop'
    exact absurd hop.shape.2.1 hlive
  | @stretch _ _ _ _ c _ begins moves exit =>
    have hstart := begins.status hopen
    have hc : c.exec.status.isTerminal = true := hstart ▸ hterm
    have hmoves := moves_status_of_terminal moves hc
    rw [exit.status_of_terminal (hmoves ▸ hc), hmoves, hstart]

/-! ### Runs -/

/-- A step does not reopen the execution, and it writes a terminal status of the
execution only while no other copy of it is held. -/
def EndsAlone (e : Uuid) (s : Config (World σ) Op) : Label Call Time → Prop
  | .step => ∀ op ∈ s.queue.head?, op.reopens e = false ∧
      ∀ x ∈ op.writes, x.execId = e → x.status.isTerminal = true →
        ∀ y ∈ op.copies.tail ++ heldBy s.queue.tail, y.execId ≠ e
  | _ => True

instance (e : Uuid) (s : Config (World σ) Op) : ∀ l, Decidable (EndsAlone e s l)
  | .call _ | .env _ => .isTrue trivial
  | .step => inferInstanceAs (Decidable (∀ op ∈ s.queue.head?, _ ∧ _))

/-- The invariant: once a terminal status is stored, all copies have it. -/
structure Settled (H : Host σ) (e : Uuid) (s : Config (World σ) Op) : Prop where
  sound : Sound H s
  held : ∀ x, s.world.execs.find? e = some x → x.status.isTerminal = true →
    ∀ y ∈ heldBy s.queue, y.execId = e → y.status = x.status

/-- A stored execution is not new. -/
theorem Sound.stored_ne_fresh {s : Config (World σ) Op} (h : Sound H s)
    (hx : s.world.execs.find? e = some x) : e ≠ s.world.fresh := by
  have hmem := Keyed.Table.mem_of_find? hx
  obtain ⟨o, ho, hid, -⟩ := (h.world.execs x hmem).opened
  have hlt := h.world.registry.opened_lt o ho
  rw [hid, Keyed.Table.key_of_find? hx] at hlt
  exact hlt.ne

section Step

variable {order : Order} {q : List Op}

theorem Settled.call (h : Settled H e ⟨w, q⟩) (call : Call) :
    Settled H e ⟨w, order.enqueue q (call.issue w.now)⟩ := by
  refine ⟨h.sound.call call, fun x hx hterm y hy hye => ?_⟩
  rcases mem_heldBy_enqueue.1 hy with hy | hy
  · exact h.held x hx hterm y hy hye
  · -- the first operations of a call hold nothing
    cases call <;> exact absurd hy List.not_mem_nil

theorem Settled.env (h : Settled H e ⟨w, q⟩) (now : Time) :
    Settled H e ⟨{ w with now := now }, q⟩ :=
  ⟨h.sound.env now, h.held⟩

section

variable (h : Settled H e ⟨w, op :: q⟩)

include h

/-- What a step hands on keeps the stored terminal status, if the step does not
write the execution. -/
theorem Settled.given (hopen : op.reopens e = false)
    (hx : w.execs.find? e = some x) (hterm : x.status.isTerminal = true)
    (hy : y ∈ heldBy (op.run H w).2) (hye : y.execId = e) : y.status = x.status := by
  have hflow : Flows H w op (op.run H w) := run_flow h.sound.ready
  have htaken : ∀ z ∈ op.copies, z.execId = e → z.status = x.status := by
    intro z hz hze
    exact h.held x hx hterm z (List.mem_append_left _ hz) hze
  rcases hflow.mem_given hy with hy | ⟨z, hz, hchange⟩ | hborn
  · exact htaken y hy hye
  · have hze : z.execId = e := (Changes.version hchange).execId.symm.trans hye
    have hstatus : z.status = x.status := by
      rcases hz with hz | hz
      · exact htaken z hz hze
      · -- the copy was read from the store
        rw [hze, hx] at hz
        rw [Option.some.inj hz]
    rw [← hstatus] at hterm ⊢
    exact Changes.status_of_terminal hchange (h.sound.queue op (.head _))
      (hze.symm ▸ hopen) hterm
  · exact absurd (hye.symm.trans (Born.execId hborn)) (h.sound.stored_ne_fresh hx)

/-- All copies still have the stored terminal status after a step. -/
theorem Settled.step (hok : EndsAlone e ⟨w, op :: q⟩ .step) :
    Settled H e (op.next H order w q) := by
  obtain ⟨hopen, halone⟩ := hok op rfl
  refine ⟨h.sound.step, fun x hx hterm y hy hye => ?_⟩
  rcases stored_or_written (H := H) h.sound.ready e with
    hsame | ⟨z, rest, htaken, hwrites, hze, hstored, hgiven⟩
  · rw [hsame] at hx
    rcases mem_heldBy_enqueue.1 hy with hy | hy
    · exact h.held x hx hterm y (List.mem_append_right _ hy) hye
    · exact h.given hopen hx hterm hy hye
  · -- the terminal status was just written, and no other copy is held
    rw [hstored] at hx
    obtain rfl := Option.some.inj hx
    have hnone := halone z hwrites hze hterm
    rw [htaken] at hnone
    rcases mem_heldBy_enqueue.1 hy with hy | hy
    · exact absurd hye (hnone y (List.mem_append_right _ hy))
    · obtain ⟨x', hx', hv⟩ := hgiven y hy
      exact absurd (hv.execId.symm.trans hye) (hnone x' (List.mem_append_left _ hx'))

/-- A step does not change a stored terminal status. -/
theorem Settled.stays (hx : w.execs.find? e = some x) (hterm : x.status.isTerminal = true) :
    ∃ y, (op.run H w).1.execs.find? e = some y ∧ y.status = x.status := by
  rcases stored_or_written (H := H) h.sound.ready e with
    hsame | ⟨z, rest, htaken, -, hze, hstored, -⟩
  · exact ⟨x, hsame ▸ hx, rfl⟩
  · have hz : z ∈ heldBy (op :: q) := by
      rw [heldBy_cons, htaken]
      exact List.mem_append_left _ (.head _)
    exact ⟨z, hstored, h.held x hx hterm z hz hze⟩

end

end Step

/-- **Terminal statuses are absorbing.** In every run from an empty store, of any
calls in any order, that does not reopen the execution and writes its end only while
no other copy of it is held: once a terminal status is stored, it is stored in every
later state of the run. -/
theorem terminal_absorbing {order : Order} {s t u : Config (World σ) Op}
    (hs : Config.Initial s) (hst : (machine H).Run order (EndsAlone e) s t)
    (htu : (machine H).Run order (EndsAlone e) t u) (hx : t.world.execs.find? e = some x)
    (hterm : x.status.isTerminal = true) :
    ∃ y, u.world.execs.find? e = some y ∧ y.status = x.status := by
  have ht : Settled H e t :=
    hst.invariant (I := Settled H e) ⟨hs.sound, by simp [hs.2]⟩ (fun _ _ call hi _ => hi.call call)
      (fun _ _ now hi _ => hi.env now) fun _ _ _ hi hok => hi.step hok
  have hu : Settled H e u ∧ ∃ y, u.world.execs.find? e = some y ∧ y.status = x.status := by
    refine htu.invariant (I := fun v => Settled H e v ∧
      ∃ y, v.world.execs.find? e = some y ∧ y.status = x.status) ⟨ht, x, hx, rfl⟩ ?_ ?_ ?_
    · exact fun _ _ call hi _ => ⟨hi.1.call call, hi.2⟩
    · exact fun _ _ now hi _ => ⟨hi.1.env now, hi.2⟩
    · rintro w op q ⟨hi, y, hy, hstatus⟩ hok
      obtain ⟨z, hz, hzstatus⟩ := hi.stays hy (hstatus.symm ▸ hterm)
      exact ⟨hi.step hok, z, hz, hzstatus.trans hstatus⟩
  exact hu.2

/-- The execution is terminated while `A` is scheduled. -/
def terminatedRun : List (Label Call Time) :=
  .call (.start chainDef.name [] 0) :: steps 6 ++ .call (.terminate "0" 1) :: steps 6

/-- Afterwards the sweeps run, the late result of `A` comes in, and somebody tries to
resume, to reconcile and to terminate. -/
def lateCalls : List (Label Call Time) :=
  [.call .sweepAdvance, .call (.submitResult "1" .success [] 2), .call (.resume "0" 3),
    .call (.reconcile "0" 4), .call (.terminate "0" 5)] ++ steps 12

theorem terminal_absorbing_late :
    ∃ x, ((machine literalHost).play .fifo terminatedRun chainStore).world.execs.find? 0 = some x ∧
      x.status = .terminated ∧
      ∃ y, ((machine literalHost).play .fifo lateCalls
          ((machine literalHost).play .fifo terminatedRun chainStore)).world.execs.find? 0 =
            some y ∧
        y.status = x.status := by
  have hfirst : (machine literalHost).Plays .fifo (EndsAlone 0) terminatedRun chainStore := by
    decide +kernel
  have hlate : (machine literalHost).Plays .fifo (EndsAlone 0) lateCalls
      ((machine literalHost).play .fifo terminatedRun chainStore) := by
    decide +kernel
  have hstatus : (((machine literalHost).play .fifo terminatedRun chainStore).world.execs.find?
      0).map WorkflowExecution.status = some .terminated := by
    decide +kernel
  obtain ⟨x, hx, hterm⟩ := Option.map_eq_some_iff.1 hstatus
  exact ⟨x, hx, hterm, terminal_absorbing (initial_ofDefinitions _ _ _ _) (.of_plays hfirst)
    (.of_plays hlate) hx (by rw [hterm]; rfl)⟩

/-- `sweep_advance` has read the running execution when `terminate` writes its end. -/
def terminateDuringSweep : List (Label Call Time) :=
  .call (.start chainDef.name [] 0) :: steps 6 ++
    .call .sweepAdvance :: .call (.terminate "0" 1) :: steps 4

/-- The sweep then writes its copy: the terminated execution is running again. -/
theorem sweep_undoes_terminate : Config.Initial chainStore ∧
    ((machine literalHost).play .fifo terminateDuringSweep chainStore).world.execs.rows.map
      (fun x => (x.execId, x.status)) = [(0, .terminated)] ∧
    ((machine literalHost).play .fifo (terminateDuringSweep ++ steps 2)
      chainStore).world.execs.rows.map (fun x => (x.execId, x.status)) = [(0, .running)] :=
  ⟨initial_ofDefinitions _ _ _ _, by decide +kernel, by decide +kernel⟩

end Congelado
