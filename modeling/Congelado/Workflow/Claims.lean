import Congelado.Workflow.Passes

/-!
# Claims

`OrchestratorStore::claim` looks for the first waiting instance of a worker type,
looks up its task definition and writes the instance back as `IN_PROGRESS`. Between
the first and the last of the three operations the row is still `SCHEDULED`, so a
second claim that looks in between finds the same instance, and both deliver it.

`claims_exclusive` is about the runs in which that does not happen (`ClaimsApart`): a
claim looks for an instance only while no claim under way has found an instance of a
task that it asks for itself. The store is arbitrary, and the claims may ask for
different worker types and domains and overlap otherwise.
-/

namespace Congelado

open Orchestrator Callback List TaskInstance

variable {σ : Type} {H : Host σ} {w : World σ} {op : Op} {inst : TaskInstance} {workerType : String}
    {domain : Option String}

/-! ### Claims under way and claims delivered -/

/-- The part of `claim`'s predicate that is about the task definition: its worker type
and, if one is asked for, its domain. -/
def offered (w : World σ) (workerType : String) (domain : Option String) (defName : String) :
    Bool :=
  (w.taskDefs.find? defName).any fun taskDef =>
    taskDef.workerType = workerType ∧ (domain = none ∨ taskDef.domain = domain)

theorem claimable_iff :
    claimable w workerType domain inst = true ↔
      inst.status = .scheduled ∧ offered w workerType domain inst.defName = true := by
  unfold claimable offered
  exact decide_eq_true_iff

/-- The instance that a claim under way has found. -/
def Op.claims : Op → List TaskInstance
  | .findTaskDef _ (.claim inst _) | .updateInstance inst (.claim _) => [inst]
  | _ => []

/-- The operation belongs to a claim. -/
def Op.ofClaim : Op → Bool
  | .findFirst _ _ _ | .findTaskDef _ (.claim _ _) | .updateInstance _ (.claim _) => true
  | _ => false

/-- The call is a claim. -/
def Call.isClaim : Call → Bool
  | .claim _ _ _ => true
  | _ => false

/-- The instances that were delivered to the callers of `claim`, the last one first. -/
def World.delivered (w : World σ) : List TaskInstance :=
  w.history.filterMap fun
    | .claimed _ inst => inst
    | _ => none

/-- Only claims are made, and a claim looks for an instance only while no other claim
under way has found one that it asks for itself. -/
def ClaimsApart (s : Config (World σ) Op) : Label Call Time → Prop
  | .call call => call.isClaim = true
  | .env _ => True
  | .step =>
    match s.queue with
    | .findFirst workerType domain _ :: queue =>
      ∀ o ∈ queue, ∀ inst ∈ o.claims, offered s.world workerType domain inst.defName = false
    | _ => True

instance (s : Config (World σ) Op) : ∀ l, Decidable (ClaimsApart s l)
  | .call _ => inferInstanceAs (Decidable (_ = true))
  | .env _ => .isTrue trivial
  | .step => by
    unfold ClaimsApart
    dsimp only
    split <;> infer_instance

/-! ### The invariant -/

/-- The ids of the instances found or delivered by claims. -/
def claimedIds (s : Config (World σ) Op) : List Uuid :=
  (s.queue.flatMap Op.claims ++ s.world.delivered).map taskId

/-- Only claims are under way, no instance was found twice, the rows of instances that
were found have the same task, and the rows of those that were delivered wait no more. -/
structure Apart (s : Config (World σ) Op) : Prop where
  ofClaim : ∀ o ∈ s.queue, o.ofClaim = true
  nodup : (claimedIds s).Nodup
  found : ∀ o ∈ s.queue, ∀ inst ∈ o.claims, inst.status = .inProgress ∧
    ∀ row ∈ s.world.instances.rows, row.taskId = inst.taskId → row.defName = inst.defName
  taken : ∀ inst ∈ s.world.delivered, ∀ row ∈ s.world.instances.rows,
    row.taskId = inst.taskId → row.status ≠ .scheduled

section Step

variable {order : Order} {q : List Op} {caller : Caller}

/-- Where the operations of the queue stand does not matter. -/
theorem claimedIds_enqueue (new : List Op) : (claimedIds ⟨w, order.enqueue q new⟩).Perm
      (((q.flatMap Op.claims ++ new.flatMap Op.claims) ++ w.delivered).map
        taskId) := by
  unfold claimedIds
  refine List.Perm.map _ (List.Perm.append_right _ ?_)
  rw [← flatMap_append]
  exact (order.enqueue_perm q new).flatMap_right Op.claims

theorem Apart.call (h : Apart ⟨w, q⟩) {call : Call} (hcall : call.isClaim = true) :
    Apart ⟨w, order.enqueue q (call.issue w.now)⟩ := by
  -- a new claim has found nothing yet
  obtain ⟨workerType, domain, caller, rfl⟩ : ∃ workerType domain caller,
      call = .claim workerType domain caller := by
    cases call <;> first | exact ⟨_, _, _, rfl⟩ | cases hcall
  have hcases : ∀ o ∈ order.enqueue q (Call.issue w.now (.claim workerType domain caller)),
      o ∈ q ∨ o = .findFirst workerType domain caller := fun o ho =>
    (Order.mem_enqueue.1 ho).imp id mem_singleton.1
  refine ⟨fun o ho => ?_, ?_, fun o ho inst hinst => ?_, h.taken⟩
  · rcases hcases o ho with ho | rfl
    · exact h.ofClaim o ho
    · rfl
  · refine (claimedIds_enqueue _).nodup_iff.2 ?_
    have hnone : (Call.issue w.now (.claim workerType domain caller)).flatMap Op.claims = [] := rfl
    rw [hnone, append_nil]
    exact h.nodup
  · rcases hcases o ho with ho | rfl
    · exact h.found o ho inst hinst
    · exact absurd hinst not_mem_nil

section

variable (h : Apart ⟨w, .findFirst workerType domain caller :: q⟩)

include h

section

variable (hok : ∀ o ∈ q, ∀ inst ∈ o.claims, offered w workerType domain inst.defName = false)

include hok

/-- A claim finds an instance that no claim under way has found and none has
delivered. -/
theorem Apart.not_claimed
    (hrow : inst ∈ w.instances.rows) (hclaim : claimable w workerType domain inst = true) :
    inst.taskId ∉ claimedIds ⟨w, q⟩ := by
  obtain ⟨hwaits, hoffered⟩ := claimable_iff.1 hclaim
  intro hmem
  obtain ⟨i, hi, hid⟩ := mem_map.1 hmem
  rcases mem_append.1 hi with hi | hi
  · -- found by a claim under way: it would be of a task this claim asks for
    obtain ⟨o, ho, hi⟩ := mem_flatMap.1 hi
    have hname := (h.found o (.tail _ ho) i hi).2 inst hrow hid.symm
    rw [hname, hok o ho i hi] at hoffered
    cases hoffered
  · -- delivered: it does not wait any more
    exact h.taken i hi inst hrow hid.symm hwaits

/-- The first operation of a claim: it finds an instance, or is answered with nothing. -/
theorem Apart.step_findFirst :
    Apart ⟨(Op.run H (.findFirst workerType domain caller) w).1,
      order.enqueue q (Op.run H (.findFirst workerType domain caller) w).2⟩ := by
  have hrest : ∀ o ∈ q, o.ofClaim = true := fun o ho => h.ofClaim o (.tail _ ho)
  have hfound := fun o ho => h.found o (.tail _ ho)
  rw [Op.run]
  split
  · -- nothing waits
    rw [Order.enqueue_nil]
    exact ⟨hrest, h.nodup, hfound, h.taken⟩
  · next found hfirst =>
    obtain ⟨hrow, hclaim⟩ := mem_filter.1 (firstBySeq_mem hfirst)
    have hnew := h.not_claimed hok hrow hclaim
    refine ⟨fun o ho => ?_, ?_, fun o ho i hi => ?_, h.taken⟩
    · rcases Order.mem_enqueue.1 ho with ho | ho
      · exact hrest o ho
      · exact mem_singleton.1 ho ▸ rfl
    · have hperm : (((q.flatMap Op.claims ++ [{ found with status := .inProgress }]) ++
          w.delivered).map taskId).Perm (found.taskId :: claimedIds ⟨w, q⟩) := by
        unfold claimedIds
        simp only [map_append, map_cons, append_assoc, singleton_append]
        exact perm_middle
      refine (claimedIds_enqueue _).nodup_iff.2 (hperm.nodup_iff.2 ?_)
      exact nodup_cons.2 ⟨hnew, h.nodup⟩
    · rcases Order.mem_enqueue.1 ho with ho | ho
      · exact hfound o ho i hi
      · obtain rfl := mem_singleton.1 ho
        obtain rfl := mem_singleton.1 hi
        refine ⟨rfl, fun row hrow' hid => ?_⟩
        -- ids are unique in the table: the row is the one that was found
        have heq : row = found := by
          have hlookup := Keyed.Table.find?_of_mem hrow'
          rw [hid] at hlookup
          exact Option.some.inj (hlookup.symm.trans (Keyed.Table.find?_of_mem hrow))
        rw [heq]

end

end

/-- An operation that hands the instance of its claim to the next one. -/
theorem Apart.step_hand {next : Op} (h : Apart ⟨w, op :: q⟩) (hnext : next.ofClaim = true)
    (hclaims : next.claims.map taskId = op.claims.map taskId)
    (hsame : ∀ i ∈ next.claims, ∃ i' ∈ op.claims, i'.status = i.status ∧ i'.taskId = i.taskId ∧
      i'.defName = i.defName) : Apart ⟨w, order.enqueue q [next]⟩ := by
  refine ⟨fun o ho => ?_, ?_, fun o ho i hi => ?_, h.taken⟩
  · rcases Order.mem_enqueue.1 ho with ho | ho
    · exact h.ofClaim o (.tail _ ho)
    · exact mem_singleton.1 ho ▸ hnext
  · refine (claimedIds_enqueue _).nodup_iff.2 ?_
    have hnodup := h.nodup
    unfold claimedIds at hnodup
    simp only [flatMap_cons, map_append, flatMap_nil, append_nil] at hnodup ⊢
    rw [hclaims]
    exact (perm_append_comm.append_right _).nodup_iff.2 hnodup
  · rcases Order.mem_enqueue.1 ho with ho | ho
    · exact h.found o (.tail _ ho) i hi
    · obtain rfl := mem_singleton.1 ho
      obtain ⟨i', hi', hstatus, hid, hname⟩ := hsame i hi
      obtain ⟨hprogress, hrow⟩ := h.found op mem_cons_self i' hi'
      refine ⟨hstatus ▸ hprogress, fun row hmem hrowid => ?_⟩
      exact (hrow row hmem (hrowid.trans hid.symm)).trans hname

/-- The last operation of a claim: the row is written, and the instance is delivered. -/
theorem Apart.step_take (h : Apart ⟨w, .updateInstance inst (.claim caller) :: q⟩) :
    Apart ⟨(w.putInstance inst).record (.claimed caller (some inst)), q⟩ := by
  obtain ⟨hprogress, -⟩ := h.found _ mem_cons_self inst (.head _)
  refine ⟨fun o ho => h.ofClaim o (.tail _ ho), ?_, ?_, ?_⟩
  · -- the id moves from the claims under way to those delivered
    have hnodup := h.nodup
    unfold claimedIds at hnodup ⊢
    refine ((List.Perm.map _ ?_).nodup_iff.1 hnodup)
    exact perm_middle.symm
  · intro o ho i hi
    obtain ⟨hstatus, hname⟩ := h.found o (.tail _ ho) i hi
    refine ⟨hstatus, fun row hrow hid => ?_⟩
    rcases Keyed.Table.mem_put_iff.1 hrow with rfl | ⟨hrow, -⟩
    · -- the row just written is of an instance that no other claim has found
      exfalso
      have hnodup := h.nodup
      unfold claimedIds at hnodup
      rw [flatMap_cons, append_assoc, map_append] at hnodup
      refine disjoint_of_nodup_append hnodup (.head _) ?_
      refine mem_map.2 ⟨i, mem_append_left _ ?_, hid.symm⟩
      exact mem_flatMap.2 ⟨o, ho, hi⟩
    · exact hname row hrow hid
  · intro i hi row hrow hid
    rcases Keyed.Table.mem_put_iff.1 hrow with rfl | ⟨hrow, hne⟩
    · rw [hprogress]
      decide
    · rcases mem_cons.1 hi with rfl | hi
      · exact absurd hid hne
      · exact h.taken i hi row hrow hid

/-- **One step.** -/
theorem Apart.step (h : Apart ⟨w, op :: q⟩) (hok : ClaimsApart ⟨w, op :: q⟩ .step) :
    Apart (op.next H order w q) := by
  have hop := h.ofClaim op (.head _)
  unfold Op.ofClaim at hop
  split at hop
  · exact h.step_findFirst hok
  · refine h.step_hand rfl rfl fun i hi => ?_
    obtain rfl := mem_singleton.1 hi
    exact ⟨_, .head _, rfl, rfl, rfl⟩
  · rw [Op.next, Op.run, Order.enqueue_nil]
    exact h.step_take
  · cases hop

end Step

/-- **Claims are exclusive.** From any store content, in every run of any number of
claims in which a claim looks for an instance only while no claim under way has found
one that it asks for itself: no instance is delivered twice. -/
theorem claims_exclusive {order : Order} {s t : Config (World σ) Op} (hqueue : s.queue = [])
    (hhistory : s.world.history = []) (h : (machine H).Run order ClaimsApart s t) :
    (t.world.delivered.map taskId).Nodup := by
  have hinit : Apart s := by
    refine ⟨?_, ?_, ?_, ?_⟩ <;> simp [hqueue, claimedIds, World.delivered, hhistory]
  have ht : Apart t :=
    h.invariant hinit (fun _ _ call hi hok => hi.call hok)
      (fun _ _ now hi _ => ⟨hi.ofClaim, hi.nodup, hi.found, hi.taken⟩)
      fun _ _ _ hi hok => hi.step hok
  have hall := ht.nodup
  rw [claimedIds, map_append] at hall
  exact (nodup_append.1 hall).2.1

/-- One task definition for each of two worker types, and an instance of each waits. -/
def queueStore : Config (World Unit) Op :=
  ⟨{ World.ofDefinitions .empty
      ⟨[{ name := "a", workerType := "red" }, { name := "b", workerType := "blue" }], by decide⟩
      .empty () with
      instances := ⟨[{ taskId := 1, defName := "a", nodeRef := "A", workflowExecId := 0 },
        { taskId := 2, defName := "b", nodeRef := "B", workflowExecId := 0 }], by decide⟩ }, []⟩

/-- Claims of different worker types overlap, and the second claim of one type comes
after the first is over. -/
def claimsOverlap : List (Label Call Time) :=
  .call (.claim "red" none 0) :: .call (.claim "blue" none 1) :: steps 6 ++
    .call (.claim "red" none 2) :: steps 3

theorem claims_exclusive_types :
    ((machine literalHost).play .fifo claimsOverlap queueStore).world.delivered.map
      taskId = [2, 1] ∧
    (((machine literalHost).play .fifo claimsOverlap queueStore).world.delivered.map
      taskId).Nodup := by
  have hplays : (machine literalHost).Plays .fifo ClaimsApart claimsOverlap queueStore := by
    decide +kernel
  exact ⟨by decide +kernel, claims_exclusive rfl rfl (.of_plays hplays)⟩

/-- Two workers of one type claim at the same time. -/
def claimTwice : List (Label Call Time) :=
  .call (.claim "red" none 0) :: .call (.claim "red" none 1) :: steps 6

/-- Both get the same instance. -/
theorem claims_same_instance :
    ((machine literalHost).play .fifo claimTwice queueStore).world.delivered.map
      taskId = [1, 1] := by
  decide +kernel

end Congelado
