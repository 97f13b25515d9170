import Congelado.Lib.Transition
import Congelado.Contract.SignalTree

/-!
# A group of contracts, called from one thread

A worker carries three flags, and the signal tree a bit for each contract that is ready. Every
operation of `ContractGroup` changes the one and the other separately. They `Agree` if the bits are
those of the contracts that are scheduled and are not being executed.

`solo` has the runs of one thread: the calls it makes one after another, also from within a worker
or a releaser that it is in. Two calls put the flags and the tree apart. `deschedule` clears the bit
and leaves `SCHEDULED` set, since what it adds is `IDLE`, which is zero; and `create` in the state
`RELEASED` sets the bit of a contract that is not `SCHEDULED`. Without these two they agree in every
state (`agree_of_run`). To schedule a contract that is scheduled, and to take out one that is not,
ends in `core::logger::fatal`, which aborts the process: there the run is over.

The guard of a releaser erases a contract and does not give its id back. The group has room for as
many contracts as it can ever create, and not for as many as are live (`capacity_reusable_iff`).
-/

namespace Congelado.Contract

open List Option SignalTree Transition

/-! ### Flags -/

/-- The bits of `ContractState` in a worker. -/
structure Flags where
  scheduled : Bool := false
  executing : Bool := false
  released : Bool := false
  deriving DecidableEq

inductive ContractState
  | idle
  | scheduled
  | executing
  | released
  deriving DecidableEq

def ContractState.flags : ContractState → Flags
  | .idle => {}
  | .scheduled => { scheduled := true }
  | .executing => { executing := true }
  | .released => { released := true }

namespace Flags

/-- What `try_claim_execution` puts in the place of the flags it has seen. -/
def claimed (f : Flags) : Flags := { f with scheduled := false, executing := true }

/-- The contract should be in the tree. -/
def Ready (f : Flags) : Prop := f.scheduled = true ∧ f.executing = false

instance (f : Flags) : Decidable f.Ready := inferInstanceAs (Decidable (_ ∧ _))

end Flags

/-! ### The operations -/

structure Group (n : ℕ) where
  tree : SignalTree n := {}
  /-- The flags of the workers. -/
  workers : Id n → Flags := fun _ => {}

namespace Group

variable {n : ℕ}

def setFlags (id : Id n) (flags : Flags) (g : Group n) : Group n :=
  { g with workers := Function.update g.workers id flags }

variable (f : SignalTree n → SignalTree n)

def onTree (g : Group n) : Group n :=
  { g with tree := f g.tree }

/-- `create`, which throws if the capacity is reached. -/
def create (state : ContractState) (g : Group n) : Option (Group n) :=
  g.tree.freeContractId.map fun (id, tree) =>
    let g := { g with tree }.setFlags id state.flags
    match state with
    | .scheduled | .released => g.onTree (.schedule id)
    | .idle | .executing => g

variable (id : Id n) (g : Group n)

/-- `schedule`, which only sets the flag of a contract that is being executed. A contract that is
scheduled already is fatal. -/
def schedule : Option (Group n) :=
  let prev := g.workers id
  if prev.released then some g
  else if prev.scheduled then none
  else
    let g := g.setFlags id { prev with scheduled := true }
    some (if prev.executing then g else g.onTree (.schedule id))

/-- `deschedule`. To add `IDLE` adds no flag. A contract that is not scheduled is fatal. -/
def deschedule : Option (Group n) :=
  if (g.workers id).released then some g
  else if (g.workers id).scheduled then some (g.onTree (.deschedule id))
  else none

def release : Option (Group n) :=
  let g := g.setFlags id { g.workers id with released := true }
  if (g.workers id).scheduled then some g else g.schedule id

/-- `try_claim_execution` has succeeded, and the contract is taken out of the tree. -/
def claim : Group n :=
  (g.setFlags id (g.workers id).claimed).onTree (.deschedule id)

/-- `~AutoClearExecuteFlag`. -/
def clearExecuting : Group n :=
  let prev := g.workers id
  let g := g.setFlags id { prev with executing := false }
  if prev.scheduled then g.onTree (.schedule id) else g

/-- `~AutoEraseContract`. -/
def erase : Group n := g.setFlags id {}

/-- The flags and the tree agree. -/
def Agree : Prop := ∀ id, g.tree.Has id ↔ (g.workers id).Ready

@[simp] theorem setFlags_workers_self (id : Id n) (flags : Flags) (g : Group n) :
    (g.setFlags id flags).workers id = flags := by
  simp [setFlags]

theorem setFlags_workers_of_ne {id j : Id n} (h : j ≠ id) (flags : Flags) (g : Group n) :
    (g.setFlags id flags).workers j = g.workers j := by
  simp [setFlags, Function.update_of_ne h]

@[simp] theorem onTree_tree (g : Group n) :
    (g.onTree f).tree = f g.tree := rfl

end Group

/-! ### The runs of one thread -/

/-- What a thread is in the middle of, between two calls. -/
inductive Activity (n : ℕ)
  | running (id : Id n)
  | releasing (id : Id n)
  deriving DecidableEq

def Activity.contract {n : ℕ} : Activity n → Id n
  | .running id => id
  | .releasing id => id

/-- A group, and the functions of contracts that the thread is in, the innermost first. -/
structure Solo (n : ℕ) where
  group : Group n := {}
  stack : List (Activity n) := []

namespace Solo

variable {n : ℕ}

/-- `process_next_contract`, up to the call of the worker or of the releaser. -/
def process (bias : BitVec 64) (s : Solo n) : Solo n :=
  match (s.group.tree.next bias).1 with
  | none => s
  | some id =>
    if (s.group.workers id).scheduled then
      { group := s.group.claim id
        stack := (if (s.group.workers id).released then .releasing id else .running id) :: s.stack }
    else s

/-- The function returns or throws, and the guard is destroyed. -/
def leave (s : Solo n) : Option (Solo n) :=
  match s.stack with
  | [] => none
  | .running id :: stack => some { group := s.group.clearExecuting id, stack }
  | .releasing id :: stack => some { group := s.group.erase id, stack }

/-- A call of `process_next_contract` calls a function of the contract. -/
def Starts (bias : BitVec 64) (id : Id n) (s : Solo n) : Prop :=
  ∃ activity, activity.contract = id ∧ (s.process bias).stack = activity :: s.stack

end Solo

inductive SoloLabel (n : ℕ)
  | create (state : ContractState)
  | schedule (id : Id n)
  | deschedule (id : Id n)
  | release (id : Id n)
  | process (bias : BitVec 64)
  | leave

/-- A call for a contract of which the thread has a handle, that is for one that was created. -/
def Solo.on {n : ℕ} (id : Id n) (f : Group n → Option (Group n)) (s : Solo n) : Option (Solo n) :=
  if id < s.group.tree.nextId then (f s.group).map fun group => { s with group } else none

/-- The runs of one thread. -/
def solo (n : ℕ) : System (Solo n) (SoloLabel n) where
  next
    | .create state, s => (s.group.create state).map fun group => { s with group }
    | .schedule id, s => s.on id (·.schedule id)
    | .deschedule id, s => s.on id (·.deschedule id)
    | .release id, s => s.on id (·.release id)
    | .process bias, s => some (s.process bias)
    | .leave, s => s.leave

/-- A contract is not created as released, and `deschedule` is only called for one that is. -/
def Keeps {n : ℕ} (s : Solo n) : SoloLabel n → Prop
  | .create state => state ≠ .released
  | .deschedule id => (s.group.workers id).released = true
  | _ => True

/-! ### The invariant -/

namespace Solo

variable {n : ℕ} {s : Solo n} {id : Id n} {flags : Flags} {activity : Activity n}
    {stack : List (Activity n)} {tree : SignalTree n}

/-- What is kept besides the agreement: the counters are right, ids that were not handed out have no
flags, and the contracts on the stack are marked as being executed, each of them once. -/
structure Coherent (s : Solo n) : Prop where
  agree : s.group.Agree
  counted : s.group.tree.Counted
  fresh : ∀ id : Id n, s.group.tree.nextId ≤ id → s.group.workers id = {}
  busy : ∀ activity ∈ s.stack, (s.group.workers activity.contract).executing = true
  distinct : (s.stack.map Activity.contract).Nodup

section

variable (hs : s.Coherent)

include hs

/-- A step that changes the flags of one contract, and its bit with them. The agreement and the
counters are those of the new bit; the rest is said about the contract alone. -/
theorem Coherent.of_set (hid : id < tree.nextId)
    (hnext : s.group.tree.nextId ≤ tree.nextId)
    (hother : ∀ j, j ≠ id → (tree.Has j ↔ s.group.tree.Has j))
    (hself : tree.Has id ↔ flags.Ready) (hcounted : tree.Counted) (hbusy : ∀ activity ∈ stack,
      if activity.contract = id then flags.executing = true else activity ∈ s.stack)
    (hdistinct : (stack.map Activity.contract).Nodup) :
    Coherent { group := { tree, workers := Function.update s.group.workers id flags }, stack } where
  agree j := by
    by_cases hj : j = id
    · subst hj
      simpa using hself
    · simpa [Function.update_of_ne hj] using (hother j hj).trans (hs.agree j)
  counted := hcounted
  fresh j hj := by
    have hne : j ≠ id := by
      rintro rfl
      exact absurd hj (by simpa using hid)
    change Function.update s.group.workers id flags j = {}
    rw [Function.update_of_ne hne]
    exact hs.fresh j (hnext.trans hj)
  busy activity hmem := by
    have h := hbusy activity hmem
    split at h
    · rename_i heq
      simpa [heq] using h
    · rename_i hne
      simpa [Function.update_of_ne hne] using hs.busy activity h
  distinct := hdistinct

/-- The contracts of the stack are not those of a flag that is not set. -/
theorem Coherent.contract_ne (hid : (s.group.workers id).executing = false)
    (hmem : activity ∈ s.stack) : activity.contract ≠ id := by
  rintro rfl
  rw [hs.busy activity hmem] at hid
  exact Bool.noConfusion hid

theorem Coherent.lt_of_flags
    (h : s.group.workers id ≠ {}) : id < s.group.tree.nextId := by
  by_contra hge
  exact h (hs.fresh id (by omega))

/-- The activities of a stack that is not changed, for flags that are as before. -/
theorem Coherent.busy_or
    (hflags : flags.executing = (s.group.workers id).executing) :
    ∀ activity ∈ s.stack,
      if activity.contract = id then flags.executing = true else activity ∈ s.stack := by
  intro activity hmem
  split
  · rename_i heq
    rw [hflags, ← heq]
    exact hs.busy activity hmem
  · exact hmem

end

theorem Coherent.init : ({} : Solo n).Coherent where
  agree id := iff_of_false (not_has_empty id 0) fun hready => Bool.noConfusion hready.1
  counted := counted_empty 0
  fresh _ _ := rfl
  busy _ hmem := absurd hmem not_mem_nil
  distinct := nodup_nil

theorem Coherent.create (hs : s.Coherent) {state : ContractState}
    (hstate : state ≠ .released) {group : Group n} (h : s.group.create state = some group) :
    Coherent { s with group } := by
  obtain ⟨⟨id, tree⟩, hfree, hgroup⟩ := map_eq_some_iff.1 h
  obtain ⟨hid, rfl⟩ := freeContractId_eq_some hfree
  have hfresh : s.group.workers id = {} := hs.fresh id hid.ge
  have hnot : ¬s.group.tree.Has id := by
    rw [hs.agree id, hfresh]
    exact fun hready => Bool.noConfusion hready.1
  have hbusy : ∀ activity ∈ s.stack,
      if activity.contract = id then state.flags.executing = true else activity ∈ s.stack := by
    intro activity hmem
    rw [if_neg (hs.contract_ne (by rw [hfresh]) hmem)]
    exact hmem
  have hlt : id.val < s.group.tree.nextId + 1 := by omega
  have hcounted : SignalTree.Counted { s.group.tree with nextId := s.group.tree.nextId + 1 } :=
    hs.counted
  cases state with
  | released => exact absurd rfl hstate
  | scheduled =>
    subst hgroup
    refine hs.of_set hlt (Nat.le_succ _) (fun j hj => ?_) ?_
      (hcounted.schedule hnot) hbusy hs.distinct
    · exact (has_schedule _ _ _).trans (or_iff_right hj)
    · exact iff_of_true ((has_schedule _ _ _).2 (.inl rfl)) ⟨rfl, rfl⟩
  | idle | executing =>
    subst hgroup
    exact hs.of_set hlt (Nat.le_succ _) (fun _ _ => Iff.rfl)
      (iff_of_false hnot fun hready => Bool.noConfusion hready.1) hs.counted hbusy hs.distinct

theorem Coherent.schedule (hs : s.Coherent) (hid : id < s.group.tree.nextId) {group : Group n}
    (h : s.group.schedule id = some group) : Coherent { s with group } := by
  unfold Group.schedule at h
  dsimp only at h
  split at h
  · cases h
    exact hs
  · split at h
    · cases h
    · rename_i hscheduled
      cases h
      have hnot : ¬s.group.tree.Has id := fun hhas => hscheduled ((hs.agree id).1 hhas).1
      split
      · -- it is being executed: the tree is left to the guard
        rename_i hexecuting
        refine hs.of_set hid le_rfl (fun _ _ => Iff.rfl) (iff_of_false hnot fun hready => ?_)
          hs.counted (hs.busy_or rfl) hs.distinct
        exact Bool.false_ne_true (hready.2.symm.trans hexecuting)
      · rename_i hexecuting
        refine hs.of_set hid le_rfl (fun j hj => ?_) ?_ (hs.counted.schedule hnot)
          (hs.busy_or rfl) hs.distinct
        · exact (has_schedule _ _ _).trans (or_iff_right hj)
        · refine iff_of_true ((has_schedule _ _ _).2 (.inl rfl)) ⟨rfl, ?_⟩
          exact Bool.eq_false_of_not_eq_true hexecuting

/-- `release` only sets its flag: the call of `schedule` sees it and returns. -/
theorem release_eq (g : Group n) (id : Id n) :
    g.release id = some (g.setFlags id { g.workers id with released := true }) := by
  unfold Group.release Group.schedule
  simp

section

variable (hs : s.Coherent)

include hs

theorem Coherent.release (hid : id < s.group.tree.nextId) {group : Group n}
    (h : s.group.release id = some group) : Coherent { s with group } := by
  rw [release_eq] at h
  cases h
  exact hs.of_set hid le_rfl (fun _ _ => Iff.rfl) (hs.agree id) hs.counted (hs.busy_or rfl)
    hs.distinct

theorem Coherent.claim (hhas : s.group.tree.Has id)
    (hcontract : activity.contract = id) :
    Coherent { group := s.group.claim id, stack := activity :: s.stack } := by
  have hready := (hs.agree id).1 hhas
  have hid : id < s.group.tree.nextId := by
    apply hs.lt_of_flags
    intro hnone
    rw [hnone] at hready
    exact Bool.noConfusion hready.1
  refine hs.of_set hid le_rfl (fun j hj => ?_) ?_ (hs.counted.deschedule hhas) ?_ ?_
  · exact (has_deschedule _ _ _).trans (and_iff_right hj)
  · refine iff_of_false (fun h => ((has_deschedule _ _ _).1 h).1 rfl) ?_
    exact fun h => Bool.noConfusion h.1
  · intro other hmem
    split
    · rfl
    · rename_i hne
      refine (mem_cons.1 hmem).resolve_left ?_
      rintro rfl
      exact hne hcontract
  · rw [map_cons, nodup_cons]
    refine ⟨fun hmem => ?_, hs.distinct⟩
    obtain ⟨other, hother, heq⟩ := mem_map.1 hmem
    exact hs.contract_ne hready.2 hother (heq.trans hcontract)

theorem Coherent.process (bias : BitVec 64) : (s.process bias).Coherent := by
  unfold Solo.process
  split
  · exact hs
  · rename_i id hnext
    split
    · refine hs.claim (has_of_next hnext) ?_
      split <;> rfl
    · exact hs

/-- The contract at the top of the stack is done, with the flags and the tree of its guard. -/
theorem Coherent.pop (hstack : s.stack = activity :: stack)
    (hnext : tree.nextId = s.group.tree.nextId)
    (hother : ∀ j, j ≠ activity.contract → (tree.Has j ↔ s.group.tree.Has j))
    (hself : tree.Has activity.contract ↔ flags.Ready) (hcounted : tree.Counted) :
    Coherent
      { group := { tree, workers := Function.update s.group.workers activity.contract flags }
        stack } := by
  have hdistinct := hs.distinct
  rw [hstack, map_cons, nodup_cons] at hdistinct
  have hid : activity.contract < s.group.tree.nextId := by
    apply hs.lt_of_flags
    intro hnone
    have hbusy := hs.busy activity (by simp [hstack])
    rw [hnone] at hbusy
    exact Bool.noConfusion hbusy
  refine hs.of_set (hnext ▸ hid) hnext.ge hother hself hcounted ?_ hdistinct.2
  intro other hmem
  have hne : other.contract ≠ activity.contract := by
    intro heq
    exact hdistinct.1 (heq ▸ mem_map_of_mem hmem)
  rw [if_neg hne, hstack]
  exact .tail _ hmem

end

theorem Coherent.leave {s t : Solo n} (hs : s.Coherent) (h : s.leave = some t) : t.Coherent := by
  have hnot : ∀ activity ∈ s.stack, ¬s.group.tree.Has activity.contract := by
    intro activity hmem hhas
    have hready := (hs.agree _).1 hhas
    exact Bool.false_ne_true (hready.2.symm.trans (hs.busy activity hmem))
  unfold Solo.leave at h
  split at h
  · simp at h
  · rename_i id stack hstack
    have hid : ¬s.group.tree.Has id := hnot (.running id) (by simp [hstack])
    cases h
    unfold Group.clearExecuting
    dsimp only
    split
    · -- it was scheduled again while it ran
      rename_i hscheduled
      refine hs.pop hstack rfl (fun j hj => ?_) ?_ (hs.counted.schedule hid)
      · exact (has_schedule _ _ _).trans (or_iff_right hj)
      · exact iff_of_true ((has_schedule _ _ _).2 (.inl rfl)) ⟨hscheduled, rfl⟩
    · rename_i hscheduled
      exact hs.pop hstack rfl (fun _ _ => Iff.rfl)
        (iff_of_false hid fun hready => hscheduled hready.1) hs.counted
  · rename_i id stack hstack
    have hid : ¬s.group.tree.Has id := hnot (.releasing id) (by simp [hstack])
    cases h
    exact hs.pop hstack rfl (fun _ _ => Iff.rfl)
      (iff_of_false hid fun hready => Bool.noConfusion hready.1) hs.counted

/-- A call for a contract that was created has returned. -/
theorem on_eq_some {s t : Solo n} {f : Group n → Option (Group n)} (h : s.on id f = some t) :
    id < s.group.tree.nextId ∧ ∃ group, f s.group = some group ∧ t = { s with group } := by
  obtain ⟨hid, hf⟩ := ite_none_right_eq_some.1 h
  obtain ⟨group, hgroup, ht⟩ := map_eq_some_iff.1 hf
  exact ⟨hid, group, hgroup, ht.symm⟩

theorem Coherent.step {s t : Solo n} {l : SoloLabel n} (hs : s.Coherent) (hl : Keeps s l)
    (h : (solo n).next l s = some t) : t.Coherent := by
  cases l with
  | create state =>
    obtain ⟨group, hgroup, rfl⟩ := map_eq_some_iff.1 h
    exact hs.create hl hgroup
  | schedule id =>
    obtain ⟨hid, group, hgroup, rfl⟩ := on_eq_some h
    exact hs.schedule hid hgroup
  | deschedule id =>
    -- a contract that is released is left where it is
    obtain ⟨-, group, hgroup, rfl⟩ := on_eq_some h
    cases (if_pos hl).symm.trans hgroup
    exact hs
  | release id =>
    obtain ⟨hid, group, hgroup, rfl⟩ := on_eq_some h
    exact hs.release hid hgroup
  | process bias =>
    cases h
    exact hs.process bias
  | leave => exact hs.leave h

/-- A contract that is ready makes `process_next_contract` start one that is. -/
theorem Coherent.starts (hs : s.Coherent) (hid : (s.group.workers id).Ready) (bias : BitVec 64) :
    ∃ j, (s.group.workers j).Ready ∧ s.Starts bias j := by
  have hsome := hs.counted.next_isSome ((hs.agree id).2 hid) bias
  obtain ⟨j, hj⟩ := isSome_iff_exists.1 hsome
  have hready := (hs.agree j).1 (has_of_next hj)
  refine ⟨j, hready, if (s.group.workers j).released then .releasing j else .running j, ?_, ?_⟩
  · split <;> rfl
  · simp [Solo.process, hj, hready.1]

end Solo

/-- **The flags and the tree agree.** In every state of a run that creates no contract as released
and calls `deschedule` for released ones only, the bits are those of the contracts that are
scheduled and not being executed. If there is one then the next call of `process_next_contract`
starts one, whatever its bias is. -/
theorem agree_of_run {n : ℕ} {s : Solo n} (h : (solo n).Run Keeps {} s) :
    s.group.Agree ∧ ∀ bias, (∃ id, (s.group.workers id).Ready) →
      ∃ id, (s.group.workers id).Ready ∧ s.Starts bias id := by
  have hs : s.Coherent := h.invariant .init fun _ _ _ ht hl hnext => ht.step hl hnext
  exact ⟨hs.agree, fun bias ⟨id, hid⟩ => hs.starts hid bias⟩

/-- A contract that is scheduled while it runs is in the tree again when its worker has returned. -/
theorem agree_of_run_again :
    ∃ s : Solo 1, (solo 1).Run Keeps {} s ∧ (s.group.workers 0).Ready ∧ s.group.Agree := by
  let labels : List (SoloLabel 1) := [.create .scheduled, .process 0, .schedule 0, .leave]
  obtain ⟨s, hplay, hready⟩ : ∃ s, (solo 1).play labels {} = some s ∧ (s.group.workers 0).Ready :=
    System.exists_of_any (by decide +kernel)
  have hrun : (solo 1).Run Keeps {} s := by
    refine .of_play_of_forall (fun l hl s => ?_) hplay
    simp only [labels, mem_cons, not_mem_nil, or_false] at hl
    obtain rfl | rfl | rfl | rfl := hl <;> simp [Keeps]
  exact ⟨s, hrun, hready, (agree_of_run hrun).1⟩

/-- After `deschedule` the contract is still marked as scheduled. It is not in the tree, nothing is
started, and to schedule it again is fatal. -/
theorem descheduled_not_agree :
    ∃ s : Solo 1, (solo 1).Run System.Any {} s ∧ (s.group.workers 0).Ready ∧
      ¬s.group.tree.Has 0 ∧ (∀ id, ¬s.Starts 0 id) ∧ s.group.schedule 0 = none := by
  obtain ⟨s, hrun, hready, hnot, hstay, hfatal⟩ : ∃ s : Solo 1, (solo 1).Run System.Any {} s ∧
      (s.group.workers 0).Ready ∧ ¬s.group.tree.Has 0 ∧
        (s.process 0).stack.length = s.stack.length ∧ (s.group.schedule 0).isNone :=
    (solo 1).exists_run [.create .scheduled, .deschedule 0] (by decide +kernel)
  refine ⟨s, hrun, hready, hnot, ?_, isNone_iff_eq_none.1 hfatal⟩
  rintro id ⟨activity, -, hstack⟩
  have hlength := congrArg List.length hstack
  rw [hstay] at hlength
  simp at hlength

/-! ### Capacity -/

/-- A group and the contracts that are live: those that were created, until the guard of a releaser
has erased them. -/
structure Holder (n : ℕ) where
  solo : Solo n := {}
  live : List (Id n) := []
  /-- How many contracts were created. -/
  created : ℕ := 0

/-- How many ids a call takes. -/
def SoloLabel.taken {n : ℕ} : SoloLabel n → ℕ
  | .create _ => 1
  | _ => 0

def holder (n : ℕ) : System (Holder n) (SoloLabel n) where
  next l s := ((solo n).next l s.solo).map fun solo =>
    { solo
      live :=
        match l, s.solo.stack with
        | .create _, _ => (s.solo.group.tree.freeContractId.map Prod.fst).toList ++ s.live
        | .leave, .releasing id :: _ => s.live.erase id
        | _, _ => s.live
      created := s.created + l.taken }

variable {n : ℕ}

/-- Only `create` takes an id. -/
theorem nextId_of_next {s t : Solo n} {l : SoloLabel n} (h : (solo n).next l s = some t) :
    t.group.tree.nextId = s.group.tree.nextId + l.taken := by
  cases l with
  | create state =>
    obtain ⟨group, hgroup, rfl⟩ := map_eq_some_iff.1 h
    obtain ⟨⟨id, tree⟩, hfree, rfl⟩ := map_eq_some_iff.1 hgroup
    obtain ⟨-, rfl⟩ := freeContractId_eq_some hfree
    cases state <;> rfl
  | schedule id =>
    obtain ⟨-, group, hgroup, rfl⟩ := Solo.on_eq_some h
    simp only [Group.schedule] at hgroup
    split_ifs at hgroup <;> cases hgroup <;> rfl
  | deschedule id =>
    obtain ⟨-, group, hgroup, rfl⟩ := Solo.on_eq_some h
    simp only [Group.deschedule] at hgroup
    split_ifs at hgroup <;> cases hgroup <;> rfl
  | release id =>
    obtain ⟨-, group, hgroup, rfl⟩ := Solo.on_eq_some h
    cases (Solo.release_eq s.group id).symm.trans hgroup
    rfl
  | process bias =>
    cases h
    unfold Solo.process
    split
    · rfl
    · split_ifs <;> rfl
  | leave =>
    change s.leave = some t at h
    unfold Solo.leave at h
    split at h
    · cases h
    · cases h
      simp only [Group.clearExecuting]
      split_ifs <;> rfl
    · cases h
      rfl

/-- The ids are handed out in turn, so those of the live contracts are below the next one. -/
structure Holder.Numbered (s : Holder n) : Prop where
  created : s.solo.group.tree.nextId = s.created
  below : ∀ id ∈ s.live, id < s.created
  nodup : s.live.Nodup

theorem Holder.Numbered.step {s t : Holder n} {l : SoloLabel n} (hs : s.Numbered)
    (h : (holder n).next l s = some t) : t.Numbered := by
  obtain ⟨solo, hsolo, rfl⟩ := map_eq_some_iff.1 h
  have hnext := nextId_of_next hsolo
  rw [hs.created] at hnext
  split
  · -- the new id is above the others
    obtain ⟨group, hgroup, -⟩ := map_eq_some_iff.1 hsolo
    obtain ⟨⟨id, tree⟩, hfree, -⟩ := map_eq_some_iff.1 hgroup
    have hid : id.val = s.created := (freeContractId_eq_some hfree).1.trans hs.created
    rw [hfree]
    refine ⟨hnext, fun j hj => ?_, nodup_cons.2 ⟨fun hmem => ?_, hs.nodup⟩⟩
    · obtain rfl | hj := mem_cons.1 hj
      · exact hid ▸ Nat.lt_succ_self _
      · exact (hs.below j hj).trans (Nat.lt_succ_self _)
    · exact absurd (hs.below id hmem) (by simp [hid])
  · exact ⟨hnext, fun j hj => hs.below j (mem_of_mem_erase hj), hs.nodup.erase _⟩
  · exact ⟨hnext, fun j hj => (hs.below j hj).trans_le (Nat.le_add_right _ _), hs.nodup⟩

theorem Holder.numbered_of_run {s : Holder n} (h : (holder n).Run System.Any {} s) :
    s.Numbered :=
  h.invariant ⟨rfl, nofun, nodup_nil⟩ fun _ _ _ ht _ hnext => ht.step hnext

theorem Group.create_isSome_iff (state : ContractState) (g : Group n) :
    (g.create state).isSome ↔ g.tree.nextId < 512 * n := by
  unfold Group.create freeContractId
  rw [isSome_map]
  split <;> simp [*]

/-- **Capacity.** No two live contracts share an id. But an id that was handed out is not handed out
again: `create` succeeds whenever there is room exactly as long as fewer contracts were created than
the group has room for, or all of its room is taken. -/
theorem capacity_reusable_iff {s : Holder n} (h : (holder n).Run System.Any {} s) :
    ((∀ state, s.live.length < 512 * n → (s.solo.group.create state).isSome) ∧ s.live.Nodup) ↔
      s.created < 512 * n ∨ s.live.length = 512 * n := by
  have hs := Holder.numbered_of_run h
  have hle : s.live.length ≤ 512 * n := by
    simpa using hs.nodup.length_le_card
  simp only [Group.create_isSome_iff, hs.created, hs.nodup, and_true]
  constructor
  · intro hroom
    by_cases hlt : s.live.length < 512 * n
    · exact .inl (hroom .idle hlt)
    · exact .inr (by omega)
  · rintro (hlt | heq) - hroom
    · exact hlt
    · exact absurd heq hroom.ne

/-- A group with one contract has room for another. -/
theorem capacity_reusable_one : ∃ s : Holder 1, (holder 1).Run System.Any {} s ∧
    s.live = [0] ∧ (s.solo.group.create .scheduled).isSome := by
  obtain ⟨s, hrun, hlive, hcreated⟩ : ∃ s : Holder 1, (holder 1).Run System.Any {} s ∧
      s.live = [0] ∧ s.created < 512 * 1 :=
    (holder 1).exists_run [.create .idle] (by decide +kernel)
  have hroom := ((capacity_reusable_iff hrun).2 (.inl hcreated)).1
  exact ⟨s, hrun, hlive, hroom .scheduled (by simp [hlive])⟩

/-- The first contract is released, and the place that it had is lost. -/
theorem capacity_lost : ∃ s : Holder 1, (holder 1).Run System.Any {} s ∧
    s.live.length = 511 ∧ s.solo.group.create .idle = none := by
  obtain ⟨s, hrun, hlive, hcreate⟩ : ∃ s : Holder 1, (holder 1).Run System.Any {} s ∧
      s.live.length = 511 ∧ (s.solo.group.create .idle).isNone :=
    (holder 1).exists_run ([.create .scheduled, .release 0, .process 0, .leave] ++
      List.replicate 511 (.create .idle)) (by decide +kernel)
  exact ⟨s, hrun, hlive, isNone_iff_eq_none.1 hcreate⟩

end Congelado.Contract
