import Congelado.Contract.Group

/-!
# A group of contracts, called from many threads

Here every load, `fetch_or`, `fetch_and` and `compare_exchange` on the flags of a worker or on a
word of the signal tree is one step, and the steps of the threads interleave in any way. A `Frame`
is the point before such a step in one call of an operation, with the values that the call has read.
The stack of a thread has more than one frame if a worker or a releaser calls an operation itself.

`Frame.does` says once what a step can do: it reads, or it acts on one contract. `Acts` lists what
it can do to that contract: to the flags, to the bit, to the counter of its branch, and to the part
that the call has in the life of the contract (`Part`). The invariants of the following files are
read off these two.
-/

namespace Congelado.Contract

open Function

/-! ### Frames -/

/-- Why a contract is taken out of the tree. -/
inductive Purpose
  | claimed
  | parked
  deriving DecidableEq

inductive Frame (n : ℕ)
  /-- `next`, before the word of the first router of those that are left. -/
  | nextRouter (order : List (Fin n)) (bias : BitVec 64)
  /-- `select_child_index`, before the first leaf of those that are left. -/
  | nextChild (router : Fin n) (indices : List (Fin 8)) (order : List (Fin n)) (bias : BitVec 64)
  /-- `try_claim_execution`. -/
  | claimLoad (id : Id n)
  | claimTest (id : Id n) (current : Flags)
  | claimExchange (id : Id n) (current : Flags)
  /-- `SignalTree::deschedule`. -/
  | clearBit (id : Id n) (purpose : Purpose)
  | lowerLoad (id : Id n) (purpose : Purpose)
  | lowerExchange (id : Id n) (purpose : Purpose) (expected : BitVec 64)
  /-- `process_next_contract`, after the contract was claimed. -/
  | checkReleased (id : Id n)
  | running (id : Id n)
  | clearExecuting (id : Id n)
  | releasing (id : Id n)
  | erase (id : Id n)
  /-- `SignalTree::schedule`. -/
  | raiseLoad (id : Id n)
  | raiseExchange (id : Id n) (expected : BitVec 64)
  | setBit (id : Id n)
  /-- `schedule`. -/
  | scheduleReleased (id : Id n)
  | scheduleScheduled (id : Id n)
  | scheduleMark (id : Id n)
  /-- `deschedule`. -/
  | descheduleReleased (id : Id n)
  | descheduleScheduled (id : Id n)
  | markIdle (id : Id n)
  /-- `release`. -/
  | releaseMark (id : Id n)
  | releaseTest (id : Id n)
  deriving DecidableEq

namespace Group

variable {n : ℕ} (id : Id n)

/-- The word of the router of an id. -/
def word (g : Group n) : BitVec 64 := (g.tree.routers id.router).value

def setWord (value : BitVec 64) (g : Group n) : Group n :=
  g.onTree fun tree => { tree with
    routers := update tree.routers id.router { tree.routers id.router with value } }

/-- The bit of an id is changed in its leaf. -/
def onLeaf (f : BitVec 64 → BitVec 64) (g : Group n) : Group n :=
  g.onTree fun tree => { tree with
    routers := update tree.routers id.router { tree.routers id.router with
      children := update (tree.routers id.router).children id.branch
        (f ((tree.routers id.router).children id.branch)) } }

end Group

namespace Frame

variable {n : ℕ} (id : Id n)

/-- What follows `SignalTree::deschedule`. -/
def afterDeschedule : Purpose → Frame n
  | .claimed => .checkReleased id
  | .parked => .markIdle id

/-- The loop that lowers a counter, with the value it has seen. -/
def lowering (purpose : Purpose) (value : BitVec 64) : Frame n :=
  if counter id.branch value = 0 then afterDeschedule id purpose
  else .lowerExchange id purpose value

/-- The loop that raises a counter, with the value it has seen. -/
def raising (value : BitVec 64) : Frame n :=
  if 64 ≤ (counter id.branch value).toNat then .setBit id else .raiseExchange id value

/-- One step of a call, and where the call stands then; nowhere if it has returned. A weak
`compare_exchange` may also fail if `exchange` is false. -/
def step (exchange : Bool) : Frame n → Group n → Group n × Option (Frame n)
  | .nextRouter [] _, g => (g, none)
  | .nextRouter (r :: order) bias, g =>
    let value := (g.tree.routers r).value
    if value = 0 then (g, some (.nextRouter order bias))
    else
      let (idx, bias) := calculateBias 2 value bias (biasFlag >>> 1) 0
      (g, some (.nextChild r (branchesFrom value idx) order bias))
  | .nextChild _ [] order bias, g => (g, some (.nextRouter order bias))
  | .nextChild r (i :: indices) order bias, g =>
    let value := (g.tree.routers r).children i
    if value = 0 then (g, some (.nextChild r indices order bias))
    else (g, some (.claimLoad (.of r i (selectBit bias value).1)))
  | .claimLoad id, g => (g, some (.claimTest id (g.workers id)))
  | .claimTest id current, g =>
    (g, if (g.workers id).scheduled then some (.claimExchange id current) else none)
  | .claimExchange id current, g =>
    if exchange ∧ g.workers id = current then
      (g.setFlags id current.claimed, some (.clearBit id .claimed))
    else (g, some (.claimTest id (g.workers id)))
  | .clearBit id purpose, g =>
    (g.onLeaf id (Contract.clearBit id.bit), some (.lowerLoad id purpose))
  | .lowerLoad id purpose, g => (g, some (lowering id purpose (g.word id)))
  | .lowerExchange id purpose expected, g =>
    if exchange ∧ g.word id = expected then
      (g.setWord id (lower id.branch expected), some (afterDeschedule id purpose))
    else (g, some (lowering id purpose (g.word id)))
  | .checkReleased id, g =>
    (g, some (if (g.workers id).released then .releasing id else .running id))
  | .running id, g => (g, some (.clearExecuting id))
  | .clearExecuting id, g =>
    (g.setFlags id { g.workers id with executing := false },
      if (g.workers id).scheduled then some (.raiseLoad id) else none)
  | .releasing id, g => (g, some (.erase id))
  | .erase id, g => (g.setFlags id {}, none)
  | .raiseLoad id, g => (g, some (raising id (g.word id)))
  | .raiseExchange id expected, g =>
    if exchange ∧ g.word id = expected then
      (g.setWord id (raise id.branch expected), some (.setBit id))
    else (g, some (raising id (g.word id)))
  | .setBit id, g => (g.onLeaf id (Contract.setBit id.bit), none)
  | .scheduleReleased id, g =>
    (g, if (g.workers id).released then none else some (.scheduleScheduled id))
  | .scheduleScheduled id, g => (g, some (.scheduleMark id))
  | .scheduleMark id, g =>
    (g.setFlags id { g.workers id with scheduled := true },
      if (g.workers id).scheduled ∨ (g.workers id).executing then none else some (.raiseLoad id))
  | .descheduleReleased id, g =>
    (g, if (g.workers id).released then none else some (.descheduleScheduled id))
  | .descheduleScheduled id, g => (g, some (.clearBit id .parked))
  | .markIdle _, g => (g, none)
  | .releaseMark id, g =>
    (g.setFlags id { g.workers id with released := true }, some (.releaseTest id))
  | .releaseTest id, g =>
    (g, if (g.workers id).scheduled then none else some (.scheduleReleased id))

/-- The call ends in `core::logger::fatal`, which aborts the process: to schedule a contract that is
scheduled, and to take out one that is not. -/
def aborts (g : Group n) : Frame n → Bool
  | .scheduleScheduled id => (g.workers id).scheduled
  | .descheduleScheduled id => !(g.workers id).scheduled
  | _ => false

/-- The contract for which `release` sets its flag. -/
def asks : Frame n → Option (Id n)
  | .releaseMark id => some id
  | _ => none

/-- The contract whose releaser has run. -/
def frees : Frame n → Option (Id n)
  | .releasing id => some id
  | _ => none

/-- The worker or the releaser of a contract is being executed, so that it may call. -/
def isOpen : Frame n → Bool
  | .running _ => true
  | .releasing _ => true
  | _ => false

end Frame

/-! ### The pool -/

inductive Operation (n : ℕ)
  | process (bias : BitVec 64)
  | schedule (id : Id n)
  | deschedule (id : Id n)
  | release (id : Id n)

def Operation.enter {n : ℕ} : Operation n → Frame n
  | .process bias => .nextRouter (SignalTree.routerOrder n bias) bias
  | .schedule id => .scheduleReleased id
  | .deschedule id => .descheduleReleased id
  | .release id => .releaseMark id

/-- The threads that share a group. What was asked and done for the contracts is noted, and no step
looks at it. -/
structure Pool (n k : ℕ) where
  group : Group n
  threads : Fin k → List (Frame n) := fun _ => []
  /-- The contracts for which `release` has set its flag. -/
  asked : List (Id n) := []
  /-- The contracts whose releasers have run. -/
  freed : List (Id n) := []

inductive Act (n : ℕ)
  | call (operation : Operation n)
  | go (exchange : Bool)

structure Turn (n k : ℕ) where
  thread : Fin k
  act : Act n

namespace Pool

variable {n k : ℕ} (τ : Fin k)

def setThread (frames : List (Frame n)) (s : Pool n k) : Pool n k :=
  { s with threads := update s.threads τ frames }

/-- A call is made by a thread that is idle, or from within a function of a contract. -/
def call (operation : Operation n) (s : Pool n k) : Option (Pool n k) :=
  if (s.threads τ).head?.all Frame.isOpen then
    some (s.setThread τ (operation.enter :: s.threads τ))
  else none

/-- The step of a frame, with the calls that the thread goes on with after it. -/
def advance (exchange : Bool) (frame : Frame n) (rest : List (Frame n)) (s : Pool n k) : Pool n k :=
  let (group, frame') := frame.step exchange s.group
  { group
    threads := update s.threads τ (frame'.toList ++ rest)
    asked := frame.asks.toList ++ s.asked
    freed := frame.frees.toList ++ s.freed }

def go (exchange : Bool) (s : Pool n k) : Option (Pool n k) :=
  match s.threads τ with
  | [] => none
  | frame :: rest =>
    if frame.aborts s.group then none else some (s.advance τ exchange frame rest)

end Pool

/-- The interleavings of the threads. -/
def pool (n k : ℕ) : Transition.System (Pool n k) (Turn n k) where
  next turn s :=
    match turn.act with
    | .call operation => s.call turn.thread operation
    | .go exchange => s.go turn.thread exchange

/-! ### What a step does -/

/-- The part that a call has in the life of a contract. -/
inductive Part
  /-- It has claimed the contract, and its bit is still set. -/
  | taking
  /-- It has cleared the bit, and is going to lower the counter. -/
  | lowering
  /-- It is going to look whether the contract is released. -/
  | entering
  /-- It runs the worker, or is about to clear `EXECUTING` after that. -/
  | working
  /-- It runs the releaser. -/
  | freeing
  | erasing
  /-- It is going to raise the counter, and to set the bit after that. -/
  | raising
  | filing
  deriving DecidableEq

namespace Frame

variable {n : ℕ}

def role : Frame n → Option (Id n × Part)
  | .clearBit id .claimed => some (id, .taking)
  | .lowerLoad id .claimed | .lowerExchange id .claimed _ => some (id, .lowering)
  | .checkReleased id => some (id, .entering)
  | .running id | .clearExecuting id => some (id, .working)
  | .releasing id => some (id, .freeing)
  | .erase id => some (id, .erasing)
  | .raiseLoad id | .raiseExchange id _ => some (id, .raising)
  | .setBit id => some (id, .filing)
  | _ => none

/-- The contract that a call has found in the tree and is going to claim. -/
def holds : Frame n → Option (Id n)
  | .claimLoad id | .claimTest id _ | .claimExchange id _ => some id
  | _ => none

/-- The call takes a contract out of the tree to park it. -/
def parks : Frame n → Bool
  | .clearBit _ .parked | .lowerLoad _ .parked | .lowerExchange _ .parked _ => true
  | _ => false

/-- A claim that goes on has seen the contract scheduled. -/
def Sees (g : Group n) : Frame n → Prop
  | .claimTest id current => (g.workers id).scheduled = true → current.scheduled = true
  | .claimExchange _ current => current.scheduled = true
  | _ => True

end Frame

/-- The word of a router is not changed. -/
def keep (_ : Fin 8) (value : BitVec 64) : BitVec 64 := value

/-- What a step does to a contract: to the part of the call, to the flags, to the bit and to the
word of the router. Whether the call has found the contract in the tree, and whether it is the one
that marks it as scheduled, is said by `held` and `marks`. -/
inductive Acts (held marks : Prop) : Option Part → Flags → Bool → Option Part → Flags → Bool →
    (Fin 8 → BitVec 64 → BitVec 64) → Prop
  | claims {f : Flags} (b : Bool) (h : held) (hf : f.scheduled = true) :
    Acts held marks none f b (some .taking) f.claimed b keep
  | unfiles (f : Flags) (b : Bool) :
    Acts held marks (some .taking) f b (some .lowering) f false keep
  | lowers (f : Flags) (b : Bool) :
    Acts held marks (some .lowering) f b (some .entering) f b lower
  | starts {f : Flags} (b : Bool) (hf : f.released = false) :
    Acts held marks (some .entering) f b (some .working) f b keep
  | frees {f : Flags} (b : Bool) (hf : f.released = true) :
    Acts held marks (some .entering) f b (some .freeing) f b keep
  | finishes (f : Flags) (b : Bool) : Acts held marks (some .working) f b
      (if f.scheduled then some .raising else none) { f with executing := false } b keep
  | freed (f : Flags) (b : Bool) :
    Acts held marks (some .freeing) f b (some .erasing) f b keep
  | erases (f : Flags) (b : Bool) : Acts held marks (some .erasing) f b none {} b keep
  | raises (f : Flags) (b : Bool) : Acts held marks (some .raising) f b (some .filing) f b raise
  | files (f : Flags) (b : Bool) : Acts held marks (some .filing) f b none f true keep
  | marks (f : Flags) (b : Bool) (h : marks) : Acts held marks none f b
      (if f.scheduled ∨ f.executing then none else some .raising) { f with scheduled := true } b
      keep
  | asks (f : Flags) (b : Bool) :
    Acts held marks none f b none { f with released := true } b keep

section Does

variable {n : ℕ} {g g' : Group n} {frame : Frame n} {frame' : Option (Frame n)}

namespace Group

/-- The words of the routers. -/
def words (g : Group n) (r : Fin n) : BitVec 64 := (g.tree.routers r).value

/-- The bit of a contract. -/
def bit (g : Group n) (id : Id n) : Bool := decide (g.tree.Has id)

end Group

/-- What the step of a frame can do. -/
inductive Does (g : Group n) (frame : Frame n) (g' : Group n) (frame' : Option (Frame n)) : Prop
  /-- It reads. What it finds in the tree is there. -/
  | idles (group : g' = g) (role : frame'.bind Frame.role = frame.role)
      (holds : ∀ id, frame'.bind Frame.holds = some id → frame.holds = some id ∨ g.tree.Has id)
      (sees : ∀ f ∈ frame', f.Sees g) (asks : frame.asks = none) (frees : frame.frees = none)
  /-- It acts on one contract. -/
  | acts (id : Id n) {p p' : Option Part} {shift : Fin 8 → BitVec 64 → BitVec 64}
      (act : Acts (frame.holds = some id) (frame = .scheduleMark id) p (g.workers id) (g.bit id)
        p' (g'.workers id) (g'.bit id) shift)
      (role : frame.role = p.map (id, ·)) (role' : frame'.bind Frame.role = p'.map (id, ·))
      (holds : frame'.bind Frame.holds = none)
      (others : ∀ j ≠ id, g'.workers j = g.workers j ∧ g'.bit j = g.bit j)
      (words : g'.words = update g.words id.router (shift id.branch (g.word id)))

namespace Group

@[simp] theorem words_setWord (id : Id n) (value : BitVec 64) (g : Group n) :
    (g.setWord id value).words = update g.words id.router value := by
  funext r
  by_cases hr : r = id.router
  · subst hr
    simp [words, setWord]
  · simp [words, setWord, update_of_ne hr]

@[simp] theorem words_onLeaf (id : Id n) (f : BitVec 64 → BitVec 64) (g : Group n) :
    (g.onLeaf id f).words = g.words := by
  funext r
  by_cases hr : r = id.router
  · subst hr
    simp [words, onLeaf]
  · simp [words, onLeaf, update_of_ne hr]

variable (id j : Id n)

@[simp] theorem has_setWord (value : BitVec 64) (g : Group n) :
    (g.setWord id value).tree.Has j ↔ g.tree.Has j := by
  by_cases hr : j.router = id.router
  · simp [SignalTree.Has, setWord, hr]
  · simp [SignalTree.Has, setWord, update_of_ne hr]

/-- The bits of the leaf are those of a call of `SignalTree::deschedule`. -/
theorem has_onLeaf_clearBit (g : Group n) :
    (g.onLeaf id (clearBit id.bit)).tree.Has j ↔ j ≠ id ∧ g.tree.Has j := by
  have hword := has_setWord id j (lower id.branch (g.word id)) (g.onLeaf id (clearBit id.bit))
  rw [← hword, ← SignalTree.has_deschedule]
  simp [SignalTree.Has, setWord, onLeaf, word, onTree, SignalTree.deschedule, Router.deschedule]

theorem has_onLeaf_setBit (g : Group n) :
    (g.onLeaf id (setBit id.bit)).tree.Has j ↔ j = id ∨ g.tree.Has j := by
  have hword := has_setWord id j (raise id.branch (g.word id)) (g.onLeaf id (setBit id.bit))
  rw [← hword, ← SignalTree.has_schedule]
  simp [SignalTree.Has, setWord, onLeaf, word, onTree, SignalTree.schedule, Router.schedule]

end Group

/-- A step that reads, and holds nothing after that. -/
theorem Does.reads (role : frame'.bind Frame.role = frame.role)
    (holds : frame'.bind Frame.holds = none) (asks : frame.asks = none)
    (frees : frame.frees = none) : Does g frame g frame' := by
  refine .idles rfl role (fun _ h => absurd (holds.symm.trans h) nofun) (fun f hf => ?_) asks frees
  obtain rfl : frame' = some f := hf
  cases f <;> trivial

section

variable {id : Id n} {p p' : Option Part} (role : frame.role = p.map (id, ·))
    (role' : frame'.bind Frame.role = p'.map (id, ·)) (holds : frame'.bind Frame.holds = none)

include role role' holds

/-- A step that changes the flags of a contract. -/
theorem Does.of_flags {flags : Flags}
    (act : Acts (frame.holds = some id) (frame = .scheduleMark id) p (g.workers id) (g.bit id)
      p' flags (g.bit id) keep) : Does g frame (g.setFlags id flags) frame' := by
  refine .acts id (?_ : Acts _ _ p _ _ p' _ _ keep) role role' holds
    (fun j hj => ⟨Group.setFlags_workers_of_ne hj _ _, rfl⟩)
    (update_eq_self id.router g.words).symm
  rw [Group.setFlags_workers_self]
  exact act

/-- A step that changes a word of the tree. -/
theorem Does.of_tree {shift : Fin 8 → BitVec 64 → BitVec 64} {b : Bool}
    (act : Acts (frame.holds = some id) (frame = .scheduleMark id) p (g.workers id) (g.bit id)
      p' (g.workers id) b shift)
    (workers : g'.workers = g.workers) (self : g'.bit id = b)
    (others : ∀ j ≠ id, (g'.tree.Has j ↔ g.tree.Has j))
    (words : g'.words = update g.words id.router (shift id.branch (g.word id))) :
    Does g frame g' frame' := by
  refine .acts id ?_ role role' holds (fun j hj => ⟨congrFun workers j, ?_⟩) words
  · rw [workers, self]
    exact act
  · exact decide_eq_decide.2 (others j hj)

/-- A step after which the call has another part. -/
theorem Does.passes (act : Acts (frame.holds = some id) (frame = .scheduleMark id) p (g.workers id)
      (g.bit id) p' (g.workers id) (g.bit id) keep) : Does g frame g frame' :=
  .of_tree role role' holds act rfl rfl (fun _ _ => Iff.rfl)
    (update_eq_self id.router g.words).symm

end

namespace Frame

variable (id : Id n) (g : Group n)

/-- The loop that lowers the counter goes on, or the counter is zero and stays. -/
theorem does_lowering (hrole : frame.role = some (id, .lowering)) (hasks : frame.asks = none)
    (hfrees : frame.frees = none) : Does g frame g (some (lowering id .claimed (g.word id))) := by
  unfold lowering
  split
  · rename_i h0
    refine .of_tree (p := some .lowering) hrole rfl rfl (.lowers ..) rfl rfl (fun _ _ => Iff.rfl) ?_
    rw [lower, if_pos h0]
    exact (update_eq_self id.router g.words).symm
  · exact .reads hrole.symm rfl hasks hfrees

theorem does_raising (hrole : frame.role = some (id, .raising)) (hasks : frame.asks = none)
    (hfrees : frame.frees = none) : Does g frame g (some (raising id (g.word id))) := by
  unfold raising
  split
  · rename_i hfull
    refine .of_tree (p := some .raising) hrole rfl rfl (.raises ..) rfl rfl (fun _ _ => Iff.rfl) ?_
    rw [raise, if_pos hfull]
    exact (update_eq_self id.router g.words).symm
  · exact .reads hrole.symm rfl hasks hfrees

/-- **What a step can do.** -/
theorem does (frame : Frame n) (hparks : frame.parks = false) (exchange : Bool)
    (hsees : frame.Sees g) : Does g frame (frame.step exchange g).1 (frame.step exchange g).2 := by
  cases frame with
  | nextRouter order bias =>
    cases order with
    | nil => exact .reads rfl rfl rfl rfl
    | cons r order =>
      dsimp only [step]
      split <;> exact .reads rfl rfl rfl rfl
  | nextChild r indices order bias =>
    cases indices with
    | nil => exact .reads rfl rfl rfl rfl
    | cons i indices =>
      dsimp only [step]
      split
      · exact .reads rfl rfl rfl rfl
      · -- the bit that is chosen is set
        rename_i hne
        refine .idles rfl rfl (fun id hid => .inr ?_) (by simp [Sees]) rfl rfl
        obtain rfl : Id.of r i (selectBit bias ((g.tree.routers r).children i)).1 = id :=
          Option.some.inj hid
        simpa [SignalTree.Has] using selectBit_mem bias hne
  | claimLoad id => exact .idles rfl rfl (fun _ h => .inl h) (by simp [step, Sees]) rfl rfl
  | claimTest id current =>
    dsimp only [step]
    split
    · rename_i h
      refine .idles rfl rfl (fun _ h => .inl h) (fun f hf => ?_) rfl rfl
      cases hf
      exact hsees h
    · exact .reads rfl rfl rfl rfl
  | claimExchange id current =>
    dsimp only [step]
    split
    · rename_i h
      obtain ⟨-, rfl⟩ := h
      exact .of_flags rfl rfl rfl (.claims _ rfl hsees)
    · exact .idles rfl rfl (fun _ h => .inl h) (by simp [Sees]) rfl rfl
  | clearBit id purpose =>
    cases purpose with
    | parked => cases hparks
    | claimed =>
      have hbits := fun j => Group.has_onLeaf_clearBit id j g
      refine .of_tree rfl rfl rfl (.unfiles ..) rfl (by simp [Group.bit, step, hbits])
        (fun j hj => (hbits j).trans (and_iff_right hj)) ?_
      exact (Group.words_onLeaf ..).trans (update_eq_self id.router g.words).symm
  | lowerLoad id purpose =>
    cases purpose with
    | parked => cases hparks
    | claimed => exact does_lowering id g rfl rfl rfl
  | lowerExchange id purpose expected =>
    cases purpose with
    | parked => cases hparks
    | claimed =>
      dsimp only [step]
      split
      · rename_i h
        obtain ⟨-, rfl⟩ := h
        have hbits := fun j => Group.has_setWord id j (lower id.branch (g.word id)) g
        exact .of_tree rfl rfl rfl (.lowers ..) rfl (decide_eq_decide.2 (hbits id))
          (fun j _ => hbits j) (Group.words_setWord ..)
      · exact does_lowering id g rfl rfl rfl
  | checkReleased id =>
    dsimp only [step]
    split
    · rename_i h
      exact .passes rfl rfl rfl (.frees _ h)
    · rename_i h
      exact .passes rfl rfl rfl (.starts _ (Bool.eq_false_of_not_eq_true h))
  | clearExecuting id =>
    refine .of_flags rfl ?_ ?_ (.finishes ..) <;> dsimp only [step] <;> split <;> rfl
  | releasing id => exact .passes rfl rfl rfl (.freed ..)
  | erase id => exact .of_flags rfl rfl rfl (.erases ..)
  | raiseLoad id => exact does_raising id g rfl rfl rfl
  | raiseExchange id expected =>
    dsimp only [step]
    split
    · rename_i h
      obtain ⟨-, rfl⟩ := h
      have hbits := fun j => Group.has_setWord id j (raise id.branch (g.word id)) g
      exact .of_tree rfl rfl rfl (.raises ..) rfl (decide_eq_decide.2 (hbits id))
        (fun j _ => hbits j) (Group.words_setWord ..)
    · exact does_raising id g rfl rfl rfl
  | setBit id =>
    have hbits := fun j => Group.has_onLeaf_setBit id j g
    refine .of_tree rfl rfl rfl (.files ..) rfl (by simp [Group.bit, step, hbits])
      (fun j hj => (hbits j).trans (or_iff_right hj)) ?_
    exact (Group.words_onLeaf ..).trans (update_eq_self id.router g.words).symm
  | scheduleMark id =>
    refine .of_flags rfl ?_ ?_ (.marks _ _ rfl) <;> dsimp only [step] <;> split <;> rfl
  | releaseMark id => exact .of_flags rfl rfl rfl (.asks ..)
  | running | scheduleScheduled | descheduleScheduled | markIdle => exact .reads rfl rfl rfl rfl
  | scheduleReleased | descheduleReleased | releaseTest =>
    refine .reads ?_ ?_ rfl rfl <;> dsimp only [step] <;> split <;> rfl

end Frame

end Does

end Congelado.Contract
