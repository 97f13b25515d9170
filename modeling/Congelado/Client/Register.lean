import Congelado.Lib.Transition

/-!
# The responses of a client

`Register::send` ships a request with the runtime client, which opens a stream and hands its id
back, and then stores the callback of the call under that id; `Register::dispatch` takes the
callback of a stream out of `m_pending` and runs it, and drops a response for which there is none.
Calls run on any number of threads while the transport dispatches. The atomic steps are the send of
the transport, the insertion, and a dispatch. A call of `call_engine` waits until its callback has
run.

The id is known only when the request has left, so the response can be there before the callback is.
`responses_kept` says that nothing else goes wrong: if each response comes after the insertion of
its call, every response runs the callback of its call once, and no other one.
-/

namespace Congelado.Client

open Transition

variable {Id Call : Type} [DecidableEq Id] [DecidableEq Call]

/-- The members of a `Register`, where its calls stand, and what the transport has done for it.
Stream ids are only compared. -/
structure Register (Id Call : Type) where
  /-- `m_runtime` has a value. -/
  hasRuntime : Bool := false
  /-- `m_pending`, with the call of each callback. -/
  pending : Id → Option Call := fun _ => none
  /-- The streams of the transport, with the call each one was opened for. -/
  opened : Id → Option Call := fun _ => none
  /-- The streams whose call has made its insertion. Before it, `ASSIGNED` is a local variable. -/
  returned : List Id := []
  /-- The streams whose response was dispatched. -/
  delivered : List Id := []
  /-- The callbacks that were run, with the stream of the response each one was given. -/
  ran : List (Call × Id) := []

/-- The atomic steps. -/
inductive Step (Id Call : Type)
  | setRuntime
  | ship (call : Call) (id : Id)
  | insert (id : Id)
  | dispatch (id : Id)

namespace Register

/-- The first half of `send`, which throws without a runtime. The transport opens a stream that it
has not opened before. -/
def ship (call : Call) (id : Id) (r : Register Id Call) : Option (Register Id Call) :=
  if r.hasRuntime ∧ r.opened id = none then
    some { r with opened := Function.update r.opened id (some call) }
  else none

/-- The second half of `send`: `m_pending[ASSIGNED] = ...`. -/
def insert (id : Id) (r : Register Id Call) : Option (Register Id Call) :=
  if r.opened id = none ∨ id ∈ r.returned then none
  else some { r with
    returned := id :: r.returned
    pending := Function.update r.pending id (r.opened id) }

/-- The response of a stream arrives, once and at any time after the stream was opened. -/
def dispatch (id : Id) (r : Register Id Call) : Option (Register Id Call) :=
  if r.opened id = none ∨ id ∈ r.delivered then none
  else
    match r.pending id with
    | none => some { r with delivered := id :: r.delivered }
    | some call =>
      some { r with
        delivered := id :: r.delivered
        pending := Function.update r.pending id none
        ran := (call, id) :: r.ran }

end Register

/-- A register under every interleaving of its steps. -/
def register (Id Call : Type) [DecidableEq Id] [DecidableEq Call] :
    System (Register Id Call) (Step Id Call) where
  next
    | .setRuntime, r => some { r with hasRuntime := true }
    | .ship call id, r => r.ship call id
    | .insert id, r => r.insert id
    | .dispatch id, r => r.dispatch id

namespace Register

variable {r r' : Register Id Call} {call : Call} {id : Id}

variable (r)

/-- Every response that was delivered has run the callback of the call that opened its stream
exactly once, and no other callback. -/
def Kept : Prop :=
  ∀ id call, r.opened id = some call → id ∈ r.delivered →
    ∀ other, r.ran.count (other, id) = if other = call then 1 else 0

/-- The response of a stream comes after the insertion of its call. -/
def InTime : Step Id Call → Prop
  | .dispatch id => id ∈ r.returned
  | _ => True

variable {r}

instance (r : Register Id Call) : ∀ step : Step Id Call, Decidable (r.InTime step)
  | .dispatch id => inferInstanceAs (Decidable (id ∈ r.returned))
  | .setRuntime | .ship _ _ | .insert _ => .isTrue ⟨⟩

/-- What holds between any two steps if no response comes too early. -/
structure Inv (r : Register Id Call) : Prop where
  opened : ∀ id ∈ r.returned, r.opened id ≠ none
  pending : ∀ id, r.pending id = if id ∈ r.returned ∧ id ∉ r.delivered then r.opened id else none
  delivered : ∀ id ∈ r.delivered, id ∈ r.returned
  ran : ∀ call id, r.ran.count (call, id) =
    if r.opened id = some call ∧ id ∈ r.delivered then 1 else 0

section

variable (h : r.Inv)

include h

theorem Inv.kept : r.Kept := by
  intro id call hopened hid other
  rw [h.ran other id, hopened]
  simp [hid, eq_comm]

theorem Inv.ship (hnext : r.ship call id = some r') : r'.Inv := by
  unfold Register.ship at hnext
  split_ifs at hnext with hfree
  cases hnext
  -- nothing is known of a stream that is not open
  have hother : ∀ i ∈ r.returned, i ≠ id := by
    rintro i hi rfl
    exact h.opened i hi hfree.2
  refine ⟨fun i hi => ?_, fun i => ?_, h.delivered, fun c i => ?_⟩
  · simpa [hother i hi] using h.opened i hi
  · rw [h.pending i]
    refine if_ctx_congr Iff.rfl (fun hi => ?_) fun _ => rfl
    simp [hother i hi.1]
  · rw [h.ran c i]
    refine if_congr (and_congr_left fun hi => ?_) rfl rfl
    simp [hother i (h.delivered i hi)]

theorem Inv.insert (hnext : r.insert id = some r') : r'.Inv := by
  unfold Register.insert at hnext
  split_ifs at hnext with hready
  obtain ⟨hopened, hnew⟩ := not_or.1 hready
  cases hnext
  refine ⟨List.forall_mem_cons.2 ⟨hopened, h.opened⟩, fun i => ?_,
    fun i hi => .tail _ (h.delivered i hi), h.ran⟩
  by_cases hi : i = id
  · have hfirst : id ∉ r.delivered := fun hid => hnew (h.delivered id hid)
    simp [hi, hfirst]
  · simp [hi, h.pending]

theorem Inv.dispatch (hok : id ∈ r.returned)
    (hnext : r.dispatch id = some r') : r'.Inv := by
  unfold Register.dispatch at hnext
  split_ifs at hnext with hready
  obtain ⟨hopened, hnew⟩ := not_or.1 hready
  obtain ⟨call, hcall⟩ := Option.ne_none_iff_exists'.1 hopened
  have hpending : r.pending id = some call := by
    rw [h.pending, if_pos ⟨hok, hnew⟩, hcall]
  rw [hpending] at hnext
  cases hnext
  refine ⟨h.opened, fun i => ?_, List.forall_mem_cons.2 ⟨hok, h.delivered⟩, fun c i => ?_⟩
  · by_cases hi : i = id
    · simp [hi]
    · simp [hi, h.pending]
  · rw [List.count_cons, h.ran]
    by_cases hi : i = id
    · simp [hi, hnew, hcall]
    · simp [hi, Ne.symm hi]

theorem Inv.next {step : Step Id Call} (hok : r.InTime step)
    (hnext : (register Id Call).next step r = some r') : r'.Inv := by
  cases step with
  | setRuntime =>
    cases hnext
    exact ⟨h.opened, h.pending, h.delivered, h.ran⟩
  | ship call id => exact h.ship hnext
  | insert id => exact h.insert hnext
  | dispatch id => exact h.dispatch hok hnext

end

end Register

/-- **Responses are kept.** In every interleaving in which each response comes after the insertion
of its call, every response runs the callback of its call once, and no other callback. -/
theorem responses_kept {r : Register Id Call}
    (hrun : (register Id Call).Run Register.InTime {} r) : r.Kept := by
  refine Register.Inv.kept (hrun.invariant ?_ fun _ _ _ hinv hok hnext => hinv.next hok hnext)
  exact ⟨by simp, by simp, by simp, by simp⟩

/-- Two calls on two threads, whose responses come in the other order. -/
theorem responses_kept_crossed : ∃ r : Register ℕ ℕ,
    (register ℕ ℕ).Run Register.InTime {} r ∧ r.ran = [(0, 1), (1, 3)] ∧ r.Kept := by
  have hplay : (register ℕ ℕ).playIf Register.InTime [.setRuntime, .ship 0 1, .ship 1 3, .insert 3,
    .insert 1, .dispatch 3, .dispatch 1] {} = some _ := rfl
  exact ⟨_, .of_playIf hplay, rfl, responses_kept (.of_playIf hplay)⟩

/-- The response of stream 1 comes between the two halves of its `send`: no callback is run for it,
and the one that is stored afterwards waits for a response that was there already. -/
theorem response_dropped : ∃ r : Register ℕ ℕ, (register ℕ ℕ).Run System.Any {} r ∧ ¬r.Kept ∧
    r.ran = [] ∧ r.pending 1 = some 0 := by
  have hplay : (register ℕ ℕ).play [.setRuntime, .ship 0 1, .dispatch 1, .insert 1] {} = some _ :=
    rfl
  refine ⟨_, .of_play hplay, fun hkept => ?_, rfl, rfl⟩
  have hcount := hkept 1 0 rfl (.head _) 0
  exact absurd hcount (by decide)

end Congelado.Client
