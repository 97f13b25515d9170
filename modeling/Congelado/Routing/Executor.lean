import Congelado.Connector.Wake

/-!
# The executor of the router

`RouterExecutor` queues the requests of the transport and runs `match` on them in ticks of a
contract. Its queue, its flag and its wakes are those of the connector (`Connector.Handler`); what
differs is how the middle of a tick can end. What the handlers of a request do is chosen by the
environment: they may call `send`, and then return or throw. A `std::runtime_error`, which is also
how `match` reports a route that it does not find, is answered with a 404 and another `send`;
anything else leaves the tick before its second section, so that `m_executing` stays set. That
`send` itself throws is left out.
-/

namespace Congelado.Routing

open Transition Connector

variable {Request : Type}

/-- How `match` ends. -/
inductive MatchExit
  | returned
  | threwRuntimeError
  | threwOther
  deriving DecidableEq

/-- Who calls the `send` of a request. -/
inductive Sender
  | handler
  | executor
  deriving DecidableEq

/-- The members of a `RouterExecutor` with its ticks, and for every request whose `match` has ended
the calls of its `send`, in their order. -/
structure RouterExecutor (Request : Type) where
  queue : Handler Request := .idle
  sends : List (List Sender) := []

/-- The sections of `enqueue` and of a tick. A tick is done with its `match` after the handlers have
called `send` or not. -/
inductive ExecutorStep (Request : Type)
  | enqueue (request : Request)
  | enter
  | matched (tick : ℕ) (sent : Bool) (exit : MatchExit)
  | leave (tick : ℕ)

namespace RouterExecutor

/-- The rest of a tick up to its second section. -/
def matched (tick : ℕ) (sent : Bool) (exit : MatchExit) (e : RouterExecutor Request) :
    Option (RouterExecutor Request) :=
  let bySender := if sent then [Sender.handler] else []
  match exit with
  | .returned => (e.queue.finish tick).map fun queue => ⟨queue, e.sends ++ [bySender]⟩
  | .threwRuntimeError =>
    -- the 404 path
    (e.queue.finish tick).map fun queue => ⟨queue, e.sends ++ [bySender ++ [.executor]]⟩
  | .threwOther =>
    -- the tick is gone, and nothing else has changed
    if tick < e.queue.operating.length then
      some ⟨{ e.queue with operating := e.queue.operating.eraseIdx tick }, e.sends ++ [bySender]⟩
    else none

variable (e : RouterExecutor Request)

/-- The executor does not send for a request whose handlers have sent. -/
def AnswersOnce : Prop :=
  ∀ senders ∈ e.sends, Sender.handler ∈ senders → Sender.executor ∉ senders

/-- When no tick is due or under way, nothing is queued, and a request that is queued then wakes the
executor. -/
def Serves : Prop :=
  e.queue.AtRest → e.queue.pending = [] ∧ ∀ request, (e.queue.enqueue request).ticks = 1

/-- Handlers throw nothing but runtime errors, and none after they have sent. -/
def Orderly (_ : RouterExecutor Request) : ExecutorStep Request → Prop
  | .matched _ sent exit => exit ≠ .threwOther ∧ (exit = .threwRuntimeError → sent = false)
  | _ => True

instance (e : RouterExecutor Request) : ∀ step : ExecutorStep Request, Decidable (e.Orderly step)
  | .matched _ _ _ => inferInstanceAs (Decidable (_ ∧ _))
  | .enqueue _ | .enter | .leave _ => .isTrue ⟨⟩

end RouterExecutor

/-- An executor under every interleaving of its sections. -/
def routerExecutor (Request : Type) : System (RouterExecutor Request) (ExecutorStep Request) where
  next
    | .enqueue request, e => some { e with queue := e.queue.enqueue request }
    | .enter, e => e.queue.enter.map fun queue => { e with queue }
    | .matched tick sent exit, e => e.matched tick sent exit
    | .leave tick, e => (e.queue.leave tick).map fun queue => { e with queue }

namespace RouterExecutor

variable {e e' : RouterExecutor Request}

theorem serves_of_inv (h : e.queue.Inv) : e.Serves := by
  intro hrest
  have hpending : e.queue.pending = [] := by
    by_contra hne
    have hactive := (h.queued hrest.2.1).1 hne
    rw [hrest.active_eq] at hactive
    cases hactive
  have hexecuting : e.queue.executing = false := by
    simpa [hrest.2.1] using h.executing
  refine ⟨hpending, fun request => ?_⟩
  simp [Handler.enqueue, hpending, hexecuting, hrest.1]

/-- A tick that is not left early is one of a connector. -/
theorem matched_of_orderly {tick : ℕ} {sent : Bool} {exit : MatchExit}
    (hok : e.Orderly (.matched tick sent exit)) (hnext : e.matched tick sent exit = some e')
    (h : e.queue.Inv ∧ e.AnswersOnce) : e'.queue.Inv ∧ e'.AnswersOnce := by
  obtain ⟨hother, hsent⟩ := hok
  cases exit with
  | threwOther => exact absurd rfl hother
  | returned =>
    obtain ⟨queue, hqueue, rfl⟩ := Option.map_eq_some_iff.1 hnext
    refine ⟨h.1.finish hqueue, List.forall_mem_append.2 ⟨h.2, List.forall_mem_singleton.2 ?_⟩⟩
    cases sent <;> simp
  | threwRuntimeError =>
    obtain rfl := hsent rfl
    obtain ⟨queue, hqueue, rfl⟩ := Option.map_eq_some_iff.1 hnext
    refine ⟨h.1.finish hqueue, List.forall_mem_append.2 ⟨h.2, List.forall_mem_singleton.2 ?_⟩⟩
    simp

end RouterExecutor

/-- **The executor keeps serving, and answers once.** In every run in which the handlers throw
nothing but runtime errors, and none after they have sent, the executor never sends for a request
whose handlers have, and at rest it has an empty queue and is woken by the next request. -/
theorem executor_serves {e : RouterExecutor Request}
    (hrun : (routerExecutor Request).Run RouterExecutor.Orderly {} e) :
    e.AnswersOnce ∧ e.Serves := by
  have hinv : e.queue.Inv ∧ e.AnswersOnce := by
    refine hrun.invariant (I := fun e => e.queue.Inv ∧ e.AnswersOnce)
      ⟨Handler.inv_idle, List.forall_mem_nil _⟩ fun e l e' h hok hnext => ?_
    cases l with
    | enqueue request =>
      cases hnext
      exact ⟨h.1.enqueue request, h.2⟩
    | enter =>
      obtain ⟨queue, hqueue, rfl⟩ := Option.map_eq_some_iff.1 hnext
      exact ⟨h.1.enter hqueue, h.2⟩
    | matched tick sent exit => exact RouterExecutor.matched_of_orderly hok hnext h
    | leave tick =>
      obtain ⟨queue, hqueue, rfl⟩ := Option.map_eq_some_iff.1 hnext
      exact ⟨h.1.leave hqueue, h.2⟩
  exact ⟨hinv.2, RouterExecutor.serves_of_inv hinv.1⟩

/-- A request is answered by its handler, and one that is queued meanwhile with a 404. -/
theorem executor_serves_two : ∃ e : RouterExecutor ℕ,
    (routerExecutor ℕ).Run RouterExecutor.Orderly {} e ∧ e.sends = [[.handler], [.executor]] ∧
      e.queue.AtRest ∧ e.AnswersOnce ∧ e.Serves := by
  have hplay : (routerExecutor ℕ).playIf RouterExecutor.Orderly [.enqueue 0, .enter, .enqueue 1,
    .matched 0 true .returned, .leave 0, .enter, .matched 0 false .threwRuntimeError, .leave 0] {} =
      some _ := rfl
  exact ⟨_, .of_playIf hplay, rfl, ⟨rfl, rfl, rfl⟩, executor_serves (.of_playIf hplay)⟩

/-- A handler that throws a runtime error after its answer has the executor answer once more; and
one that throws anything else leaves a request behind, and an executor that no later request
wakes. -/
theorem executor_fails :
    (∃ e : RouterExecutor ℕ, (routerExecutor ℕ).Run System.Any {} e ∧ ¬e.AnswersOnce) ∧
      ∃ e : RouterExecutor ℕ, (routerExecutor ℕ).Run System.Any {} e ∧ e.queue.AtRest ∧
        e.queue.pending = [1] ∧ ∀ request, (e.queue.enqueue request).ticks = 0 := by
  constructor
  · have hplay : (routerExecutor ℕ).play
      [.enqueue 0, .enter, .matched 0 true .threwRuntimeError] {} = some _ := rfl
    refine ⟨_, .of_play hplay, fun honce => ?_⟩
    exact honce _ (.head _) (by decide) (by decide)
  · have hplay : (routerExecutor ℕ).play
      [.enqueue 0, .enter, .enqueue 1, .matched 0 false .threwOther] {} = some _ := rfl
    exact ⟨_, .of_play hplay, ⟨rfl, rfl, rfl⟩, rfl, fun _ => rfl⟩

end Congelado.Routing
