import Mathlib

/-!
# Callback machines

A store whose operations are answered through callbacks. Running one operation
changes the world once, atomically, and hands its answer to a callback, which
issues further operations; nothing else happens between two operations. The
operations that were issued and not yet run form the queue of a configuration.

The two values of `Order` are the two ways a store drives such code:

* `Order.fifo` queues an operation behind the ones already waiting, so the
  callback chains of several calls interleave;
* `Order.inline` runs an operation, with everything its callback issues, where it
  is issued, so new operations go before the ones already waiting.

A run is a sequence of transitions, each labelled by the external call that is
made, a change of the environment, or one step of the queue. `Machine.Run` takes
the condition its transitions must meet in the configuration they leave, so that
"every run whose steps all meet the condition" is a run at that condition, and
`Sequential` is the condition that a call is made on an empty queue only.
-/

namespace Callback

variable {W O C E : Type}

/-- A store driven by callbacks: `run` is one operation together with its
callback, `issue` is the code of an external call up to its first operations, and
`env` is a change the environment makes. -/
structure Machine (W O C E : Type) where
  run : O → W → W × List O
  issue : C → W → W × List O
  env : E → W → W

/-- Where the operations issued by a callback are put. -/
inductive Order
  | fifo
  | inline
  deriving DecidableEq, Repr

/-- Put newly issued operations into the queue. -/
def Order.enqueue (order : Order) (queue new : List O) : List O :=
  match order with
  | .fifo => queue ++ new
  | .inline => new ++ queue

@[simp] theorem Order.mem_enqueue {order : Order} {queue new : List O} {o : O} :
    o ∈ order.enqueue queue new ↔ o ∈ queue ∨ o ∈ new := by
  cases order
  · exact List.mem_append
  · exact List.mem_append.trans Or.comm

theorem Order.enqueue_perm (order : Order) (queue new : List O) :
    (order.enqueue queue new).Perm (queue ++ new) := by
  cases order
  · exact List.Perm.refl _
  · exact List.perm_append_comm

@[simp] theorem Order.enqueue_nil (order : Order) (queue : List O) :
    order.enqueue queue [] = queue := by
  cases order <;> simp [Order.enqueue]

/-- The world and the operations that are waiting to be run. -/
structure Config (W O : Type) where
  world : W
  queue : List O

/-- What a transition does: an external call is made, the environment changes,
or the operation at the front of the queue is run. -/
inductive Label (C E : Type)
  | call (c : C)
  | env (e : E)
  | step
  deriving DecidableEq, Repr

namespace Machine

variable (m : Machine W O C E) (order : Order)

/-- The configuration a transition leads to. A step of an empty queue stutters. -/
def next : Label C E → Config W O → Config W O
  | .call c, s => ⟨(m.issue c s.world).1, order.enqueue s.queue (m.issue c s.world).2⟩
  | .env e, s => ⟨m.env e s.world, s.queue⟩
  | .step, ⟨w, []⟩ => ⟨w, []⟩
  | .step, ⟨w, o :: queue⟩ => ⟨(m.run o w).1, order.enqueue queue (m.run o w).2⟩

/-- The configurations reached from `s` by transitions each of which meets `ok`
in the configuration it leaves. -/
inductive Run (ok : Config W O → Label C E → Prop) (s : Config W O) : Config W O → Prop
  | refl : Run ok s s
  | tail {t : Config W O} {l : Label C E} : Run ok s t → ok t l → Run ok s (m.next order l t)

variable {m order} {ok ok' : Config W O → Label C E → Prop} {s t u : Config W O}

/-- **Invariant rule.** A property that holds at the start and is kept by every
call, every change of the environment and every operation that meets the
condition holds in every configuration of the run. -/
theorem Run.invariant {I : Config W O → Prop} (h : m.Run order ok s t) (init : I s)
    (call : ∀ w q c, I ⟨w, q⟩ → ok ⟨w, q⟩ (.call c) →
      I ⟨(m.issue c w).1, order.enqueue q (m.issue c w).2⟩)
    (env : ∀ w q e, I ⟨w, q⟩ → ok ⟨w, q⟩ (.env e) → I ⟨m.env e w, q⟩)
    (step : ∀ w o q, I ⟨w, o :: q⟩ → ok ⟨w, o :: q⟩ .step →
      I ⟨(m.run o w).1, order.enqueue q (m.run o w).2⟩) : I t := by
  induction h with
  | refl => exact init
  | @tail t l _ hl ih =>
    obtain ⟨w, q⟩ := t
    cases l with
    | call c => exact call w q c ih hl
    | env e => exact env w q e ih hl
    | step =>
      cases q with
      | nil => exact ih
      | cons o q => exact step w o q ih hl

/-! ### Playing a fixed schedule -/

variable (m order)

/-- The configuration a list of labels leads to. -/
def play (labels : List (Label C E)) (s : Config W O) : Config W O :=
  labels.foldl (fun t l => m.next order l t) s

/-- Every transition of a fixed schedule meets the condition. -/
def Plays (ok : Config W O → Label C E → Prop) : List (Label C E) → Config W O → Prop
  | [], _ => True
  | l :: labels, s => ok s l ∧ Plays ok labels (m.next order l s)

instance Plays.decidable [hok : ∀ s l, Decidable (ok s l)] :
    ∀ labels s, Decidable (Plays m order ok labels s)
  | [], _ => .isTrue trivial
  | l :: labels, s =>
    @instDecidableAnd _ _ (hok s l) (Plays.decidable labels (m.next order l s))

variable {m order}

/-- A fixed schedule whose transitions meet the condition is a run. -/
theorem Run.of_plays {labels : List (Label C E)} {s : Config W O}
    (h : m.Plays order ok labels s) : m.Run order ok s (m.play order labels s) := by
  suffices ∀ t, m.Run order ok t s → m.Run order ok t (m.play order labels s) from
    this s Run.refl
  induction labels generalizing s with
  | nil => exact fun _ ht => ht
  | cons l labels ih => exact fun t ht => ih h.2 t (ht.tail h.1)

end Machine

/-! ### Sequential runs -/

/-- A call is made only when no operation of an earlier call is waiting, so every
call runs to completion before the next one. -/
def Sequential (s : Config W O) : Label C E → Prop
  | .call _ => s.queue = []
  | _ => True

instance (s : Config W O) : ∀ l : Label C E, Decidable (Sequential s l)
  | .call _ => inferInstanceAs (Decidable (s.queue = []))
  | .env _ => .isTrue trivial
  | .step => .isTrue trivial

end Callback
