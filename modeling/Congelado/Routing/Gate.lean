import Congelado.Lib.Chain
import Congelado.Routing.Table

/-!
# Middleware as a gate

What runs when a request is matched. Each middleware is handed a continuation `next`; what it
does with it depends on the request and the response, which are the state `S` here, and is left
open (`Chain.Behaviour`). Global middleware comes first, and one that does not call `next` ends
the request. The middleware of a node runs as a chain when the walk comes to the node, and the
handler runs at the end: `match` does not look at whether a chain was passed.

A trace is `Gated` if nothing runs behind a middleware of a node that never called `next`.
Within one node this is always so; `Gate` is the exact condition for the whole request.
-/

namespace Congelado.Routing

open Chain List

variable {H M S : Type} {mark : Mark}

/-- What is recorded of a request: marks of the global middleware, marks of the middleware of
the nodes on the path, counted from the root, and the handler. -/
inductive Event (H : Type)
  | global (mark : Mark)
  | node (depth : ℕ) (mark : Mark)
  | handled (fn : H)
  deriving DecidableEq

/-- The loop over the global middleware, whose `next` only sets `proceed`: whether all of them
called it. -/
def runGlobals (behave : M → S → Behaviour S) : ℕ → List M → S → Bool × S × List Mark
  | _, [], s => (true, s, [])
  | index, m :: rest, s =>
    let first := (behave m s).exec (fun s => (s, [])) index
    if (behave m s).calls id = [] then (false, first.1, .entered index :: first.2)
    else
      let result := runGlobals behave (index + 1) rest first.1
      (result.1, result.2.1, .entered index :: (first.2 ++ result.2.2))

/-- The chains of the nodes on the path, `Middleware::execute` for each of them. -/
def runChains (behave : M → S → Behaviour S) : ℕ → List (List M) → S → S × List (Event H)
  | _, [], s => (s, [])
  | depth, chain :: chains, s =>
    let first := run behave 0 chain s
    let rest := runChains behave (depth + 1) chains first.1
    (rest.1, first.2.map (.node depth) ++ rest.2)

/-- `match` with its effects. -/
def RouteHandler.serve (handler : RouteHandler H M) (globals : List M)
    (behave : M → S → Behaviour S) (invoke : H → S → S) (method : Method) (path : Text) (s : S) :
    S × List (Event H) :=
  let (proceed, s, marks) := runGlobals behave 0 globals s
  if proceed then
    let outcome := handler.matchRequest method path
    let (s, trace) := runChains behave 0 outcome.chains s
    match outcome.result with
    | .ok fn => (invoke fn s, marks.map .global ++ (trace ++ [.handled fn]))
    | .error _ => (s, marks.map .global ++ trace)
  else (s, marks.map .global)

/-- Behind a middleware of a node that was run and never called `next`, nothing runs: no later
one of the same node, none of a deeper node, and no handler. -/
def Gated (trace : List (Event H)) : Prop :=
  ∀ depth j, .node depth (.entered j) ∈ trace → .node depth (.continued j) ∉ trace →
    (∀ k, j < k → .node depth (.entered k) ∉ trace) ∧
    (∀ depth', depth < depth' → ∀ k, .node depth' (.entered k) ∉ trace) ∧
    ∀ fn, .handled fn ∉ trace

/-- Every chain on the path is passed, or it is the last one and no handler is found. -/
def Gate (behave : M → S → Behaviour S) (found : Option H) : List (List M) → S → Prop
  | [], _ => True
  | chain :: chains, s =>
    (¬Passes behave 0 chain s → chains.flatten = [] ∧ found = none) ∧
      Gate behave found chains (run behave 0 chain s).1

section Chains

variable {behave : M → S → Behaviour S} {depth d : ℕ} {chain : List M} {chains : List (List M)}
    {s : S}

theorem node_mem_runChains_cons :
    (.node d mark : Event H) ∈ (runChains behave depth (chain :: chains) s).2 ↔
      (d = depth ∧ mark ∈ (run behave 0 chain s).2) ∨
        .node d mark ∈
          (runChains (H := H) behave (depth + 1) chains (run behave 0 chain s).1).2 := by
  rw [runChains, mem_append, mem_map]
  refine or_congr_left ⟨?_, ?_⟩
  · rintro ⟨mark', hmark, heq⟩
    cases heq
    exact ⟨rfl, hmark⟩
  · rintro ⟨rfl, hmark⟩
    exact ⟨mark, hmark, rfl⟩

theorem le_of_node_mem (h : (.node d mark : Event H) ∈ (runChains behave depth chains s).2) :
    depth ≤ d := by
  induction chains generalizing depth s with
  | nil => cases h
  | cons chain chains ih =>
    obtain ⟨rfl, -⟩ | h := node_mem_runChains_cons.1 h
    · exact le_rfl
    · exact (Nat.le_succ _).trans (ih h)

/-- The trace of the chains is about their nodes only. -/
theorem node_of_mem_runChains {e : Event H} (h : e ∈ (runChains behave depth chains s).2) :
    ∃ d mark, e = .node d mark := by
  induction chains generalizing depth s with
  | nil => cases h
  | cons chain chains ih =>
    rw [runChains, mem_append, mem_map] at h
    obtain ⟨mark, -, rfl⟩ | h := h
    · exact ⟨depth, mark, rfl⟩
    · exact ih h

theorem entered_of_flatten_ne_nil (h : chains.flatten ≠ []) :
    ∃ d, depth ≤ d ∧ (.node d (.entered 0) : Event H) ∈ (runChains behave depth chains s).2 := by
  induction chains generalizing depth s with
  | nil => exact absurd rfl h
  | cons chain chains ih =>
    by_cases hchain : chain = []
    · obtain ⟨d, hle, hd⟩ := ih (by simpa [hchain] using h)
      exact ⟨d, (Nat.le_succ _).trans hle, node_mem_runChains_cons.mpr (.inr hd)⟩
    · exact ⟨depth, le_rfl, node_mem_runChains_cons.2 (.inl ⟨rfl, entered_mem_run hchain⟩)⟩

theorem not_mem_of_flatten_eq_nil (h : chains.flatten = []) :
    (.node d mark : Event H) ∉ (runChains behave depth chains s).2 := by
  induction chains generalizing depth s with
  | nil => exact not_mem_nil
  | cons chain chains ih =>
    obtain ⟨rfl, hrest⟩ := append_eq_nil_iff.1 h
    rw [node_mem_runChains_cons]
    rintro (⟨-, hmark⟩ | hmark)
    · cases hmark
    · exact ih hrest hmark

/-- Within a node, a middleware runs only if all before it have called `next`. -/
theorem continued_of_entered_node {j k : ℕ} (hjk : j < k)
    (h : (.node d (.entered k) : Event H) ∈ (runChains behave depth chains s).2) :
    (.node d (.continued j) : Event H) ∈ (runChains behave depth chains s).2 := by
  induction chains generalizing depth s with
  | nil => cases h
  | cons chain chains ih =>
    obtain ⟨rfl, hk⟩ | hk := node_mem_runChains_cons.1 h
    · exact node_mem_runChains_cons.mpr (.inl ⟨rfl, continued_of_entered hk (Nat.zero_le j) hjk⟩)
    · exact node_mem_runChains_cons.2 (.inr (ih hk))

/-- The condition says that nothing is behind a middleware that never called `next`. -/
theorem gate_iff {found : Option H} :
    Gate behave found chains s ↔
      ∀ d j, (.node d (.entered j) : Event H) ∈ (runChains behave depth chains s).2 →
        (.node d (.continued j) : Event H) ∉ (runChains behave depth chains s).2 →
        (∀ d', d < d' → ∀ k,
          (.node d' (.entered k) : Event H) ∉ (runChains behave depth chains s).2) ∧
            found = none := by
  induction chains generalizing depth s with
  | nil => exact ⟨fun _ d j h => (nomatch h), fun _ => trivial⟩
  | cons chain chains ih =>
    rw [Gate, @ih (depth + 1)]
    constructor
    · rintro ⟨hpass, hrest⟩ d j hentered hcontinued
      obtain ⟨rfl, hj⟩ | hj := node_mem_runChains_cons.1 hentered
      · -- the chain of this node is not passed, so it is the last one
        have hnot : ¬Passes behave 0 chain s := by
          intro hpasses
          obtain ⟨hle, hlt⟩ := index_mem_run hj
          exact hcontinued (node_mem_runChains_cons.2 (.inl ⟨rfl, hpasses.continued hle hlt⟩))
        obtain ⟨hnil, hfound⟩ := hpass hnot
        refine ⟨fun d' hd' k hk => ?_, hfound⟩
        obtain ⟨rfl, -⟩ | hk := node_mem_runChains_cons.1 hk
        · omega
        · exact not_mem_of_flatten_eq_nil hnil hk
      · obtain ⟨hdeeper, hfound⟩ := hrest d j hj fun h =>
          hcontinued (node_mem_runChains_cons.2 (.inr h))
        refine ⟨fun d' hd' k hk => ?_, hfound⟩
        obtain ⟨rfl, -⟩ | hk := node_mem_runChains_cons.1 hk
        · have := le_of_node_mem hj
          omega
        · exact hdeeper d' hd' k hk
    · intro h
      refine ⟨fun hnot => ?_, fun d j hj hcontinued => ?_⟩
      · obtain ⟨k, hentered, hcontinued⟩ := exists_stuck hnot
        obtain ⟨hdeeper, hfound⟩ := h depth k (node_mem_runChains_cons.2 (.inl ⟨rfl, hentered⟩))
          fun hk => by
            obtain ⟨-, hk⟩ | hk := node_mem_runChains_cons.1 hk
            · exact hcontinued hk
            · have := le_of_node_mem hk
              omega
        refine ⟨not_not.1 fun hne => ?_, hfound⟩
        obtain ⟨d, hle, hd⟩ : ∃ d, depth + 1 ≤ d ∧ (.node d (.entered 0) : Event H) ∈
            (runChains behave (depth + 1) chains (run behave 0 chain s).1).2 :=
          entered_of_flatten_ne_nil hne
        exact hdeeper d hle 0 (node_mem_runChains_cons.2 (.inr hd))
      · have hle := le_of_node_mem hj
        obtain ⟨hdeeper, hfound⟩ := h d j (node_mem_runChains_cons.2 (.inr hj)) fun hk => by
          obtain ⟨rfl, -⟩ | hk := node_mem_runChains_cons.1 hk
          · omega
          · exact hcontinued hk
        exact ⟨fun d' hd' k hk => hdeeper d' hd' k (node_mem_runChains_cons.2 (.inr hk)), hfound⟩

end Chains

section Globals

variable {behave : M → S → Behaviour S} {globals : List M} {s : S} {index : ℕ}

/-- A global middleware that calls `next` is marked so, and nothing else is. -/
theorem mem_global_exec {m : M} :
    mark ∈ ((behave m s).exec (fun s => (s, [])) index).2 ↔
      (behave m s).calls id ≠ [] ∧ mark = .continued index := by
  rw [Behaviour.mem_exec]
  show (∃ state ∈ (behave m s).calls id, mark = .continued index ∨ mark ∈ []) ↔ _
  constructor
  · rintro ⟨state, hstate, hmark | hmark⟩
    · exact ⟨ne_nil_of_mem hstate, hmark⟩
    · cases hmark
  · rintro ⟨hne, hmark⟩
    obtain ⟨state, hstate⟩ := exists_mem_of_ne_nil _ hne
    exact ⟨state, hstate, .inl hmark⟩

theorem index_le_of_mem_runGlobals
    (h : mark ∈ (runGlobals behave index globals s).2.2) : index ≤ mark.index := by
  induction globals generalizing index s with
  | nil => cases h
  | cons m rest ih =>
    rw [runGlobals] at h
    split_ifs at h with hcalls
    · obtain rfl | h := mem_cons.1 h
      · exact le_rfl
      · rw [(mem_global_exec.mp h).2]
        exact le_rfl
    · obtain rfl | h := mem_cons.1 h
      · exact le_rfl
      · obtain h | h := mem_append.1 h
        · rw [(mem_global_exec.mp h).2]
          exact le_rfl
        · exact (Nat.le_succ _).trans (ih h)

/-- A global middleware that does not call `next` ends the request. -/
theorem runGlobals_stuck {j : ℕ} (hentered : .entered j ∈ (runGlobals behave index globals s).2.2)
    (hcontinued : .continued j ∉ (runGlobals behave index globals s).2.2) :
    (runGlobals behave index globals s).1 = false ∧
      ∀ k, j < k → .entered k ∉ (runGlobals behave index globals s).2.2 := by
  induction globals generalizing index s with
  | nil => cases hentered
  | cons m rest ih =>
    rw [runGlobals] at *
    split_ifs at * with hcalls
    · refine ⟨rfl, fun k hk hmem => ?_⟩
      obtain hself | hmem := mem_cons.1 hmem
      · cases hself
        obtain hself | hj := mem_cons.1 hentered
        · cases hself
          omega
        · exact (mem_global_exec.1 hj).1 hcalls
      · exact (mem_global_exec.1 hmem).1 hcalls
    · have hfirst : .continued index ∈ ((behave m s).exec (fun s => (s, [])) index).2 :=
        mem_global_exec.2 ⟨hcalls, rfl⟩
      have hrest : .entered j ∈ (runGlobals behave (index + 1) rest
          ((behave m s).exec (fun s => (s, [])) index).1).2.2 := by
        obtain hself | h := mem_cons.1 hentered
        · cases hself
          exact absurd (.tail _ (mem_append_left _ hfirst)) hcontinued
        · obtain h | h := mem_append.1 h
          · cases (mem_global_exec.1 h).2
          · exact h
      obtain ⟨hfalse, hlater⟩ := ih hrest fun h =>
        hcontinued (.tail _ (mem_append_right _ h))
      refine ⟨hfalse, fun k hk hmem => ?_⟩
      obtain hself | hmem := mem_cons.1 hmem
      · cases hself
        have : index + 1 ≤ j := index_le_of_mem_runGlobals hrest
        omega
      · obtain hmem | hmem := mem_append.1 hmem
        · cases (mem_global_exec.1 hmem).2
        · exact hlater k hk hmem

end Globals

section Serve

variable {handler : RouteHandler H M} {globals : List M} {behave : M → S → Behaviour S}
  {invoke : H → S → S} {method : Method} {path : Text} {s : S}

/-- The trace of a request. -/
theorem serve_trace : (handler.serve globals behave invoke method path s).2 =
    (runGlobals behave 0 globals s).2.2.map .global ++
      if (runGlobals behave 0 globals s).1 then
        (runChains behave 0 (handler.matchRequest method path).chains
          (runGlobals behave 0 globals s).2.1).2 ++
          ((handler.matchRequest method path).result.toOption.map .handled).toList
      else [] := by
  unfold RouteHandler.serve
  dsimp only
  cases (runGlobals behave 0 globals s).1 with
  | false => exact (append_nil _).symm
  | true =>
    cases (handler.matchRequest method path).result with
    | error e =>
      show _ ++ _ = _ ++ (_ ++ [])
      rw [append_nil]
    | ok fn => rfl

theorem global_mem_serve :
    .global mark ∈ (handler.serve globals behave invoke method path s).2 ↔
      mark ∈ (runGlobals behave 0 globals s).2.2 := by
  rw [serve_trace, mem_append, mem_map]
  constructor
  · rintro (⟨mark', hmark, heq⟩ | h)
    · cases heq
      exact hmark
    · split_ifs at h
      · obtain h | h := mem_append.1 h
        · obtain ⟨d, mark', heq⟩ := node_of_mem_runChains h
          cases heq
        · simp at h
      · cases h
  · exact fun h => .inl ⟨mark, h, rfl⟩

theorem node_mem_serve {d : ℕ} :
    .node d mark ∈ (handler.serve globals behave invoke method path s).2 ↔
      (runGlobals behave 0 globals s).1 = true ∧
        (.node d mark : Event H) ∈ (runChains behave 0 (handler.matchRequest method path).chains
          (runGlobals behave 0 globals s).2.1).2 := by
  rw [serve_trace]
  split_ifs with hproceed <;> simp [hproceed]

theorem handled_mem_serve {fn : H} :
    .handled fn ∈ (handler.serve globals behave invoke method path s).2 ↔
      (runGlobals behave 0 globals s).1 = true ∧
        (handler.matchRequest method path).result.toOption = some fn := by
  have hchains : (.handled fn : Event H) ∉ (runChains behave 0
      (handler.matchRequest method path).chains (runGlobals behave 0 globals s).2.1).2 := by
    intro h
    obtain ⟨d, mark, heq⟩ := node_of_mem_runChains h
    cases heq
  rw [serve_trace]
  split_ifs with hproceed <;> simp [hproceed, hchains]

end Serve

/-- For every table and every request. Behind a global middleware that never calls `next` nothing
runs. Behind a middleware of a node that never calls `next` nothing runs exactly if the request
has ended before, or every chain on its path is passed, except for the last one of a request for
which no handler is found. -/
theorem gated_iff_gate (handler : RouteHandler H M) (globals : List M)
    (behave : M → S → Behaviour S) (invoke : H → S → S) (method : Method) (path : Text) (s : S) :
    (∀ j, .global (.entered j) ∈ (handler.serve globals behave invoke method path s).2 →
      .global (.continued j) ∉ (handler.serve globals behave invoke method path s).2 →
      (∀ k, j < k → .global (.entered k) ∉ (handler.serve globals behave invoke method path s).2) ∧
      ∀ e ∈ (handler.serve globals behave invoke method path s).2, ∃ mark, e = .global mark) ∧
    (Gated (handler.serve globals behave invoke method path s).2 ↔
      ((runGlobals behave 0 globals s).1 = true →
        Gate behave (handler.matchRequest method path).result.toOption
          (handler.matchRequest method path).chains (runGlobals behave 0 globals s).2.1)) := by
  refine ⟨fun j hentered hcontinued => ?_, ?_⟩
  · rw [global_mem_serve] at hentered hcontinued
    obtain ⟨hproceed, hlater⟩ := runGlobals_stuck hentered hcontinued
    refine ⟨fun k hk => ?_, fun e he => ?_⟩
    · rw [global_mem_serve]
      exact hlater k hk
    · rw [serve_trace, hproceed, if_neg (by simp), append_nil] at he
      obtain ⟨mark, -, rfl⟩ := mem_map.1 he
      exact ⟨mark, rfl⟩
  · simp only [Gated, node_mem_serve, handled_mem_serve]
    by_cases hproceed : (runGlobals behave 0 globals s).1 = true
    · -- within a node the later middleware does not run in any case
      simp only [hproceed, true_and, true_imp_iff]
      rw [gate_iff]
      refine forall₂_congr fun d j => forall₂_congr fun hentered hcontinued => ⟨?_, ?_⟩
      · rintro ⟨-, hdeeper, hhandled⟩
        exact ⟨hdeeper, Option.eq_none_iff_forall_ne_some.2 hhandled⟩
      · rintro ⟨hdeeper, hfound⟩
        refine ⟨fun k hk hmem => hcontinued (continued_of_entered_node hk hmem), hdeeper, ?_⟩
        exact Option.eq_none_iff_forall_ne_some.1 hfound
    · exact ⟨fun _ h => absurd h hproceed, fun _ d j h => absurd h.1 hproceed⟩

/-- The route `/a` with a middleware and a handler for `GET`. -/
def guardedForest : Forest String Unit := .route ⟨"/a".toList, [()], [(.get, "a")]⟩ .nil

/-- The middleware returns without calling `next`, and the handler runs. -/
theorem rejected_request_is_handled :
    ((register none guardedForest { nextNumber := 1 } >>= build Sorting.insertion).toOption.map
      fun handler => (handler.serve [] (fun _ s => .ret s) (fun _ s => s) .get "/a".toList ()).2) =
        some [.node 0 (.entered 0), .handled "a"] ∧
    ¬Gated [.node 0 (.entered 0), (.handled "a" : Event String)] := by
  refine ⟨by decide +kernel, fun h => ?_⟩
  exact (h 0 0 (by simp) (by simp)).2.2 "a" (by simp)

end Congelado.Routing
