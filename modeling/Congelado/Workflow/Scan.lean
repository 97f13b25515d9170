import Congelado.Workflow.Orchestrator

/-!
# What one pass of `advance` decides

`scanNodes` judges the nodes that have no instance yet, one after the other,
with one Lua interpreter running through all evaluations. This module says what
its two lists contain: `mem_listed` gives the node and the verdict behind every
listed reference, and `nodup_scan` that no reference is listed twice when the
definition's references are distinct. The converse for these is `mem_listed_iff`.

For an ordinary node the verdict comes from its incoming edges. Whether all
predecessors are terminal is a property of the execution alone
(`scanEdges_allPredecessorsTerminal`). Whether an edge is satisfied may depend on
Lua: `edgeResults` has the evaluations that the scan makes, and `luaAt` the state that
they start from.
-/

namespace Congelado

open List

namespace Orchestrator

variable {σ : Type} {H : Host σ} {exec : WorkflowExecution} {wdef : WorkflowDef} {node : TaskNode}
    {lua : σ} {ref : String} {edge : TaskEdge} {nodes : List TaskNode} {v : Verdict}
    {edges : List TaskEdge}

/-- The source of an edge has an instance, and it is terminal. -/
def predecessorTerminal (exec : WorkflowExecution) (edge : TaskEdge) : Bool :=
  (findInstance exec.taskInstances edge.fromRef).any fun inst => inst.status.isTerminal

/-- The conditions that the scan of a node's edges evaluates, with the values they have
in the states that the interpreter comes to. An edge without a condition counts as true. -/
def edgeResults (H : Host σ) (exec : WorkflowExecution) : σ → List TaskEdge → List (TaskEdge × Bool)
  | _, [] => []
  | lua, edge :: edges =>
    match findInstance exec.taskInstances edge.fromRef with
    | none => edgeResults H exec lua edges
    | some pred =>
      if pred.status.isDone then
        let ok := edgeConditionOk H lua exec edge pred
        (edge, ok.1) :: edgeResults H exec ok.2 edges
      else edgeResults H exec lua edges

theorem findInstance_mem {instances : List TaskInstance} {inst : TaskInstance}
    (h : findInstance instances ref = some inst) : inst ∈ instances ∧ inst.nodeRef = ref :=
  ⟨mem_of_find?_eq_some h, by simpa using find?_some h⟩

/-! ### The edges of a node -/

/-- The three outcomes of looking at one edge. -/
theorem scanEdge_cases (H : Host σ) (exec : WorkflowExecution) (s : EdgeScan σ) (edge : TaskEdge) :
    (predecessorTerminal exec edge = false ∧
        scanEdge H exec s edge = { s with allPredecessorsTerminal := false }) ∨
      (predecessorTerminal exec edge = true ∧ scanEdge H exec s edge = s ∧
        ∀ pred, findInstance exec.taskInstances edge.fromRef = some pred →
          pred.status.isDone = false) ∨
      (predecessorTerminal exec edge = true ∧
        ∃ pred, findInstance exec.taskInstances edge.fromRef = some pred ∧
          pred.status.isDone = true ∧
          scanEdge H exec s edge =
            { s with
              anySatisfied := s.anySatisfied || (edgeConditionOk H s.lua exec edge pred).1
              lua := (edgeConditionOk H s.lua exec edge pred).2 }) := by
  unfold scanEdge predecessorTerminal
  cases findInstance exec.taskInstances edge.fromRef with
  | none => exact .inl ⟨rfl, rfl⟩
  | some pred =>
    cases hdone : pred.status.isDone with
    | true =>
      have hterm := TaskStatus.isTerminal_of_isDone hdone
      exact .inr (.inr ⟨hterm, pred, rfl, hdone, by simp [hterm, hdone]⟩)
    | false =>
      cases hterm : pred.status.isTerminal with
      | false => exact .inl ⟨hterm, by simp [hterm]⟩
      | true =>
          exact .inr (.inl ⟨hterm, by simp [hterm, hdone], fun _ h => Option.some.inj h ▸ hdone⟩)

variable (edges)

theorem foldl_scanEdge_allPredecessorsTerminal (s : EdgeScan σ) :
    (edges.foldl (scanEdge H exec) s).allPredecessorsTerminal =
      (s.allPredecessorsTerminal && edges.all (predecessorTerminal exec)) := by
  induction edges generalizing s with
  | nil => simp
  | cons edge edges ih =>
    rw [foldl_cons, ih, all_cons]
    rcases scanEdge_cases H exec s edge with
      ⟨ht, hs⟩ | ⟨ht, hs, -⟩ | ⟨ht, _, -, -, hs⟩ <;> simp [hs, ht]

theorem scanEdges_allPredecessorsTerminal :
    (scanEdges H exec lua edges).allPredecessorsTerminal =
      edges.all (predecessorTerminal exec) := by
  rw [scanEdges, foldl_scanEdge_allPredecessorsTerminal, Bool.true_and]

theorem foldl_scanEdge_anySatisfied (s : EdgeScan σ) :
    (edges.foldl (scanEdge H exec) s).anySatisfied =
      (s.anySatisfied || (edgeResults H exec s.lua edges).any Prod.snd) := by
  induction edges generalizing s with
  | nil => simp [edgeResults]
  | cons edge edges ih =>
    rw [foldl_cons, ih, scanEdge, edgeResults]
    cases findInstance exec.taskInstances edge.fromRef with
    | none => rfl
    | some pred =>
      cases hdone : pred.status.isDone with
      | true => simp [hdone, TaskStatus.isTerminal_of_isDone hdone, Bool.or_assoc]
      | false => cases hterm : pred.status.isTerminal <;> simp [hdone, hterm]

/-- A node is satisfied if one of the evaluations gives true. -/
theorem scanEdges_anySatisfied :
    (scanEdges H exec lua edges).anySatisfied = (edgeResults H exec lua edges).any Prod.snd := by
  rw [scanEdges, foldl_scanEdge_anySatisfied, Bool.false_or]

variable {edges}

/-- An edge without a condition never evaluates to false. -/
theorem condition_isSome_of_result {r : TaskEdge × Bool} (h : r ∈ edgeResults H exec lua edges)
    (hr : r.2 = false) : r.1.condition.isSome = true := by
  induction edges generalizing lua with
  | nil => exact absurd h not_mem_nil
  | cons edge edges ih =>
    rw [edgeResults] at h
    split at h
    · exact ih h
    · split at h
      · rcases mem_cons.1 h with rfl | h
        · cases hc : edge.condition with
          | some _ => rfl
          | none => simp [edgeConditionOk, hc] at hr
        · exact ih h
      · exact ih h

/-- If the sources of all edges are done then all edges are evaluated. -/
theorem map_fst_edgeResults (h : ∀ edge ∈ edges, ∃ pred,
      findInstance exec.taskInstances edge.fromRef = some pred ∧ pred.status.isDone = true) :
    (edgeResults H exec lua edges).map Prod.fst = edges := by
  induction edges generalizing lua with
  | nil => rfl
  | cons edge edges ih =>
    obtain ⟨pred, hpred, hdone⟩ := h edge (.head _)
    simp [edgeResults, hpred, hdone, ih fun e he => h e (.tail _ he)]

/-! ### The verdict on a node -/

theorem judge_of_joinOn (h : node.joinOn ≠ []) :
    judge H exec wdef node lua = (if joinReady exec node then .eligible else .wait, lua) := by
  unfold judge
  rw [if_pos h]

theorem judge_of_edges (h : node.joinOn = []) (hin : incoming wdef node.refName ≠ []) :
    (judge H exec wdef node lua).1 =
      if (scanEdges H exec lua (incoming wdef node.refName)).anySatisfied then .eligible
      else if (incoming wdef node.refName).all (predecessorTerminal exec) then .skip
      else .wait := by
  unfold judge
  rw [if_neg (by simp [h]), if_neg hin]
  simp only [scanEdges_allPredecessorsTerminal]

/-- Only an ordinary node with incoming edges is skipped, when all its predecessors are
terminal. -/
theorem judge_eq_skip (h : (judge H exec wdef node lua).1 = .skip) :
    node.joinOn = [] ∧ ∀ edge ∈ incoming wdef node.refName,
      predecessorTerminal exec edge = true := by
  by_cases hjoin : node.joinOn = []
  · by_cases hin : incoming wdef node.refName = []
    · simp [judge, hjoin, hin] at h
    · rw [judge_of_edges hjoin hin] at h
      split at h
      · cases h
      · split at h
        · next hall => exact ⟨hjoin, all_eq_true.1 hall⟩
        · cases h
  · rw [judge_of_joinOn hjoin] at h
    cases hready : joinReady exec node <;> simp [hready] at h

/-- A node that joins all of its `join_on` list is eligible only when every entry
has a terminal instance. -/
theorem joinReady_all (htype : node.joinType = .all) :
    joinReady exec node = true ↔ ∀ r ∈ node.joinOn, ∃ inst,
      findInstance exec.taskInstances r = some inst ∧ inst.status.isTerminal = true := by
  simp only [joinReady, htype, all_eq_true, Option.any_eq_true]

/-! ### The two lists of a pass -/

theorem scanNodes_cons_of_mem (h : node.refName ∈ exec.refs) :
    scanNodes H exec wdef (node :: nodes) lua = scanNodes H exec wdef nodes lua := by
  rw [scanNodes, if_pos h]

theorem scanNodes_cons_of_not_mem (h : node.refName ∉ exec.refs) :
    scanNodes H exec wdef (node :: nodes) lua =
      match (judge H exec wdef node lua).1 with
      | .eligible => { scanNodes H exec wdef nodes (judge H exec wdef node lua).2 with
          eligible := node.refName ::
            (scanNodes H exec wdef nodes (judge H exec wdef node lua).2).eligible }
      | .skip => { scanNodes H exec wdef nodes (judge H exec wdef node lua).2 with
          skip := node.refName ::
            (scanNodes H exec wdef nodes (judge H exec wdef node lua).2).skip }
      | .wait => scanNodes H exec wdef nodes (judge H exec wdef node lua).2 :=
  if_neg h

/-- The references a pass lists under a verdict; the waiting ones are in no list. -/
def NodeScan.listed (scan : NodeScan σ) : Verdict → List String
  | .eligible => scan.eligible
  | .skip => scan.skip
  | .wait => []

/-- Judging one more node adds its reference to the list of its verdict only. -/
theorem listed_scanNodes_cons (h : node.refName ∉ exec.refs) :
    (scanNodes H exec wdef (node :: nodes) lua).listed v =
      if (judge H exec wdef node lua).1 = v ∧ v ≠ .wait then
        node.refName :: (scanNodes H exec wdef nodes (judge H exec wdef node lua).2).listed v
      else (scanNodes H exec wdef nodes (judge H exec wdef node lua).2).listed v := by
  rw [scanNodes_cons_of_not_mem h]
  cases (judge H exec wdef node lua).1 <;> cases v <;> rfl

/-- Whatever is listed is the reference of a node without an instance that was
judged so, in some state of the interpreter. -/
theorem mem_listed (h : ref ∈ (scanNodes H exec wdef nodes lua).listed v) :
    ∃ node ∈ nodes, ∃ lua', node.refName = ref ∧ ref ∉ exec.refs ∧
      (judge H exec wdef node lua').1 = v := by
  induction nodes generalizing lua with
  | nil => cases v <;> exact absurd h not_mem_nil
  | cons node nodes ih =>
    have lift : (∃ n ∈ nodes, ∃ lua', n.refName = ref ∧ ref ∉ exec.refs ∧
        (judge H exec wdef n lua').1 = v) → ∃ n ∈ node :: nodes, ∃ lua', n.refName = ref ∧
        ref ∉ exec.refs ∧ (judge H exec wdef n lua').1 = v :=
      fun ⟨n, hn, h⟩ => ⟨n, .tail _ hn, h⟩
    by_cases hmem : node.refName ∈ exec.refs
    · rw [scanNodes_cons_of_mem hmem] at h
      exact lift (ih h)
    · rw [listed_scanNodes_cons hmem] at h
      split at h
      · next hv =>
        rcases mem_cons.1 h with rfl | h
        · exact ⟨node, .head _, lua, rfl, hmem, hv.1⟩
        · exact lift (ih h)
      · exact lift (ih h)

/-- The state of the interpreter when the scan comes to a node. -/
def luaAt (H : Host σ) (exec : WorkflowExecution) (wdef : WorkflowDef) (node : TaskNode) :
    List TaskNode → σ → σ
  | [], lua => lua
  | n :: nodes, lua =>
    if n.refName = node.refName then lua
    else luaAt H exec wdef node nodes
      (if n.refName ∈ exec.refs then lua else (judge H exec wdef n lua).2)

/-- With distinct references a node without an instance is listed under the verdict that
it gets in the state in which the scan comes to it. -/
theorem mem_listed_iff (hnd : (nodes.map TaskNode.refName).Nodup) (hnode : node ∈ nodes)
    (hnew : node.refName ∉ exec.refs) (hv : v ≠ .wait) :
    node.refName ∈ (scanNodes H exec wdef nodes lua).listed v ↔
      (judge H exec wdef node (luaAt H exec wdef node nodes lua)).1 = v := by
  induction nodes generalizing lua with
  | nil => exact absurd hnode not_mem_nil
  | cons n nodes ih =>
    rw [map_cons, nodup_cons] at hnd
    rw [luaAt]
    rcases mem_cons.1 hnode with rfl | hnode
    · rw [listed_scanNodes_cons hnew, if_pos rfl]
      split
      · next h => simp [h.1]
      · next h =>
        -- another node of that name would be listed
        refine iff_of_false (fun hmem => hnd.1 ?_) fun heq => h ⟨heq, hv⟩
        obtain ⟨m, hm, -, href, -⟩ := mem_listed hmem
        exact href ▸ mem_map_of_mem hm
    · have hne : n.refName ≠ node.refName := fun h => hnd.1 (h ▸ mem_map_of_mem hnode)
      rw [if_neg hne]
      by_cases hmem : n.refName ∈ exec.refs
      · rw [scanNodes_cons_of_mem hmem, if_pos hmem]
        exact ih hnd.2 hnode
      · rw [listed_scanNodes_cons hmem, if_neg hmem]
        split
        · rw [mem_cons, or_iff_right hne.symm]
          exact ih hnd.2 hnode
        · exact ih hnd.2 hnode

theorem listed_subset (h : ref ∈ (scanNodes H exec wdef wdef.nodes lua).listed v) :
    ref ∈ wdef.refs ∧ ref ∉ exec.refs := by
  obtain ⟨node, hnode, _, rfl, hnew, -⟩ := mem_listed h
  exact ⟨mem_map_of_mem hnode, hnew⟩

/-- With distinct references no reference is listed twice, within one list or
across the two. -/
theorem nodup_scan (h : (nodes.map TaskNode.refName).Nodup) :
    ((scanNodes H exec wdef nodes lua).eligible ++
      (scanNodes H exec wdef nodes lua).skip).Nodup := by
  induction nodes generalizing lua with
  | nil => exact nodup_nil
  | cons n nodes ih =>
    rw [map_cons, nodup_cons] at h
    by_cases hmem : n.refName ∈ exec.refs
    · rw [scanNodes_cons_of_mem hmem]
      exact ih h.2
    · rw [scanNodes_cons_of_not_mem hmem]
      have hn : ∀ lua, n.refName ∉ (scanNodes H exec wdef nodes lua).eligible ++
          (scanNodes H exec wdef nodes lua).skip := by
        intro lua hn
        rcases mem_append.1 hn with hn | hn
        · obtain ⟨m, hm, _, heq, -⟩ := mem_listed (v := .eligible) hn
          exact h.1 (heq ▸ mem_map_of_mem hm)
        · obtain ⟨m, hm, _, heq, -⟩ := mem_listed (v := .skip) hn
          exact h.1 (heq ▸ mem_map_of_mem hm)
      cases (judge H exec wdef n lua).1 with
      | eligible => exact nodup_cons.2 ⟨hn _, ih h.2⟩
      | skip => exact nodup_middle.2 (nodup_cons.2 ⟨hn _, ih h.2⟩)
      | wait => exact ih h.2

end Orchestrator

end Congelado
