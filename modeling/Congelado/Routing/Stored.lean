import Congelado.Routing.Nodes

/-!
# Walking the stored table

`RouteHandler.Stores` ties the table of a handler to the list of the placed nodes: the node at
an index has the segment of the placed one, its handlers and its middleware are the slices of
the pools that its offsets point to, and its children are where its offset says. From there a
walk of the table is a walk of the placed nodes in which every step scans the children of a
node, turned so that the scan starts at the bucket of the segment (`findChild_eq`, `walk_eq`).
-/

namespace Congelado.Routing

open Sorting Levels List Fallible Placed RouteHandler

variable {H M : Type} {k offset : ℕ} {x : RouterBuildingHelper H M} {α : Type}

/-! ### Pools -/

theorem foldlM_pushBounded {size : ℕ} {message : String} {pool items pool' : List α}
    (h : items.foldlM (pushBounded size message) pool = .ok pool') : pool' = pool ++ items := by
  refine foldlM_invariant (P := fun pre r => r = pool ++ pre) (append_nil pool).symm ?_ h
  rintro pre x b b' rfl hpush
  unfold pushBounded at hpush
  split_ifs at hpush
  rw [← Except.ok.inj hpush, append_assoc]

/-- The node of the table at an index, for a node of the building table and its offset. -/
structure RouteHandler.Holds (handler : RouteHandler H M) (k : ℕ) (x : RouterBuildingHelper H M)
    (offset : ℕ) (node : RouterNode) : Prop where
  get : handler.table[k]? = some node
  kind : node.kind = x.kind
  path : node.path = x.literal
  childrenOffset : node.childrenOffset = offset % 65536
  childrenLength : node.childrenLength = x.children % 256
  mask : node.handlerMask = x.handlers.mask
  handlers : ∃ front back, handler.handler = front ++ (x.handlers.handler ++ back) ∧
    front.length = node.handlerOffset
  middlewares : ∃ front back, handler.middleware = front ++ (x.middlewares ++ back) ∧
    front.length = node.middlewareOffset
  middlewareLength : node.middlewareLength = x.middlewares.length

theorem addRoute_ok {handler handler' : RouteHandler H M}
    (h : handler.addRoute x offset = .ok handler') :
    (∃ node, handler'.table = handler.table ++ [node] ∧
      handler'.Holds handler.table.length x offset node) ∧
    handler'.handler = handler.handler ++ x.handlers.handler ∧
    handler'.middleware = handler.middleware ++ x.middlewares := by
  unfold addRoute at h
  obtain ⟨middleware, hmiddleware, h⟩ := bind_eq_ok_iff.1 h
  obtain ⟨pool, hpool, h⟩ := bind_eq_ok_iff.1 h
  obtain rfl := foldlM_pushBounded hmiddleware
  obtain rfl := foldlM_pushBounded hpool
  cases h
  refine ⟨⟨_, rfl, getElem?_concat_length, rfl, rfl, rfl, rfl, rfl, ?_, ?_, rfl⟩, rfl, rfl⟩
  · exact ⟨handler.handler, [], by rw [append_nil], rfl⟩
  · exact ⟨handler.middleware, [], by rw [append_nil], rfl⟩

theorem RouteHandler.Holds.mono {handler handler' : RouteHandler H M} {node : RouterNode}
    (h : handler.Holds k x offset node) {nodes : List RouterNode} {hs : List H} {ms : List M}
    (htable : handler'.table = handler.table ++ nodes)
    (hhandler : handler'.handler = handler.handler ++ hs)
    (hmiddleware : handler'.middleware = handler.middleware ++ ms) :
    handler'.Holds k x offset node := by
  obtain ⟨front, back, hpool, hfront⟩ := h.handlers
  obtain ⟨front', back', hpool', hfront'⟩ := h.middlewares
  obtain ⟨hk, -⟩ := List.getElem?_eq_some_iff.1 h.get
  refine { h with get := ?_, handlers := ?_, middlewares := ?_ }
  · rw [htable, getElem?_append_left hk]
    exact h.get
  · exact ⟨front, back ++ hs, by rw [hhandler, hpool]; simp only [append_assoc], hfront⟩
  · exact ⟨front', back' ++ ms, by rw [hmiddleware, hpool']; simp only [append_assoc], hfront'⟩

/-- Every node that was added is held, and no other. -/
theorem holds_of_foldlM {nodes : List (RouterBuildingHelper H M × ℕ)} {handler : RouteHandler H M}
    (h : nodes.foldlM (fun handler x => addRoute x.1 x.2 handler) {} = .ok handler) :
    handler.table.length = nodes.length ∧
      ∀ k x, nodes[k]? = some x → ∃ node, handler.Holds k x.1 x.2 node := by
  refine foldlM_invariant (P := fun pre handler => handler.table.length = pre.length ∧
    ∀ k x, pre[k]? = some x → ∃ node, RouteHandler.Holds handler k x.1 x.2 node) ?_ ?_ h
  · exact ⟨rfl, fun k x hx => nomatch hx⟩
  · rintro pre y b b' ⟨hlength, hpre⟩ hadd
    obtain ⟨⟨node, htable, hnode⟩, hhandler, hmiddleware⟩ := addRoute_ok hadd
    refine ⟨by rw [htable, length_append, length_append, hlength]; rfl, fun k x hx => ?_⟩
    by_cases hk : k < pre.length
    · rw [getElem?_append_left hk] at hx
      obtain ⟨node', hnode'⟩ := hpre k x hx
      exact ⟨node', hnode'.mono htable hhandler hmiddleware⟩
    · obtain ⟨hk', -⟩ := List.getElem?_eq_some_iff.1 hx
      rw [length_append, length_singleton] at hk'
      obtain rfl : k = pre.length := by omega
      rw [getElem?_concat_length] at hx
      cases hx
      exact ⟨node, hlength ▸ hnode⟩

/-! ### Offsets -/

/-- The nodes of a row from an index on, with the offsets that `build` computes. -/
def rowOffsets (size : ℕ) : List (RouterBuildingHelper H M) → ℕ → ℕ →
    List (RouterBuildingHelper H M × ℕ)
  | [], _, _ => []
  | x :: r, index, cumulative =>
    (x, if 0 < x.children then size - index + cumulative else 0) ::
      rowOffsets size r (index + 1) (cumulative + x.children)

theorem addRow_eq (size : ℕ) (r : List (RouterBuildingHelper H M)) (index cumulative : ℕ)
    (handler : RouteHandler H M) :
    addRow size r index cumulative handler =
      (rowOffsets size r index cumulative).foldlM
        (fun handler x => addRoute x.1 x.2 handler) handler := by
  induction r generalizing index cumulative handler with
  | nil => rfl
  | cons x r ih =>
    rw [addRow, rowOffsets, foldlM_cons]
    congr 1
    funext handler'
    exact ih _ _ _

theorem foldlM_addRow (table : List (List (RouterBuildingHelper H M)))
    (handler : RouteHandler H M) :
    table.foldlM (fun handler r => addRow r.length r 0 0 handler) handler =
      (table.flatMap fun r => rowOffsets r.length r 0 0).foldlM
        (fun handler x => addRoute x.1 x.2 handler) handler := by
  induction table generalizing handler with
  | nil => rfl
  | cons r table ih =>
    rw [foldlM_cons, flatMap_cons, foldlM_append, addRow_eq]
    congr 1
    funext handler'
    exact ih handler'

theorem length_rowOffsets (size : ℕ) (r : List (RouterBuildingHelper H M)) (index cumulative : ℕ) :
    (rowOffsets size r index cumulative).length = r.length := by
  induction r generalizing index cumulative with
  | nil => rfl
  | cons x r ih => exact congrArg (· + 1) (ih _ _)

theorem rowOffsets_get (size : ℕ) (front : List (RouterBuildingHelper H M))
    (x : RouterBuildingHelper H M) (back : List (RouterBuildingHelper H M)) (index cumulative : ℕ) :
    (rowOffsets size (front ++ x :: back) index cumulative)[front.length]? =
      some (x, if 0 < x.children then
        size - (index + front.length) + (cumulative + (front.map (·.children)).sum) else 0) := by
  induction front generalizing index cumulative with
  | nil => rfl
  | cons y front ih =>
    show (rowOffsets size (front ++ x :: back) (index + 1)
      (cumulative + y.children))[front.length]? = _
    rw [ih, map_cons, sum_cons, length_cons]
    congr 3
    omega

/-! ### The children of a node -/

section Kids

variable {alg : Algorithm} {run : List (Placed H M)} {base next : ℕ}

def Placed.node (p : Placed H M) : Node H M := ⟨p.label, p.children⟩

variable (acc : List (Node H M))

/-- The nodes of `acc` join the first run. -/
def prependRun : List (List (Node H M)) → List (List (Node H M))
  | [] => if acc = [] then [] else [acc]
  | run :: runs => (acc ++ run) :: runs

theorem prependRun_nil (runs : List (List (Node H M))) : prependRun [] runs = runs := by
  cases runs <;> rfl

theorem prependRun_joinRun (n : Node H M) (runs : List (List (Node H M))) :
    prependRun acc (joinRun n runs) = prependRun (acc ++ [n]) runs := by
  cases runs with
  | nil => exact (if_neg (by simp)).symm
  | cons run runs =>
    show (acc ++ n :: run) :: runs = (acc ++ [n] ++ run) :: runs
    rw [append_assoc]
    rfl

theorem map_node_sortRun {base : ℕ} (hrun : ∀ p ∈ run, p.Fits ∧ p.base = some base) :
    (sortRun alg run).map node = sortNodes alg (run.map node) := by
  rw [sortNodes, length_map]
  refine alg.map _ _ _ _ fun a ha b hb => ?_
  -- the base routers of a run are the same, so the paths decide
  obtain ⟨hfa, hba⟩ := hrun a ha
  obtain ⟨hfb, hbb⟩ := hrun b hb
  have hpath : ∀ {p : Placed H M}, p.Fits → p.route.path = p.node.segment :=
    fun h => h.builds.makes.path
  unfold less lessPath
  rw [hpath hfa, hpath hfb, show a.route.baseRouter = some base from hba,
    show b.route.baseRouter = some base from hbb]
  simp

variable (forest : Forest H M)

theorem map_node_levels
    (hfits : forest.All Label.Fits) (hrun : ∀ p ∈ run, p.Fits ∧ p.base = some base) :
    (row (levels alg forest base next run) 0).map node =
      (prependRun (run.map node) forest.runs).flatMap (sortNodes alg) := by
  induction forest generalizing base next run with
  | nil =>
    rw [levels, Forest.runs, prependRun]
    by_cases hnil : run = []
    · rw [hnil]
      rfl
    · rw [if_neg hnil, if_neg (by simpa using hnil), flatMap_singleton, ← map_node_sortRun hrun]
      rfl
  | route label rest ih =>
    rw [levels, ih hfits.2 (forall_mem_concat hrun ⟨hfits.1, rfl⟩), Forest.runs, prependRun_joinRun,
      map_append]
    rfl
  | router label children rest _ ih =>
    obtain ⟨hown, -, hrest⟩ := hfits
    have hrun' : ∀ q ∈ run ++ [asRouter label base next children], q.Fits ∧ q.base = some base :=
      forall_mem_concat hrun ⟨hown, rfl⟩
    rw [levels, Forest.runs]
    split_ifs with hwidth
    · rw [ih hrest hrun', prependRun_joinRun, map_append]
      rfl
    · rw [row_beside, row_cons_zero, map_append, map_node_sortRun hrun', ih hrest (by simp),
        map_nil, prependRun_nil, map_append]
      rfl

theorem length_row_levels :
    (row (levels alg forest base next run) 0).length = run.length + forest.width := by
  induction forest generalizing base next run with
  | nil =>
    rw [levels]
    split_ifs with hnil
    · rw [hnil]
      rfl
    · exact length_sortRun run
  | route label rest ih =>
    rw [levels, ih, length_append, Forest.width]
    exact add_right_comm _ _ _
  | router label children rest _ ih =>
    rw [levels]
    split_ifs
    · rw [ih, length_append, Forest.width]
      exact add_right_comm _ _ _
    · rw [row_beside, row_cons_zero, length_append, length_sortRun, ih, length_append,
        Forest.width, length_nil, zero_add]
      exact add_right_comm _ _ _

theorem map_node_kids {p : Placed H M} (hfits : p.children.All Label.Fits) :
    (kids alg p).map node = order alg p.children := by
  rw [kids, map_node_levels p.children hfits (by simp), map_nil, prependRun_nil, order]

theorem length_kids (p : Placed H M) : (kids alg p).length = p.children.width := by
  rw [kids, length_row_levels, length_nil, zero_add]

/-- The number of nodes. -/
def Forest.size : Forest H M → ℕ
  | .nil => 0
  | .route _ rest => rest.size + 1
  | .router _ children rest => children.size + rest.size + 1

theorem length_flatten_levels :
    (levels alg forest base next run).flatten.length = run.length + forest.size := by
  induction forest generalizing base next run with
  | nil =>
    rw [levels]
    split_ifs with hnil
    · rw [hnil]
      rfl
    · rw [flatten_singleton, length_sortRun]
      rfl
  | route label rest ih =>
    rw [levels, ih, length_append, Forest.size]
    exact add_right_comm _ _ _
  | router label children rest ihc ih =>
    rw [levels]
    split_ifs with hwidth
    · rw [ih, length_append, Forest.size, Forest.eq_nil_of_width hwidth, Forest.size,
        zero_add]
      exact add_right_comm _ _ _
    · rw [length_flatten_beside, flatten_cons, length_append, length_sortRun, ihc, ih,
        length_append, Forest.size, length_nil, length_singleton]
      omega

theorem mem_levels {P : Label H M → Forest H M → Prop}
    (hforest : forest.All P) (hrun : ∀ p ∈ run, p.node.All P) :
    ∀ r ∈ levels alg forest base next run, ∀ p ∈ r, p.node.All P := by
  induction forest generalizing base next run with
  | nil =>
    intro r hr p hp
    rw [levels] at hr
    split_ifs at hr
    · cases hr
    · rw [mem_singleton.1 hr] at hp
      exact hrun p (mem_sortRun.1 hp)
  | route label rest ih =>
    rw [levels]
    exact ih hforest.2 (forall_mem_concat hrun ⟨hforest.1, trivial⟩)
  | router label children rest ihc ih =>
    obtain ⟨hown, hchildren, hrest⟩ := hforest
    have hrun' : ∀ p ∈ run ++ [asRouter label base next children], p.node.All P :=
      forall_mem_concat hrun ⟨hown, hchildren⟩
    rw [levels]
    split_ifs
    · exact ih hrest hrun'
    · intro r hr p hp
      obtain ⟨r', hr', hp⟩ | ⟨r', hr', hp⟩ := mem_beside hr hp
      · obtain rfl | hr' := mem_cons.1 hr'
        · exact hrun' p (mem_sortRun.1 hp)
        · exact ihc hchildren (by simp) r' hr' p hp
      · exact ih hrest (by simp) r' hr' p hp

end Kids

/-! ### The stored nodes -/

section Stores

variable {rows : List (List (Placed H M))} {kind : α → EdgeKind} {literal : α → Text}

/-- The table of a handler stores a list of placed nodes: each at its index, with its segment,
its handlers, its middleware, and its children where its offset points. -/
structure RouteHandler.Stores (alg : Algorithm) (handler : RouteHandler H M)
    (flat : List (Placed H M)) : Prop where
  bound : flat.length ≤ 256
  fits : ∀ p ∈ flat, p.node.All Label.Fits
  holds : ∀ k p, flat[k]? = some p → ∃ offset node, handler.Holds k p.helper offset node ∧
    (0 < p.children.width → ∃ rest, flat.drop (k + offset) = kids alg p ++ rest)

variable {alg : Algorithm}

theorem length_offsets (rows : List (List (Placed H M))) :
    ((rows.map (List.map helper)).flatMap fun r => rowOffsets r.length r 0 0).length =
      rows.flatten.length := by
  rw [length_flatMap, map_map, length_flatten]
  congr 1
  refine map_congr_left fun r _ => ?_
  rw [Function.comp_apply, length_rowOffsets, length_map]

/-- The offsets of rows that are layered point to the children. -/
theorem offset_get (hlayered : Layered (kids alg) rows)
    {p : Placed H M} (hk : rows.flatten[k]? = some p) :
    ∃ offset, ((rows.map (List.map helper)).flatMap fun r =>
        rowOffsets r.length r 0 0)[k]? = some (p.helper, offset) ∧
      (0 < p.children.width → ∃ rest, rows.flatten.drop (k + offset) = kids alg p ++ rest) := by
  obtain ⟨pre, front, back, post, rfl, rfl⟩ := exists_of_getElem?_flatten hk
  -- an offset skips the row and the children of those in front
  have hsum : ((front.map helper).map (·.children)).sum =
      (front.flatMap (kids alg)).length := by
    rw [length_flatMap, map_map]
    congr 1
    refine map_congr_left fun q _ => ?_
    rw [length_kids]
    rfl
  have hget := rowOffsets_get (front ++ p :: back).length (front.map helper) p.helper
    (back.map helper) 0 0
  rw [hsum, length_map, zero_add, zero_add] at hget
  have hlt : front.length < (rowOffsets ((front ++ p :: back).map helper).length
      ((front ++ p :: back).map helper) 0 0).length := by
    rw [length_rowOffsets, length_map, length_append, length_cons]
    omega
  have hnodes :
    (((pre ++ (front ++ p :: back) :: post).map (List.map helper)).flatMap fun r =>
      rowOffsets r.length r 0 0)[pre.flatten.length + front.length]? = some (p.helper,
        if 0 < p.helper.children then
          (front ++ p :: back).length - front.length + (front.flatMap (kids alg)).length
        else 0) := by
    rw [map_append, flatMap_append,
      getElem?_append_right (by rw [length_offsets]; omega), length_offsets,
      Nat.add_sub_cancel_left, map_cons, flatMap_cons, getElem?_append_left hlt,
      length_map, map_append, map_cons, hget]
  refine ⟨_, hnodes, fun hwidth => ?_⟩
  obtain ⟨rest, hrest⟩ := hlayered.slice
  refine ⟨rest, ?_⟩
  have hpos : 0 < p.helper.children := hwidth
  rw [if_pos hpos, ← hrest]
  congr 1
  rw [length_append]
  omega

/-- What `build` writes from layered rows is stored. -/
theorem stores_of_foldlM {handler : RouteHandler H M}
    (hlayered : Layered (kids alg) rows) (hfits : ∀ r ∈ rows, ∀ p ∈ r, p.node.All Label.Fits)
    (hbound : rows.flatten.length ≤ 256) (h : (rows.map (List.map helper)).foldlM
      (fun handler r => addRow r.length r 0 0 handler) {} = .ok handler) :
    handler.Stores alg rows.flatten where
  bound := hbound
  fits := by
    intro p hp
    obtain ⟨r, hr, hp⟩ := mem_flatten.1 hp
    exact hfits r hr p hp
  holds := by
    intro k p hk
    rw [foldlM_addRow] at h
    obtain ⟨offset, hget, hkids⟩ := offset_get hlayered hk
    obtain ⟨node, hnode⟩ := (holds_of_foldlM h).2 k _ hget
    exact ⟨offset, node, hnode, hkids⟩

/-! ### Finding a child -/

theorem probe_eq (seg : Text) (table : List RouterNode) (origin hash length : ℕ) (is : List ℕ)
    (wild : Option ℕ) :
    RouterNode.probe seg table origin hash length is wild =
      scan (fun i => (table.getD i {}).kind) (fun i => (table.getD i {}).path) seg
        (is.map fun i => (origin + (hash + i) % length) % 256) wild := by
  induction is generalizing wild with
  | nil => rfl
  | cons i is ih =>
    rw [RouterNode.probe, map_cons, scan]
    cases (table.getD ((origin + (hash + i) % length) % 256) {}).kind with
    | path =>
      dsimp only
      split_ifs
      · rfl
      · exact ih wild
    | param => rfl
    | wild => exact ih _

theorem findChild_eq_scan (seg : Text) (table : List RouterNode) (k : ℕ) (node : RouterNode) :
    node.findChild seg table k =
      scan (fun i => (table.getD i {}).kind) (fun i => (table.getD i {}).path) seg
        ((List.range node.childrenLength).map fun i => ((k + node.childrenOffset) % 256 +
          ((fnv1a seg).toNat % node.childrenLength + i) % node.childrenLength) % 256) none := by
  unfold RouterNode.findChild
  by_cases hzero : node.childrenLength = 0
  · rw [if_pos hzero, hzero]
    rfl
  · rw [if_neg hzero]
    dsimp only
    by_cases hmany : 1 < node.childrenLength
    · rw [if_pos hmany]
      exact probe_eq ..
    · -- a single child
      have hone : node.childrenLength = 1 := by omega
      have horigin : ((k + node.childrenOffset) % 256 + ((fnv1a seg).toNat % 1 + 0) % 1) % 256 =
          (k + node.childrenOffset) % 256 := by
        rw [Nat.mod_one, Nat.add_zero, Nat.mod_mod]
      rw [if_neg hmany, hone]
      show _ = scan _ _ seg [((k + node.childrenOffset) % 256 +
        ((fnv1a seg).toNat % 1 + 0) % 1) % 256] none
      rw [horigin, scan]
      cases (table.getD ((k + node.childrenOffset) % 256) {}).kind <;> rfl

theorem scan_map {β : Type} {kind' : β → EdgeKind}
    {literal' : β → Text} {seg : Text} (f : α → β) {l : List α} {wild : Option α}
    (hkind : ∀ x ∈ l, kind x = kind' (f x)) (hliteral : ∀ x ∈ l, literal x = literal' (f x)) :
    (scan kind literal seg l wild).map f = scan kind' literal' seg (l.map f) (wild.map f) := by
  induction l generalizing wild with
  | nil => rfl
  | cons x l ih =>
    have ih' := fun {wild} => @ih wild (fun y hy => hkind y (.tail _ hy))
      fun y hy => hliteral y (.tail _ hy)
    rw [map_cons, scan, scan, ← hkind x (.head _), ← hliteral x (.head _)]
    cases kind x with
    | path =>
      dsimp only
      split_ifs
      · rfl
      · exact ih'
    | param => rfl
    | wild => exact ih'

theorem scan_mem {seg : Text} {l : List α}
    {x : α} (h : scan kind literal seg l none = some x) : x ∈ l := by
  suffices ∀ wild, scan kind literal seg l wild = some x → x ∈ l ∨ wild = some x by
    exact (this none h).resolve_right (nomatch ·)
  clear h
  induction l with
  | nil => exact fun wild h => .inr h
  | cons y l ih =>
    intro wild h
    rw [scan] at h
    cases hkind : kind y with
    | path =>
      rw [hkind] at h
      dsimp only at h
      split_ifs at h
      · exact .inl (Option.some.inj h ▸ .head _)
      · exact (ih wild h).imp_left (.tail _)
    | param =>
      rw [hkind] at h
      exact .inl (Option.some.inj h ▸ .head _)
    | wild =>
      rw [hkind] at h
      obtain h | h := ih _ h
      · exact .inl (.tail _ h)
      · exact .inl (Option.some.inj h ▸ .head _)

section Walk

variable {handler : RouteHandler H M} {flat : List (Placed H M)} {p : Placed H M}

/-- The node of the table at the index of a placed node. -/
theorem RouteHandler.Stores.get (h : handler.Stores alg flat)
    (hk : flat[k]? = some p) : ∃ offset, handler.Holds k p.helper offset (handler.table.getD k {}) ∧
      (0 < p.children.width → ∃ rest, flat.drop (k + offset) = kids alg p ++ rest) := by
  obtain ⟨offset, node, hnode, hkids⟩ := h.holds k p hk
  rw [getD_eq_getElem?_getD, hnode.get, Option.getD_some]
  exact ⟨offset, hnode, hkids⟩

/-- The indices that are probed are those of the children, from the bucket of the segment on. -/
theorem map_probed {kids rest : List (Placed H M)} {origin : ℕ} (hash : ℕ)
    (hdrop : flat.drop origin = kids ++ rest) (hlt : origin + kids.length ≤ 256)
    (hpos : 0 < kids.length) :
    ((List.range kids.length).map fun i =>
        (origin % 256 + (hash % kids.length + i) % kids.length) % 256).map
      (fun i => flat.getD i fallbackPlaced) = kids.rotate hash := by
  have hget : ∀ i < kids.length, flat.getD (origin + i) fallbackPlaced =
      kids.getD i fallbackPlaced := by
    intro i hi
    rw [getD_eq_getElem?_getD, getD_eq_getElem?_getD, ← getElem?_drop, hdrop,
      getElem?_append_left hi]
  rw [map_map]
  apply ext_getElem (by simp)
  intro i hi hi'
  have hmod : (hash % kids.length + i) % kids.length < kids.length := Nat.mod_lt _ hpos
  have hidx : (origin % 256 + (hash % kids.length + i) % kids.length) % 256 =
      origin + (hash % kids.length + i) % kids.length := by
    rw [Nat.mod_eq_of_lt (show origin < 256 by omega), Nat.mod_eq_of_lt (by omega)]
  rw [getElem_map, getElem_range, Function.comp_apply, hidx, hget _ hmod,
    getElem_rotate, getD_eq_getElem _ _ hmod]
  congr 1
  rw [Nat.mod_add_mod, Nat.add_comm]

/-- `find_child` finds what the scan of the children finds. -/
theorem findChild_eq (h : handler.Stores alg flat) (hk : flat[k]? = some p) (seg : Text) :
    step alg seg p.children = ((handler.table.getD k {}).findChild seg handler.table k).map
        (fun i => (flat.getD i fallbackPlaced).node) ∧
      ∀ i, (handler.table.getD k {}).findChild seg handler.table k = some i → i < flat.length := by
  obtain ⟨offset, hnode, hkids⟩ := h.get hk
  have hfits := h.fits p (mem_of_getElem? hk)
  have hwidth : p.helper.children % 256 = p.children.width := Nat.mod_eq_of_lt hfits.1.width
  rw [findChild_eq_scan, hnode.childrenLength, hnode.childrenOffset, hwidth]
  by_cases hzero : p.children.width = 0
  · rw [hzero, Forest.eq_nil_of_width hzero]
    exact ⟨rfl, fun i hi => nomatch hi⟩
  · obtain ⟨rest, hdrop⟩ := hkids (pos_of_ne_zero hzero)
    have hlength : (kids alg p).length = p.children.width := length_kids p
    have hpos : 0 < (kids alg p).length := by omega
    have hend : k + offset + (kids alg p).length ≤ flat.length := by
      have hdropped := congrArg List.length hdrop
      rw [length_drop, length_append] at hdropped
      omega
    have hbound := h.bound
    have hoffset : (k + offset % 65536) % 256 = (k + offset) % 256 := by omega
    have hprobed := map_probed (fnv1a seg).toNat hdrop (by omega) hpos
    rw [hoffset, ← hlength]
    -- the indices are those of stored nodes
    have hmem : ∀ i ∈ (List.range (kids alg p).length).map (fun i => ((k + offset) % 256 +
        ((fnv1a seg).toNat % (kids alg p).length + i) % (kids alg p).length) % 256),
        i < flat.length := by
      intro i hi
      obtain ⟨j, -, rfl⟩ := mem_map.1 hi
      have hmod : ((fnv1a seg).toNat % (kids alg p).length + j) % (kids alg p).length <
        (kids alg p).length := Nat.mod_lt _ hpos
      omega
    have hstored : ∀ i < flat.length, ∃ off, handler.Holds i (flat.getD i fallbackPlaced).helper off
        (handler.table.getD i {}) := by
      intro i hi
      have hget : flat[i]? = some (flat.getD i fallbackPlaced) := by
        rw [getD_eq_getElem _ _ hi, getElem?_eq_getElem hi]
      obtain ⟨off, hoff, -⟩ := h.get hget
      exact ⟨off, hoff⟩
    refine ⟨?_, fun i hi => hmem i (scan_mem hi)⟩
    rw [scan_map (fun i => (flat.getD i fallbackPlaced).node)]
    · rw [step, probeOrder, ← map_node_kids hfits.2, ← map_rotate, ← hprobed, map_map]
      rfl
    · intro i hi
      obtain ⟨off, hoff⟩ := hstored i (hmem i hi)
      exact hoff.kind
    · intro i hi
      obtain ⟨off, hoff⟩ := hstored i (hmem i hi)
      exact hoff.path

/-- The chain of a node that was stored is its middleware. -/
theorem RouteHandler.Holds.chain {node : RouterNode}
    (h : handler.Holds k p.helper offset node) (hbuilds : p.label.Builds) :
    (handler.middleware.drop node.middlewareOffset).take node.middlewareLength =
        p.label.middlewares ∧
      node.middlewareLength = p.label.middlewares.length := by
  have hown : p.helper.middlewares = p.label.middlewares := hbuilds.makes.middleware
  obtain ⟨front, back, hpool, hfront⟩ := h.middlewares
  rw [h.middlewareLength, hown]
  refine ⟨?_, rfl⟩
  rw [hpool, ← hfront, drop_left, hown, take_left]

/-- A node of the table stands for a node of the forest. -/
def RouteHandler.Serves (handler : RouteHandler H M) (node : RouterNode) (n : Node H M) : Prop :=
  ∃ (k : ℕ) (p : Placed H M) (offset : ℕ), p.node = n ∧ p.Fits ∧
    handler.Holds k p.helper offset node

/-- A walk of the table is a walk of the forest: the same chains are started, and it ends at the
same node. -/
theorem walk_eq (h : handler.Stores alg flat) (segs : List Text) (hk : flat[k]? = some p) :
    (handler.walk segs k (handler.table.getD k {})).1 = (walkNodes alg segs p.node).1 ∧
      Option.Rel handler.Serves (handler.walk segs k (handler.table.getD k {})).2
        (walkNodes alg segs p.node).2 := by
  induction segs generalizing k p with
  | nil =>
    obtain ⟨offset, hnode, -⟩ := h.get hk
    exact ⟨rfl, .some ⟨k, p, offset, rfl, (h.fits p (mem_of_getElem? hk)).1, hnode⟩⟩
  | cons seg rest ih =>
    obtain ⟨hstep, hlt⟩ := findChild_eq h hk seg
    have hchildren : p.node.children = p.children := rfl
    rw [walk, walkNodes, hchildren, hstep]
    cases hfind : (handler.table.getD k {}).findChild seg handler.table k with
    | none => exact ⟨rfl, .none⟩
    | some i =>
      have hi : i < flat.length := hlt i hfind
      have hget : flat[i]? = some (flat.getD i fallbackPlaced) := by
        rw [getD_eq_getElem _ _ hi, getElem?_eq_getElem hi]
      obtain ⟨offset, hnode, -⟩ := h.get hget
      obtain ⟨hchain, hlength⟩ :=
        hnode.chain (h.fits _ (mem_of_getElem? hget)).1.builds
      obtain ⟨hchains, hend⟩ := ih hget
      have hlabel : (flat.getD i fallbackPlaced).node.label = (flat.getD i fallbackPlaced).label :=
        rfl
      dsimp only [Option.map_some]
      rw [hlength] at hchain ⊢
      rw [hlabel]
      split_ifs
      · exact ⟨cons_eq_cons.2 ⟨hchain, hchains⟩, hend⟩
      · exact ⟨hchains, hend⟩

end Walk

end Stores

end Congelado.Routing
