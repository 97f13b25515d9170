import Congelado.Routing.Stored

/-!
# Dispatch through the built table

What `match` does on the table that `build` makes of a registered forest. A forest that could
be registered and built fits (`fits_of_build`), so its nodes are stored (`stores_of_build`) and
the table answers as the scan of the forest does (`matchRequest_eq`). Whether that is the
answer that was registered is decided by `Clear`.
-/

namespace Congelado.Routing

open Sorting Levels List Fallible

variable {H M : Type} {alg : Algorithm} {p : Placed H M} {label : Label H M}

/-! ### What was built fits -/

section Built

variable {forest : Forest H M} {number : ℕ} {handler : RouteHandler H M}

theorem stripSlash_ne_nil {path : Text} (h : path ≠ []) : stripSlash path ≠ [] := by
  unfold stripSlash
  split_ifs with hslash
  · intro hnil
    have hlength := congrArg List.length hnil
    rw [length_tail, length_nil] at hlength
    omega
  · exact h

theorem Label.Builds.segment_ne_nil (h : label.Builds) :
    stripSlash label.path ≠ [] := by
  refine stripSlash_ne_nil fun hnil => ?_
  obtain ⟨route, hroute⟩ := h
  rw [Label.toRoute, Route.new, hnil] at hroute
  cases hroute

theorem Forest.width_le_size (forest : Forest H M) : forest.width ≤ forest.size := by
  induction forest with
  | nil => exact le_rfl
  | route label rest ih => exact Nat.succ_le_succ ih
  | router label children rest _ ih =>
    rw [Forest.width, Forest.size]
    omega

/-- A property of all nodes is one of all entries of the array. -/
theorem Forest.all_iff_entries {P : Label H M → Forest H M → Prop} (forest : Forest H M)
    (base next : ℕ) : forest.All P ↔ ∀ p ∈ entries forest base next, P p.label p.children := by
  induction forest generalizing base next with
  | nil => simp [Forest.All, entries]
  | route label rest ih => rw [Forest.All, entries, forall_mem_cons, ih]
  | router label children rest ihc ih =>
    rw [Forest.All, entries, forall_mem_cons, forall_mem_append, ihc next (next + 1),
      ih base (next + 1 + children.routers)]

theorem Forest.size_le_of_mem {base next : ℕ} (h : p ∈ entries forest base next) :
    p.children.size ≤ forest.size := by
  induction forest generalizing base next with
  | nil => cases h
  | route label rest ih =>
    rw [Forest.size]
    obtain rfl | h := mem_cons.1 h
    · exact Nat.zero_le _
    · exact (ih h).trans (Nat.le_succ _)
  | router label children rest ihc ih =>
    rw [Forest.size]
    obtain rfl | h := mem_cons.1 h
    · show children.size ≤ _
      omega
    · obtain h | h := mem_append.1 h
      · exact (ihc h).trans (by omega)
      · exact (ih h).trans (by omega)

theorem mem_sortRuns {routes : List (Route H M)} {route : Route H M} :
    route ∈ sortRuns alg routes ↔ route ∈ routes := by
  conv_rhs => rw [← flatten_splitBy (fun left right : Route H M =>
    left.baseRouter == right.baseRouter) routes]
  rw [sortRuns, mem_flatMap, mem_flatten]
  exact exists_congr fun run => and_congr_right fun _ => (alg.perm _ _).mem_iff

/-- Every step of a fold that succeeds has succeeded. -/
theorem exists_ok_of_foldlM {α β : Type} {f : β → α → Except String β} {l : List α} {b r : β}
    (h : l.foldlM f b = .ok r) : ∀ x ∈ l, ∃ c c', f c x = .ok c' := by
  refine foldlM_invariant (P := fun pre _ => ∀ x ∈ pre, ∃ c c', f c x = .ok c') (by simp) ?_ h
  intro pre x c c' hpre hstep
  exact forall_mem_concat hpre ⟨c, c', hstep⟩

/-- A router that could be inserted is a literal. -/
theorem literal_of_insertRoute {table table' : List (List (RouterBuildingHelper H M))}
    (hbuilds : p.label.Builds) (hbound : p.children.width < 256)
    (h : insertRoute table p.route = .ok table') (hwidth : p.children.width ≠ 0) :
    (edge (stripSlash p.label.path)).1 = .path := by
  have hpath : p.route.path = stripSlash p.label.path := hbuilds.makes.path
  have hbuild : p.route.isBuild = false := hbuilds.makes.isBuild
  have hchildren : p.route.childRoutes = p.children.width := Nat.mod_eq_of_lt hbound
  rw [insertRoute, hbuild, if_neg (by simp), hpath, determineNodeKind_eq hbuilds.segment_ne_nil,
    ok_bind] at h
  obtain ⟨tag, htag⟩ : ∃ tag, routerTag p.route (edge (stripSlash p.label.path)).1 = .ok tag :=
    (bind_eq_ok_iff.1 h).imp fun _ => And.left
  unfold routerTag at htag
  rw [hchildren, if_pos hwidth] at htag
  cases hkind : (edge (stripSlash p.label.path)).1 with
  | path => rfl
  | param | wild =>
    rw [hkind] at htag
    cases htag

/-- The array that `RouteBuilder::build` works on. -/
theorem build_eq (hnumber : 0 < number) (hbuilds : forest.Builds) :
    (register none forest { nextNumber := number } >>= build alg) =
      (sortRuns alg ((rootPlaced forest number).route :: fallbackPlaced.route ::
        (entries forest 0 number).map Placed.route)).foldlM insertRoute [] >>= fun table =>
          table.foldlM (fun handler r => RouteHandler.addRow r.length r 0 0 handler) {} := by
  rw [(register_none forest hnumber.ne').ok hbuilds, ok_bind, build, zero_add, rootPlaced_route,
    fallbackPlaced_route]
  rfl

theorem builds_of_build (hnumber : 0 < number)
    (h : (register none forest { nextNumber := number } >>= build alg) = .ok handler) :
    forest.Builds := by
  by_contra hnot
  obtain ⟨e, he⟩ : ∃ e, register none forest { nextNumber := number } = .error e :=
    (register_none forest hnumber.ne').error hnot
  rw [he] at h
  cases h

/-- What was registered and built fits. -/
theorem fits_of_build (hnumber : 0 < number) (hsize : forest.size < 255)
    (h : (register none forest { nextNumber := number } >>= build alg) = .ok handler) :
    forest.All Label.Fits := by
  have hbuilds := builds_of_build hnumber h
  rw [build_eq hnumber hbuilds] at h
  obtain ⟨table, htable, -⟩ := bind_eq_ok_iff.1 h
  rw [Forest.all_iff_entries forest 0 number]
  intro p hp
  have hown : p.label.Builds := (Forest.all_iff_entries forest 0 number).1 hbuilds p hp
  have hbound : p.children.width < 256 := by
    have := Forest.size_le_of_mem hp
    have := p.children.width_le_size
    omega
  refine ⟨hown, hown.segment_ne_nil, ?_, hbound⟩
  have hmem : p.route ∈ sortRuns alg ((rootPlaced forest number).route :: fallbackPlaced.route ::
      (entries forest 0 number).map Placed.route) :=
    mem_sortRuns.2 (.tail _ (.tail _ (mem_map_of_mem hp)))
  obtain ⟨c, c', hinsert⟩ := exists_ok_of_foldlM htable _ hmem
  exact literal_of_insertRoute hown hbound hinsert

theorem fits_root (hwidth : forest.width < 256) :
    Label.Fits (⟨['/'], [], []⟩ : Label H M) forest where
  builds := ⟨_, built_root⟩
  segment := cons_ne_nil _ _
  literal := fun _ => rfl
  width := hwidth

theorem fits_fallback : Label.Fits (⟨['*'], [], []⟩ : Label H M) .nil where
  builds := ⟨_, built_fallback⟩
  segment := cons_ne_nil _ _
  literal := fun h => absurd rfl h
  width := Nat.zero_lt_succ _

theorem length_rows (forest : Forest H M) (number : ℕ) :
    (rows alg forest number).flatten.length = forest.size + 2 := by
  rw [rows, flatten_cons, length_append, length_flatten_levels, length_nil,
    zero_add, add_comm]
  rfl

/-- The table that was built stores the rows, and nothing else. -/
theorem stores_of_build (hnumber : 0 < number) (hsize : forest.size < 255)
    (h : (register none forest { nextNumber := number } >>= build alg) = .ok handler) :
    handler.Stores alg (rows alg forest number).flatten ∧
      handler.table.length = forest.size + 2 := by
  have hfits := fits_of_build hnumber hsize h
  have hwidth : forest.width < 256 := by
    have := forest.width_le_size
    omega
  rw [build_eq hnumber (builds_of_build hnumber h), insert_rows hfits hwidth hnumber, ok_bind] at h
  refine ⟨stores_of_foldlM (layered_rows forest number) ?_ ?_ h, ?_⟩
  · intro r hr p hp
    obtain rfl | hr := mem_cons.1 hr
    · obtain rfl | hp := mem_cons.1 hp
      · exact ⟨fits_root hwidth, hfits⟩
      · rw [mem_singleton.1 hp]
        exact ⟨fits_fallback, trivial⟩
    · exact mem_levels forest hfits (by simp) r hr p hp
  · rw [length_rows]
    omega
  · rw [foldlM_addRow] at h
    exact (holds_of_foldlM h).1.trans ((length_offsets _).trans (length_rows forest number))

end Built

/-! ### The request -/

section Request

variable {forest : Forest H M} {handler : RouteHandler H M} {node : RouterNode} {n : Node H M}

/-- The handler that the mask of a stored node gives a method. -/
theorem RouteHandler.Serves.poolFind (h : handler.Serves node n) (method : Method) :
    Routing.poolFind handler.handler node.handlerOffset node.handlerMask method =
      n.found method := by
  obtain ⟨k, p, offset, rfl, hfits, hnode⟩ := h
  have hregistered : Registered p.label.handlers p.helper.handlers := hfits.builds.makes.handler
  obtain ⟨front, back, hpool, hfront⟩ := hnode.handlers
  rw [hnode.mask]
  refine hregistered.find _ _ (fun i hi => ?_) method
  rw [hpool, ← hfront, getElem?_append_right (Nat.le_add_right _ _), Nat.add_sub_cancel_left,
    getElem?_append_left hi]

theorem RouteHandler.Serves.mask_eq_iff (h : handler.Serves node n) :
    node.handlerMask = handlerMask ↔ n.label.handlers = [] := by
  obtain ⟨k, p, offset, rfl, hfits, hnode⟩ := h
  rw [hnode.mask]
  exact hfits.builds.makes.handler.mask_eq_iff

/-- An entry of the table shows a node of the forest, for the nodes that the entries of the whole
table show: its segment, its own handlers and its own middleware, and its children where the offset
points. -/
structure RouteHandler.Shows (handler : RouteHandler H M) (nodes : List (Node H M)) (i : ℕ)
    (entry : RouterNode) (n : Node H M) : Prop where
  kind : entry.kind = n.kind
  path : entry.path = n.literal
  childrenLength : entry.childrenLength = n.children.siblings.length
  children :
    ((nodes.drop (i + entry.childrenOffset)).take entry.childrenLength).Perm n.children.siblings
  handlers : (handler.handler.drop entry.handlerOffset).take n.label.handlers.length =
    n.label.handlers.map Prod.snd
  found : ∀ method, Routing.poolFind handler.handler entry.handlerOffset entry.handlerMask method =
    n.found method
  middlewares : (handler.middleware.drop entry.middlewareOffset).take entry.middlewareLength =
    n.label.middlewares

theorem RouteHandler.Stores.shows {flat : List (Placed H M)} (h : handler.Stores alg flat) {i : ℕ}
    (hi : flat[i]? = some p) {entry : RouterNode}
    (hentry : handler.table[i]? = some entry) :
    handler.Shows (flat.map Placed.node) i entry p.node := by
  obtain ⟨offset, node, hnode, hkids⟩ := h.holds i p hi
  obtain rfl : node = entry := Option.some.inj (hnode.get.symm.trans hentry)
  have hfits := h.fits p (mem_of_getElem? hi)
  have horder : ((kids alg p).map Placed.node).Perm p.children.siblings := by
    rw [map_node_kids hfits.2]
    exact order_perm alg p.children
  have hwidth : node.childrenLength = (kids alg p).length := by
    rw [hnode.childrenLength, length_kids]
    exact Nat.mod_eq_of_lt hfits.1.width
  obtain ⟨front, back, hpool, hfront⟩ := hnode.handlers
  have hregistered : Registered p.label.handlers p.helper.handlers := hfits.1.builds.makes.handler
  refine ⟨hnode.kind, hnode.path, ?_, ?_, ?_, ?_, (hnode.chain hfits.1.builds).1⟩
  · rw [hwidth, ← length_map Placed.node, horder.length_eq]
    rfl
  · rw [hwidth, ← map_drop, ← map_take]
    by_cases hzero : p.children.width = 0
    · rw [length_kids, hzero, take_zero]
      rwa [eq_nil_of_length_eq_zero ((length_kids p).trans hzero)] at horder
    · -- the offset is not cut off: the children are within the table
      obtain ⟨rest, hdrop⟩ := hkids (pos_of_ne_zero hzero)
      have hlength := congrArg List.length hdrop
      rw [length_drop, length_append, length_kids] at hlength
      have hbound := h.bound
      rwa [hnode.childrenOffset, Nat.mod_eq_of_lt (by omega), hdrop, take_left]
  · have hlength : p.label.handlers.length = p.helper.handlers.handler.length := by
      rw [hregistered.handler, length_map]
    show (handler.handler.drop _).take p.label.handlers.length = p.label.handlers.map Prod.snd
    rw [hpool, ← hfront, drop_left, hlength, take_left, hregistered.handler]
  · exact RouteHandler.Serves.poolFind ⟨i, p, offset, rfl, hfits.1, hnode⟩

/-- **The flattened table.** The table that is built from a registered forest has an entry for every
node, the root and the fallback, the root first. The entries in the range of an entry show the nodes
registered under the node that it shows, and every entry points to the handlers and the middleware
of its own node. -/
theorem table_shows_forest {number : ℕ} (hnumber : 0 < number) (hsize : forest.size < 255)
    (h : (register none forest { nextNumber := number } >>= build alg) = .ok handler) :
    ∃ nodes : List (Node H M), nodes.length = handler.table.length ∧
      nodes.length = forest.size + 2 ∧
      nodes[0]? = some (rootNode forest) ∧
      ∀ i entry, handler.table[i]? = some entry →
        ∃ n, nodes[i]? = some n ∧ handler.Shows nodes i entry n := by
  obtain ⟨hstores, hlength⟩ := stores_of_build hnumber hsize h
  refine ⟨(rows alg forest number).flatten.map Placed.node, ?_, ?_, rfl, fun i entry hentry => ?_⟩
  · rw [length_map, length_rows, hlength]
  · rw [length_map, length_rows]
  · obtain ⟨hi, -⟩ := List.getElem?_eq_some_iff.1 hentry
    rw [hlength, ← length_rows forest number] at hi
    have hget := getElem?_eq_getElem hi
    exact ⟨_, by rw [getElem?_map, hget]; rfl, hstores.shows hget hentry⟩

/-- `/x` with a middleware, and `/:id`. -/
def nestedRoutes : Forest String String :=
  .route ⟨"/x".toList, ["log"], [(.get, "x")]⟩ <| .route ⟨"/:id".toList, [], [(.get, "id")]⟩ .nil

/-- `/a`, and a router at `/v` with a middleware. -/
def nestedForest : Forest String String :=
  .route ⟨"/a".toList, [], [(.get, "a"), (.post, "b")]⟩ <|
    .router ⟨"/v".toList, ["auth"], []⟩ nestedRoutes .nil

theorem exists_build_nested : ∃ handler : RouteHandler String String,
    (register none nestedForest { nextNumber := 1 } >>= build Sorting.insertion) = .ok handler := by
  have hok :
      (register none nestedForest { nextNumber := 1 } >>= build Sorting.insertion).toOption.isSome
      = true := by decide +kernel
  cases hbuild : register none nestedForest { nextNumber := 1 } >>= build Sorting.insertion with
  | error e =>
    rw [hbuild] at hok
    cases hok
  | ok handler => exact ⟨handler, rfl⟩

theorem table_shows_nested : ∃ (handler : RouteHandler String String)
      (nodes : List (Node String String)),
    nodes.length = handler.table.length ∧ nodes.length = 6 ∧
    nodes[0]? = some (rootNode nestedForest) ∧
    ∀ i entry, handler.table[i]? = some entry →
      ∃ n, nodes[i]? = some n ∧ handler.Shows nodes i entry n := by
  obtain ⟨handler, hbuild⟩ := exists_build_nested
  exact ⟨handler, table_shows_forest (by decide) (by decide) hbuild⟩

/-- `match` on the built table starts the chains of the walk of the forest, and runs the handler
that the walk ends with. -/
theorem matchRequest_eq {number : ℕ} (hnumber : 0 < number) (hsize : forest.size < 255)
    (h : (register none forest { nextNumber := number } >>= build alg) = .ok handler)
    (method : Method) (path : Text) :
    (handler.matchRequest method path).chains =
        (walkNodes alg (splitPath path) (rootNode forest)).1 ∧
      (handler.matchRequest method path).result.toOption =
        dispatch alg method (splitPath path) (rootNode forest) := by
  obtain ⟨hchains, hend⟩ := walk_eq (stores_of_build hnumber hsize h).1 (splitPath path)
    (show (rows alg forest number).flatten[0]? = some (rootPlaced forest number) from rfl)
  have hroot : (rootPlaced forest number).node = rootNode forest := rfl
  rw [hroot] at hchains hend
  unfold RouteHandler.matchRequest dispatch
  dsimp only
  cases hwalk : (handler.walk (splitPath path) 0 (handler.table.getD 0 {})).2 with
  | none =>
    rw [hwalk] at hend
    cases hwalk' : (walkNodes alg (splitPath path) (rootNode forest)).2 with
    | none => exact ⟨hchains, rfl⟩
    | some n =>
      rw [hwalk'] at hend
      cases hend
  | some node =>
    rw [hwalk] at hend
    cases hwalk' : (walkNodes alg (splitPath path) (rootNode forest)).2 with
    | none =>
      rw [hwalk'] at hend
      cases hend
    | some n =>
      rw [hwalk'] at hend
      obtain hserves : handler.Serves node n := by
        cases hend with
        | some hserves => exact hserves
      dsimp only [Option.bind_some]
      rw [hserves.poolFind]
      by_cases hmask : node.handlerMask = handlerMask
      · -- a node without handlers is told apart by its mask
        have hfound : n.found method = none := by
          rw [Node.found, hserves.mask_eq_iff.1 hmask]
          rfl
        rw [if_neg (not_not.2 hmask), hfound]
        exact ⟨hchains, rfl⟩
      · rw [if_pos hmask]
        cases n.found method with
        | none => exact ⟨hchains, rfl⟩
        | some fn => exact ⟨hchains, rfl⟩

end Request

/-! ### The registered handler -/

section Answers

variable {forest : Forest H M}

theorem Label.Fits.sound {children : Forest H M} (h : label.Fits children)
    (hdistinct : children.Distinct) : label.Sound children where
  distinct := hdistinct
  leaf := fun hkind => not_not.1 fun hwidth => hkind (h.literal hwidth)
  lanes := pairwise_map.2 h.builds.makes.handler.distinct

theorem Forest.All.and {P Q R : Label H M → Forest H M → Prop} {forest : Forest H M}
    (hP : forest.All P) (hQ : forest.All Q)
    (h : ∀ label children, P label children → Q label children → R label children) :
    forest.All R := by
  rw [Forest.all_iff_entries forest 0 0] at *
  exact fun p hp => h _ _ (hP p hp) (hQ p hp)

/-- A forest that was built is sound, if its siblings are told apart. -/
theorem sound_of_build {number : ℕ} (hnumber : 0 < number) (hsize : forest.size < 255)
    (hdistinct : (rootNode forest).All fun _ children => children.Distinct)
    {handler : RouteHandler H M}
    (h : (register none forest { nextNumber := number } >>= build alg) = .ok handler) :
    (rootNode forest).All Label.Sound := by
  have hwidth : forest.width < 256 := by
    have := forest.width_le_size
    omega
  exact ⟨(fits_root hwidth).sound hdistinct.1,
    (fits_of_build hnumber hsize h).and hdistinct.2 fun _ _ => Label.Fits.sound⟩

/-- The table built from a forest whose siblings are told apart answers every request with the
handler that was registered, or with none where none was, if the way of the request is clear;
and only then, if no handler was registered on two siblings. -/
theorem match_runs_registered_iff_clear {number : ℕ} (hnumber : 0 < number)
    (hsize : forest.size < 255)
    (hdistinct : (rootNode forest).All fun _ children => children.Distinct)
    {handler : RouteHandler H M}
    (h : (register none forest { nextNumber := number } >>= build alg) = .ok handler)
    (method : Method) (path : Text) :
    (Clear alg method (splitPath path) (rootNode forest) →
      (handler.matchRequest method path).result.toOption =
        answer method (splitPath path) (rootNode forest)) ∧
    ((rootNode forest).All (fun _ children => children.Apart) →
      (handler.matchRequest method path).result.toOption =
        answer method (splitPath path) (rootNode forest) →
      Clear alg method (splitPath path) (rootNode forest)) := by
  have hsound := sound_of_build hnumber hsize hdistinct h
  rw [(matchRequest_eq hnumber hsize h method path).2]
  exact ⟨dispatch_eq_answer hsound, clear_of_dispatch_eq_answer hsound⟩

end Answers

theorem match_runs_registered_nested : ∃ handler : RouteHandler String String,
    (register none nestedForest { nextNumber := 1 } >>= build Sorting.insertion) = .ok handler ∧
    (handler.matchRequest .get "/v/b".toList).result.toOption =
      answer .get (splitPath "/v/b".toList) (rootNode nestedForest) := by
  obtain ⟨handler, hbuild⟩ := exists_build_nested
  have hdistinct : (rootNode nestedForest).All fun _ children => children.Distinct := by
    refine ⟨?_, ?_, ?_, ⟨?_, ?_, trivial⟩, trivial⟩ <;> unfold Forest.Distinct <;> decide +kernel
  refine ⟨handler, hbuild, (match_runs_registered_iff_clear (by decide) (by decide)
    hdistinct hbuild .get "/v/b".toList).1 ?_⟩
  have hsegs : splitPath "/v/b".toList = ["v".toList, "b".toList] := by decide +kernel
  have hrouter : pick "v".toList (rootNode nestedForest).children.siblings =
      some ⟨⟨"/v".toList, ["auth"], []⟩, nestedRoutes⟩ := by rfl
  have hroute : pick "b".toList nestedRoutes.siblings =
      some ⟨⟨"/:id".toList, [], [(.get, "id")]⟩, .nil⟩ := by rfl
  rw [hsegs]
  intro c hc
  obtain rfl := Option.some.inj (hrouter.symm.trans hc)
  -- neither at `/` nor at `/v` is a param child before one with the name of the segment
  refine ⟨fun _ c hc => ?_, fun h => absurd h (not_shadows _ _ (by decide +kernel))⟩
  obtain rfl := Option.some.inj (hroute.symm.trans hc)
  exact ⟨fun _ => by simp [Clear], fun h => absurd h (not_shadows _ _ (by decide +kernel))⟩

/-! ### A path that is in the way -/

/-- `/:id`, the router `/x` with the route `/c`, and `/a`, each with a handler for `GET`. -/
def shadowForest : Forest String Unit :=
  .route ⟨"/:id".toList, [], [(.get, "id")]⟩ <|
  .router ⟨"/x".toList, [], []⟩ (.route ⟨"/c".toList, [], [(.get, "c")]⟩ .nil) <|
  .route ⟨"/a".toList, [], [(.get, "a")]⟩ .nil

/-- `GET /x/c` ends at the param child `/:id`, which the probe for `x` meets first: the route is
not found, although it was registered. -/
theorem param_child_hides_router :
    (((register none shadowForest { nextNumber := 1 } >>= build Sorting.insertion).toOption.map
      fun handler => (handler.matchRequest .get "/x/c".toList).result)) =
        some (.error "Route not found") ∧
    answer .get (splitPath "/x/c".toList) (rootNode shadowForest) = some "c" := by
  decide +kernel

end Congelado.Routing
