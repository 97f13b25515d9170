import Congelado.Lib.Levels
import Congelado.Routing.Registration

/-!
# The layout of the table

The array is in preorder, so a run of routes with the same base router consists of siblings
that were registered in a row: leaves, and at the end at most one router that has children,
since its children follow it. Sorting a run in place therefore moves a router only among
leaves (`arranged`), and the children of the routers of a row come in the order of the
routers (`levels`, `layered_levels`). This is what the offsets of the table rely on:
`RouteHandler.Stores` says that the children of the node at an index are where the offset
of the node points.
-/

namespace Congelado.Routing

open Sorting Levels List Fallible Placed

variable {H M : Type} {p : Placed H M} {next : ℕ}

/-! ### Sorted runs -/

section Arranged

variable (alg : Algorithm) {run : List (Placed H M)} {forest : Forest H M} {base : ℕ}
    {tail : List (Route H M)}

/-- A run of siblings in the order in which `build` leaves them. -/
def sortRun (run : List (Placed H M)) : List (Placed H M) :=
  alg.sort (fun a b => less run.length a.route b.route) run

/-- The array below the router `base`, run by run; the routes of `run` come before. -/
def arranged : Forest H M → ℕ → ℕ → List (Placed H M) → List (Placed H M)
  | .nil, _, _, run => sortRun alg run
  | .route label rest, base, next, run => arranged rest base next (run ++ [asRoute label base])
  | .router label children rest, base, next, run =>
    let run := run ++ [asRouter label base next children]
    let after := next + 1 + children.routers
    if children.width = 0 then arranged rest base after run
    else sortRun alg run ++ arranged children next (next + 1) [] ++ arranged rest base after []

/-- The same routes by depth. -/
def levels : Forest H M → ℕ → ℕ → List (Placed H M) → List (List (Placed H M))
  | .nil, _, _, run => if run = [] then [] else [sortRun alg run]
  | .route label rest, base, next, run => levels rest base next (run ++ [asRoute label base])
  | .router label children rest, base, next, run =>
    let run := run ++ [asRouter label base next children]
    let after := next + 1 + children.routers
    if children.width = 0 then levels rest base after run
    else beside (sortRun alg run :: levels children next (next + 1) []) (levels rest base after [])

/-- The children of a node in the order of the table. -/
def kids (p : Placed H M) : List (Placed H M) :=
  row (levels alg p.children p.number p.next []) 0

variable {alg}

theorem mem_sortRun : p ∈ sortRun alg run ↔ p ∈ run :=
  (alg.perm _ _).mem_iff

theorem sortRun_nil : sortRun alg ([] : List (Placed H M)) = [] :=
  (alg.perm _ _).eq_nil

theorem length_sortRun (run : List (Placed H M)) : (sortRun alg run).length = run.length :=
  (alg.perm _ _).length_eq

theorem Forest.eq_nil_of_width (h : forest.width = 0) : forest = .nil := by
  cases forest with
  | nil => rfl
  | route | router => cases h

/-- What comes first in the array below a router: one of its children, or what follows. -/
theorem entries_head
    {P : Option ℕ → Prop} (hbase : P (some base)) (htail : ∀ t ∈ tail.head?, P t.baseRouter) :
    ∀ t ∈ ((entries forest base next).map route ++ tail).head?, P t.baseRouter := by
  cases forest with
  | nil => exact htail
  | route | router =>
    intro t ht
    cases ht
    exact hbase

theorem entries_head_of_ne (hforest : forest.width ≠ 0) :
    ∀ t ∈ ((entries forest base next).map route ++ tail).head?,
    t.baseRouter = some base := by
  cases forest with
  | nil => exact absurd rfl hforest
  | route | router =>
    intro t ht
    cases ht
    rfl

/-- A run is cut off where the base router changes, and sorted. -/
theorem sortRuns_run {base : ℕ}
    (hrun : ∀ p ∈ run, p.base = some base) (htail : ∀ t ∈ tail.head?, t.baseRouter ≠ some base) :
    sortRuns alg (run.map route ++ tail) =
      (sortRun alg run).map route ++ sortRuns alg tail := by
  by_cases hne : run = []
  · rw [hne, sortRun_nil]
    rfl
  have hbase : ∀ t ∈ run.map route, t.baseRouter = some base := by
    intro t ht
    obtain ⟨p, hp, rfl⟩ := mem_map.1 ht
    exact hrun p hp
  have hcut : ∀ x ∈ (run.map route).getLast?, ∀ y ∈ tail.head?,
      (x.baseRouter == y.baseRouter) = false := by
    intro x hx y hy
    rw [hbase x (mem_of_getLast? hx)]
    exact beq_false_of_ne (Ne.symm (htail y hy))
  have hchain : (run.map route).IsChain
      fun x y => (x.baseRouter == y.baseRouter) = true := by
    refine List.Pairwise.isChain (pairwise_of_forall_mem_list fun x hx y hy => ?_)
    rw [hbase x hx, hbase y hy, beq_self_eq_true]
  have hsort : (sortRun alg run).map route =
      alg.sort (less (run.map route).length) (run.map route) := by
    rw [length_map]
    exact alg.map _ _ _ _ fun _ _ _ _ => rfl
  rw [sortRuns, splitBy_append hcut, splitBy_of_isChain (by simpa using hne) hchain, hsort]
  rfl

theorem forall_mem_concat {α : Type} {P : α → Prop} {l : List α} {x : α} (h : ∀ a ∈ l, P a)
    (hx : P x) : ∀ a ∈ l ++ [x], P a :=
  forall_mem_append.2 ⟨h, forall_mem_singleton.2 hx⟩

/-- A base router that does not belong to a forest whose routers are numbered from `next`. -/
def Outside (base next : ℕ) (b : Option ℕ) : Prop := ∃ n, b = some n ∧ n < next ∧ n ≠ base

/-- Sorting the array of a forest run by run. -/
theorem sortRuns_entries (forest : Forest H M)
    (hrun : ∀ p ∈ run, p.base = some base) (hlt : base < next)
    (htail : ∀ t ∈ tail.head?, Outside base next t.baseRouter) :
    sortRuns alg ((run ++ entries forest base next).map route ++ tail) =
      (arranged alg forest base next run).map route ++ sortRuns alg tail := by
  induction forest generalizing base next run tail with
  | nil =>
    rw [entries, append_nil, arranged]
    refine sortRuns_run hrun fun t ht => ?_
    obtain ⟨n, hn, -, hne⟩ := htail t ht
    rw [hn]
    exact fun h => hne (Option.some.inj h)
  | route label rest ih =>
    rw [entries, arranged, ← ih (forall_mem_concat hrun rfl) hlt htail, append_assoc]
    rfl
  | router label children rest ihc ih =>
    have hrun' : ∀ p ∈ run ++ [asRouter label base next children],
        p.base = some base := forall_mem_concat hrun rfl
    have hafter : base < next + 1 + children.routers := by omega
    have htail' : ∀ t ∈ tail.head?, Outside base (next + 1 + children.routers) t.baseRouter := by
      intro t ht
      obtain ⟨n, hn, hlt, hne⟩ := htail t ht
      exact ⟨n, hn, by omega, hne⟩
    rw [entries, arranged]
    split_ifs with hwidth
    · -- a router without children is a leaf like the others
      obtain rfl := Forest.eq_nil_of_width hwidth
      rw [← ih hrun' hafter htail', append_assoc]
      rfl
    · have hsplit : (run ++ asRouter label base next children ::
            (entries children next (next + 1) ++
              entries rest base (next + 1 + children.routers))).map route ++ tail =
          (run ++ [asRouter label base next children]).map route ++
            (([] ++ entries children next (next + 1)).map route ++
              (([] ++ entries rest base (next + 1 + children.routers)).map route ++
                tail)) := by
        simp only [map_append, map_cons, map_nil, append_assoc, cons_append,
          nil_append]
      rw [hsplit, sortRuns_run hrun', ihc (by simp) next.lt_succ_self, ih (by simp) hafter htail']
      · simp only [map_append, append_assoc]
      · -- after the children comes a sibling of the router, or what comes after all of them
        refine entries_head ⟨base, rfl, by omega, by omega⟩ fun t ht => ?_
        obtain ⟨n, hn, hn', -⟩ := htail t ht
        exact ⟨n, hn, by omega, by omega⟩
      · intro t ht
        rw [entries_head_of_ne hwidth t ht]
        exact fun h => absurd (Option.some.inj h) (by omega)

end Arranged

/-! ### Rows -/

section Rows

variable {alg : Algorithm} {run : List (Placed H M)}

theorem kids_of_nil (h : p.children = .nil) : kids alg p = [] := by
  rw [kids, h, levels, if_pos rfl]
  rfl

/-- A run has the children of the one router in it. -/
theorem flatMap_sortRun (hrun : ∀ q ∈ run, q.children = .nil) :
    (sortRun alg (run ++ [p])).flatMap (kids alg) = kids alg p := by
  have hmem : p ∈ sortRun alg (run ++ [p]) := mem_sortRun.2 (by simp)
  obtain ⟨front, back, hsplit⟩ := append_of_mem hmem
  have hperm : (front ++ back).Perm run := by
    have hsort : (front ++ p :: back).Perm (run ++ [p]) := hsplit ▸ alg.perm _ _
    have hfront := perm_middle.symm.trans (hsort.trans (perm_append_singleton _ _))
    exact hfront.cons_inv
  have hnone : ∀ q ∈ front ++ back, kids alg q = [] :=
    fun q hq => kids_of_nil (hrun q (hperm.mem_iff.1 hq))
  rw [hsplit, flatMap_append, flatMap_cons,
    flatMap_eq_nil_iff.2 fun q hq => hnone q (mem_append_left _ hq),
    flatMap_eq_nil_iff.2 fun q hq => hnone q (mem_append_right _ hq),
    nil_append, append_nil]

/-- Each row consists of the children of the row before it, in the order of their parents. -/
theorem layered_levels (forest : Forest H M) {base next : ℕ} (hrun : ∀ q ∈ run, q.children = .nil) :
    Layered (kids alg) (levels alg forest base next run) := by
  induction forest generalizing base next run with
  | nil =>
    rw [levels]
    split_ifs
    · exact .nil
    · refine .cons .nil (flatMap_eq_nil_iff.2 fun q hq => ?_).symm
      exact kids_of_nil (hrun q (mem_sortRun.1 hq))
  | route label rest ih =>
    rw [levels]
    exact ih (forall_mem_concat hrun rfl)
  | router label children rest ihc ih =>
    rw [levels]
    split_ifs with hwidth
    · exact ih (forall_mem_concat hrun (Forest.eq_nil_of_width hwidth))
    · have hkids : (sortRun alg (run ++ [asRouter label base next children])).flatMap (kids alg) =
          row (levels alg children next (next + 1) []) 0 := flatMap_sortRun hrun
      exact .beside (.cons (ihc (by simp)) hkids.symm) (ih (by simp))

end Rows

/-! ### Insertion -/

section Insertion

variable {alg : Algorithm} {run : List (Placed H M)}
    {table : List (List (RouterBuildingHelper H M))} {base depth : ℕ}

/-- The kind and the literal of a segment. -/
def edge (path : Text) : EdgeKind × Text :=
  match determineNodeKind path with
  | .ok edge => edge
  | .error _ => (.path, [])

/-- What `insert_route` asks of a node: its segment is not empty, and it is a literal if the
node has children. -/
structure Label.Fits (label : Label H M) (children : Forest H M) : Prop where
  builds : label.Builds
  segment : stripSlash label.path ≠ []
  literal : children.width ≠ 0 → (edge (stripSlash label.path)).1 = .path
  width : children.width < 256

abbrev Placed.Fits (p : Placed H M) : Prop := p.label.Fits p.children

/-- The node of the building table. -/
def Placed.helper (p : Placed H M) : RouterBuildingHelper H M where
  kind := (edge (stripSlash p.label.path)).1
  literal := (edge (stripSlash p.label.path)).2
  handlers := p.label.built.handler
  middlewares := p.label.built.middleware
  children := p.children.width
  routerNumber := if p.children.width ≠ 0 then p.number else 0

theorem determineNodeKind_eq {path : Text} (h : path ≠ []) :
    determineNodeKind path = .ok (edge path) := by
  unfold edge determineNodeKind
  rw [if_neg h]
  split_ifs <;> rfl

/-- A table in which a router number is found first in the row `depth`. -/
def Finds (table : List (List (RouterBuildingHelper H M))) (base depth : ℕ) : Prop :=
  ∃ pre r post, table = pre ++ r :: post ∧ pre.length = depth ∧
    (∀ r' ∈ pre, ∀ x ∈ r', x.routerNumber ≠ base) ∧ ∃ x ∈ r, x.routerNumber = base

section Finds

variable {rows : List (List (RouterBuildingHelper H M))}

section

variable (h : Finds table base depth)

include h

theorem Finds.lt_length : depth < table.length := by
  obtain ⟨pre, r, post, rfl, rfl, -, -⟩ := h
  simp

theorem Finds.resolveTargetRow {route : Route H M}
    (hbase : route.baseRouter = some base) : resolveTargetRow table route = .ok (depth + 1) := by
  obtain ⟨pre, r, post, rfl, rfl, hpre, x, hx, hxbase⟩ := h
  have hnone : ∀ r' ∈ pre, (r'.any fun x => x.routerNumber == base) = false := by
    intro r' hr'
    rw [any_eq_false]
    intro x hx
    simpa using hpre r' hr' x hx
  have hfound : (r.any fun x => x.routerNumber == base) = true :=
    any_eq_true.2 ⟨x, hx, by simpa using hxbase⟩
  have hidx : ((pre ++ r :: post).findIdx fun r => r.any fun x => x.routerNumber == base) =
      pre.length := by
    rw [findIdx_append, findIdx_cons, hfound, cond_true,
      findIdx_eq_length_of_false hnone]
    simp
  unfold Routing.resolveTargetRow
  rw [hbase]
  simp only [hidx]
  rw [if_neg (by simp)]

theorem Finds.graft {k : ℕ} (hk : depth < k) :
    Finds (graft k rows table) base depth := by
  obtain ⟨pre, r, post, rfl, rfl, hpre, hx⟩ := h
  obtain ⟨j, rfl⟩ : ∃ j, k = pre.length + (j + 1) := ⟨k - pre.length - 1, by omega⟩
  refine ⟨pre, r, post.take j ++ beside (post.drop j) rows, ?_, rfl, hpre, hx⟩
  rw [Levels.graft, take_length_add_append, drop_length_add_append, take_succ_cons,
    drop_succ_cons, append_assoc]
  rfl

end

end Finds

theorem pushRow_eq {α : Type} {table : List (List α)} {depth : ℕ} (h : depth ≤ table.length)
    (x : α) :
    pushRow table depth x = graft depth [[x]] table := by
  obtain ⟨pre, post, rfl, rfl⟩ := exists_split h
  have hmodify : ∀ (r : List α) (post : List (List α)),
      (pre ++ r :: post).modify pre.length (· ++ [x]) = pre ++ (r ++ [x]) :: post := by
    intro r post
    clear h
    induction pre with
    | nil => rfl
    | cons r' pre ih => exact congrArg (r' :: ·) ih
  rw [graft_append, pushRow]
  cases post with
  | nil =>
    have hgrow : pre.length + 1 - (pre ++ []).length = 1 := by simp
    rw [hgrow, append_nil]
    exact hmodify [] []
  | cons r post =>
    have hgrow : pre.length + 1 - (pre ++ r :: post).length = 0 := by simp
    rw [hgrow, replicate_zero, append_nil, hmodify]
    show _ = pre ++ (r ++ [x]) :: beside post []
    rw [beside_nil]

theorem insertRoute_placed (hfits : p.Fits) (hbase : p.base = some base)
    (hfinds : Finds table base depth) :
    insertRoute table p.route = .ok (graft (depth + 1) [[p.helper]] table) := by
  have hmakes := hfits.builds.makes
  have hpath : p.route.path = stripSlash p.label.path := hmakes.path
  have hwidth : p.route.childRoutes = p.children.width := Nat.mod_eq_of_lt hfits.width
  have htag : routerTag p.route (edge (stripSlash p.label.path)).1 =
      .ok (if p.children.width ≠ 0 then p.number else 0) := by
    unfold routerTag
    rw [hwidth]
    split_ifs with hchildren
    · rw [hfits.literal hchildren]
      rfl
    · rfl
  unfold insertRoute
  rw [if_neg (by rw [show p.route.isBuild = false from hmakes.isBuild]; decide), hpath,
    determineNodeKind_eq hfits.segment, ok_bind]
  dsimp only
  rw [htag, ok_bind, hfinds.resolveTargetRow hbase, ok_bind, pushRow_eq hfinds.lt_length, hwidth]
  rfl

/-- The routes of a run go into one row. -/
theorem insert_run (hrun : ∀ q ∈ p :: run, q.Fits ∧ q.base = some base)
    (hfinds : Finds table base depth) :
    ((p :: run).map route).foldlM insertRoute table =
      .ok (graft (depth + 1) [(p :: run).map helper] table) := by
  induction run generalizing p table with
  | nil =>
    rw [map_cons, foldlM_cons, insertRoute_placed (hrun p (.head _)).1 (hrun p (.head _)).2 hfinds]
    rfl
  | cons q run ih =>
    rw [map_cons, foldlM_cons,
      insertRoute_placed (hrun p (.head _)).1 (hrun p (.head _)).2 hfinds, ok_bind,
      ih (fun q hq => hrun q (.tail _ hq)) (hfinds.graft depth.lt_succ_self),
      graft_graft hfinds.lt_length]
    rfl

theorem insert_sortRun (hne : run ≠ []) (hrun : ∀ q ∈ run, q.Fits ∧ q.base = some base)
    (hfinds : Finds table base depth) :
    ((sortRun alg run).map route).foldlM insertRoute table =
      .ok (graft (depth + 1) [(sortRun alg run).map helper] table) := by
  have hsorted : ∀ q ∈ sortRun alg run, q.Fits ∧ q.base = some base :=
    fun q hq => hrun q (mem_sortRun.1 hq)
  have hlength : (sortRun alg run).length ≠ 0 := by
    rw [length_sortRun]
    exact fun h => hne (length_eq_zero_iff.1 h)
  cases hsort : sortRun alg run with
  | nil => exact absurd (congrArg List.length hsort) hlength
  | cons p rest => exact insert_run (hsort ▸ hsorted) hfinds

/-- All router numbers of a table are below `next`. -/
def TagsBelow (next : ℕ) (table : List (List (RouterBuildingHelper H M))) : Prop :=
  ∀ r ∈ table, ∀ x ∈ r, x.routerNumber < next

theorem TagsBelow.mono {next next' : ℕ}
    (h : TagsBelow next table) (hle : next ≤ next') : TagsBelow next' table :=
  fun r hr x hx => (h r hr x hx).trans_le hle

theorem TagsBelow.graft {next depth : ℕ} {table rows : List (List (RouterBuildingHelper H M))}
    (h : TagsBelow next table) (hrows : TagsBelow next rows) :
    TagsBelow next (graft depth rows table) := by
  intro r hr x hx
  obtain ⟨r', hr', hx⟩ | ⟨r', hr', hx⟩ := mem_graft hr hx
  · exact h r' hr' x hx
  · exact hrows r' hr' x hx

theorem TagsBelow.beside {a b : List (List (RouterBuildingHelper H M))}
    (ha : TagsBelow next a) (hb : TagsBelow next b) : TagsBelow next (beside a b) := by
  have hgraft : TagsBelow next (Levels.graft 0 b a) := ha.graft hb
  rwa [Levels.graft, take_zero, drop_zero, nil_append] at hgraft

theorem helper_tag_of_nil (h : p.children = .nil) : p.helper.routerNumber = 0 := by
  rw [helper, h]
  rfl

theorem tagsBelow_sortRun (h : ∀ q ∈ run, q.helper.routerNumber < next) :
    TagsBelow next [(sortRun alg run).map helper] := by
  intro r hr x hx
  obtain rfl := mem_singleton.1 hr
  obtain ⟨q, hq, rfl⟩ := mem_map.1 hx
  exact h q (mem_sortRun.1 hq)

variable (forest : Forest H M)

/-- The rows of a forest have the numbers of its routers. -/
theorem tagsBelow_levels {base next : ℕ}
    (hnext : 0 < next) (hrun : ∀ q ∈ run, q.children = .nil) :
    TagsBelow (next + forest.routers)
      ((levels alg forest base next run).map (List.map helper)) := by
  have hzero : ∀ run : List (Placed H M), (∀ q ∈ run, q.children = .nil) → ∀ next > 0,
      ∀ q ∈ run, q.helper.routerNumber < next := by
    intro run hrun next hnext q hq
    rwa [helper_tag_of_nil (hrun q hq)]
  induction forest generalizing base next run with
  | nil =>
    rw [levels]
    split_ifs
    · intro r hr
      cases hr
    · exact tagsBelow_sortRun (hzero run hrun _ hnext)
  | route label rest ih =>
    rw [levels]
    exact ih hnext (forall_mem_concat hrun rfl)
  | router label children rest ihc ih =>
    have hcount : next + (Forest.router label children rest).routers =
        next + 1 + children.routers + rest.routers := by
      rw [Forest.routers]
      omega
    rw [levels, hcount]
    split_ifs with hwidth
    · exact ih (by omega) (forall_mem_concat hrun (Forest.eq_nil_of_width hwidth))
    · rw [map_beside _ fun _ _ => map_append, map_cons]
      refine .beside (fun r hr => ?_) (ih (by omega) (by simp))
      obtain rfl | hr := mem_cons.1 hr
      · refine tagsBelow_sortRun (forall_mem_concat (hzero run hrun _ (by omega)) ?_) _ (.head _)
        show (if _ then next else 0) < _
        split_ifs <;> omega
      · exact (ihc next.succ_pos (by simp)).mono (Nat.le_add_right _ _) r hr

/-- A router is found in the row into which its run was put. -/
theorem finds_next {next depth : ℕ}
    {r : List (RouterBuildingHelper H M)} {x : RouterBuildingHelper H M}
    (hdepth : depth ≤ table.length) (htags : TagsBelow next table) (hx : x ∈ r)
    (htag : x.routerNumber = next) : Finds (graft depth [r] table) next depth := by
  obtain ⟨pre, post, rfl, rfl⟩ := exists_split hdepth
  rw [graft_append]
  have hpre : ∀ r' ∈ pre, ∀ y ∈ r', y.routerNumber ≠ next :=
    fun r' hr' y hy => (htags r' (mem_append_left _ hr') y hy).ne
  cases post with
  | nil => exact ⟨pre, r, [], rfl, rfl, hpre, x, hx, htag⟩
  | cons r' post =>
    exact ⟨pre, r' ++ r, beside post [], rfl, rfl, hpre, x, mem_append_right _ hx, htag⟩

/-- The routes of the sorted array go into the rows of `levels`. -/
theorem insert_arranged {base next depth : ℕ} (hfits : forest.All Label.Fits)
    (hrun : ∀ q ∈ run, q.Fits ∧ q.base = some base) (hleaf : ∀ q ∈ run, q.children = .nil)
    (hfinds : Finds table base depth) (htags : TagsBelow next table) (hlt : base < next) :
    ((arranged alg forest base next run).map route).foldlM insertRoute table =
      .ok (graft (depth + 1) ((levels alg forest base next run).map (List.map helper))
        table) := by
  induction forest generalizing table base next depth run with
  | nil =>
    rw [arranged, levels]
    split_ifs with hnil
    · rw [hnil, sortRun_nil, map_nil, map_nil, graft_nil]
      rfl
    · exact insert_sortRun hnil hrun hfinds
  | route label rest ih =>
    rw [arranged, levels]
    exact ih hfits.2 (forall_mem_concat hrun ⟨hfits.1, rfl⟩) (forall_mem_concat hleaf rfl) hfinds
      htags hlt
  | router label children rest ihc ih =>
    obtain ⟨hown, hchildren, hrest⟩ := hfits
    have hrun' : ∀ q ∈ run ++ [asRouter label base next children], q.Fits ∧ q.base = some base :=
      forall_mem_concat hrun ⟨hown, rfl⟩
    have hbelow : base < next + 1 + children.routers := by omega
    rw [arranged, levels]
    split_ifs with hwidth
    · exact ih hrest hrun' (forall_mem_concat hleaf (Forest.eq_nil_of_width hwidth)) hfinds
        (htags.mono (by omega)) hbelow
    · rw [map_beside _ fun _ _ => map_append, map_cons, map_append, map_append,
        append_assoc, foldlM_append, insert_sortRun (by simp) hrun' hfinds, ok_bind,
        foldlM_append]
      -- the router is found in its row by its children
      have hmem : (asRouter label base next children).helper ∈
          (sortRun alg (run ++ [asRouter label base next children])).map helper :=
        mem_map_of_mem (mem_sortRun.2 (by simp))
      have hfinds₁ := finds_next hfinds.lt_length htags hmem (if_pos hwidth)
      have htags₁ : TagsBelow (next + 1) (graft (depth + 1)
          [(sortRun alg (run ++ [asRouter label base next children])).map helper]
            table) := by
        refine (htags.mono next.le_succ).graft (tagsBelow_sortRun (forall_mem_concat ?_ ?_))
        · intro q hq
          rw [helper_tag_of_nil (hleaf q hq)]
          exact next.succ_pos
        · exact (if_pos hwidth).trans_lt next.lt_succ_self
      have htags₂ : TagsBelow (next + 1 + children.routers)
          ((levels alg children next (next + 1) []).map (List.map helper)) :=
        tagsBelow_levels children next.succ_pos (by simp)
      rw [ihc hchildren (by simp) (by simp) hfinds₁ htags₁ next.lt_succ_self, ok_bind,
        ih hrest (by simp) (by simp) ((hfinds.graft depth.lt_succ_self).graft (by omega))
          ((htags₁.mono (Nat.le_add_right _ _)).graft htags₂) hbelow,
        graft_succ hfinds.lt_length, graft_graft hfinds.lt_length]

end Insertion

/-! ### The whole array -/

section Whole

variable {alg : Algorithm} (forest : Forest H M)

/-- The root, above a forest whose routers are numbered from `next`. -/
abbrev rootPlaced (next : ℕ) : Placed H M :=
  { label := { path := ['/'] }, base := none, children := forest, next }

abbrev fallbackPlaced : Placed H M := { label := { path := ['*'] }, base := none }

theorem built_root : (⟨['/'], [], []⟩ : Label H M).toRoute = .ok { path := ['/'] } := rfl

theorem built_fallback : (⟨['*'], [], []⟩ : Label H M).toRoute = .ok { path := ['*'] } := rfl

theorem rootPlaced_route (next : ℕ) : (rootPlaced forest next).route =
      { path := ['/'], baseRouter := none, childRoutes := forest.width % 256 } := by
  rw [route_eq built_root]

theorem fallbackPlaced_route :
    (fallbackPlaced : Placed H M).route = { path := ['*'], baseRouter := none } := by
  rw [route_eq built_fallback]
  rfl

/-- The root stays before the fallback. -/
theorem sort_reserved (next : ℕ) :
    alg.sort (less 2) [(rootPlaced forest next).route, fallbackPlaced.route] =
      [(rootPlaced forest next).route, fallbackPlaced.route] := by
  rw [rootPlaced_route, fallbackPlaced_route]
  have hordered := alg.ordered (fun r : Route H M => if r.path = ['*'] then 1 else 0) (less 2)
    [{ path := ['/'], baseRouter := none, childRoutes := forest.width % 256 },
      { path := ['*'], baseRouter := none }] (by simp [less])
  refine List.Perm.eq_of_pairwise ?_ hordered ?_ (alg.perm _ _)
  · intro a b ha hb hab hba
    rw [(alg.perm _ _).mem_iff] at ha
    simp only [mem_cons, not_mem_nil, or_false] at ha hb
    obtain rfl | rfl := ha <;> obtain rfl | rfl := hb <;> simp_all
  · simp

/-- The rows of the whole array. -/
def rows (alg : Algorithm) (forest : Forest H M) (next : ℕ) : List (List (Placed H M)) :=
  [rootPlaced forest next, fallbackPlaced] :: levels alg forest 0 next []

theorem layered_rows (forest : Forest H M) (next : ℕ) :
    Layered (kids alg) (rows alg forest next) := by
  refine .cons (layered_levels forest (by simp)) ?_
  rw [flatMap_cons, flatMap_cons, kids_of_nil (p := fallbackPlaced) rfl,
    flatMap_nil, append_nil, append_nil]
  rfl

theorem sortRuns_whole (forest : Forest H M) (hnext : 0 < next) :
    sortRuns alg ((rootPlaced forest next).route :: fallbackPlaced.route ::
        (entries forest 0 next).map route) =
      (rootPlaced forest next).route :: fallbackPlaced.route ::
        (arranged alg forest 0 next []).map route := by
  have hcut : ∀ x ∈ [(rootPlaced forest next).route, fallbackPlaced.route].getLast?,
      ∀ y ∈ ((entries forest 0 next).map route).head?,
        (x.baseRouter == y.baseRouter) = false := by
    intro x hx y hy
    cases hx
    have hhead : ∀ t ∈ ((entries forest 0 next).map route ++ []).head?,
        t.baseRouter ≠ none :=
      entries_head (P := (· ≠ none)) (Option.some_ne_none 0) fun _ ht => nomatch ht
    rw [append_nil] at hhead
    exact beq_false_of_ne (Ne.symm (hhead y hy))
  have hreserved : ([(rootPlaced forest next).route, fallbackPlaced.route].splitBy
        fun left right => left.baseRouter == right.baseRouter) =
      [[(rootPlaced forest next).route, fallbackPlaced.route]] :=
    splitBy_of_isChain (by simp) (by simp [route])
  have hentries : sortRuns alg (([] ++ entries forest 0 next).map route ++ []) =
      (arranged alg forest 0 next []).map route ++ sortRuns alg [] :=
    sortRuns_entries forest (by simp) hnext (by simp)
  rw [append_nil, nil_append] at hentries
  show sortRuns alg ([(rootPlaced forest next).route, fallbackPlaced.route] ++
    (entries forest 0 next).map route) = _
  rw [sortRuns, splitBy_append hcut, hreserved, flatMap_append, ← sortRuns, hentries]
  show alg.sort (less 2) _ ++ [] ++ (_ ++ []) = _
  rw [sort_reserved, append_nil, append_nil]
  rfl

theorem insert_root (forest : Forest H M) (next : ℕ) (hwidth : forest.width < 256) :
    insertRoute [] (rootPlaced forest next).route = .ok [[(rootPlaced forest next).helper]] := by
  have hmod : forest.width % 256 = forest.width := Nat.mod_eq_of_lt hwidth
  have htag : (rootPlaced forest next).helper.routerNumber = 0 := ite_self _
  have hroute : routerTag (H := H) (M := M)
      { path := ['/'], baseRouter := none, childRoutes := forest.width } .path = .ok 0 := ite_self _
  rw [rootPlaced_route, hmod]
  show (routerTag (H := H) (M := M)
    { path := ['/'], baseRouter := none, childRoutes := forest.width } .path >>= _) = _
  rw [hroute, ← htag]
  rfl

/-- Sorting and inserting the array leaves the rows. -/
theorem insert_rows {forest : Forest H M} (hfits : forest.All Label.Fits)
    (hwidth : forest.width < 256) (hnext : 0 < next) :
    (sortRuns alg ((rootPlaced forest next).route :: fallbackPlaced.route ::
        (entries forest 0 next).map route)).foldlM insertRoute [] =
      .ok ((rows alg forest next).map (List.map helper)) := by
  have hfallback : insertRoute [[(rootPlaced forest next).helper]] fallbackPlaced.route =
      .ok [[(rootPlaced forest next).helper, fallbackPlaced.helper]] := by
    rw [fallbackPlaced_route]
    rfl
  have htag : (rootPlaced forest next).helper.routerNumber = 0 := ite_self _
  have hfinds : Finds [[(rootPlaced forest next).helper, fallbackPlaced.helper]] 0 0 :=
    ⟨[], _, [], rfl, rfl, by simp, _, .head _, htag⟩
  have htags : TagsBelow next [[(rootPlaced forest next).helper, fallbackPlaced.helper]] := by
    intro r hr x hx
    obtain rfl := mem_singleton.1 hr
    obtain rfl | hx := mem_cons.1 hx
    · rwa [htag]
    · rwa [mem_singleton.mp hx]
  rw [sortRuns_whole forest hnext, foldlM_cons, insert_root forest next hwidth, ok_bind,
    foldlM_cons, hfallback, ok_bind,
    insert_arranged forest hfits (by simp) (by simp) hfinds htags hnext]
  show Except.ok (_ :: beside [] _) = _
  rw [nil_beside]
  rfl

end Whole

end Congelado.Routing
