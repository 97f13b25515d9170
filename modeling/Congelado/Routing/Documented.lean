import Congelado.Routing.Dispatch

/-!
# Documented paths

`ApiRouter` and `ApiRoute` register routes and, at the same time, describe them in a registry
(`describe`), from which the documentation generator rebuilds the full path of a route by
climbing from router to router (`resolveFullPath`). There a path such as `:id/pause` has two
parts. In the table it is one segment, of which only the first character is looked at.

The nodes from the root down to a route are its trail (`Forest.trails`). The documented path
consists of the parts of all nodes of the trail (`splitPath_resolveFullPath`); the table walks
along the trail if each node is met by one segment (`Served`).
-/

namespace Congelado.Routing

open Sorting List

variable {H M : Type} {n : Node H M} {forest : Forest H M} {p : Placed H M} {seg : Text}

/-! ### The registry -/

structure RouteMeta where
  path : Text
  routerNumber : ℕ := 0
  baseRouter : ℕ := 0
  deriving DecidableEq

variable {route : RouteMeta} {number : ℕ}

/-- What `ApiRouter` and `ApiRoute` leave in the registry along with `register`: a router when it
is constructed, and its base router when it is mounted; a route when it is mounted. A route that
is added to the context itself is not described. -/
def describe (parent : Option ℕ) : Forest H M → ℕ × List RouteMeta → ℕ × List RouteMeta
  | .nil, state => state
  | .route label rest, (next, registry) =>
    match parent with
    | none => describe parent rest (next, registry)
    | some number =>
      describe parent rest
        (next, registry ++ [{ path := stripSlash label.path, baseRouter := number }])
  | .router label children rest, (next, registry) =>
    let index := registry.length
    let registry := registry ++ [{ path := stripSlash label.path, routerNumber := next }]
    let (after, registry) := describe (some next) children (next + 1, registry)
    match parent with
    | none => describe parent rest (after, registry)
    | some number =>
      describe parent rest
        (after, registry.modify index fun route => { route with baseRouter := number })

/-- One part of a path: a parameter is written in braces. -/
def openapiPart (part : Text) : Text :=
  if part.head? = some ':' then '{' :: (part.tail ++ ['}']) else part

/-- The parts are joined again; a slash is written unless nothing was written before. -/
def toOpenapiPath (segment : Text) : Text :=
  (segment.splitOn '/').foldl
    (fun result part => (if result = [] then result else result ++ ['/']) ++ openapiPart part) []

/-- The segments of the routers above a route, from the nearest one on. The first argument bounds
the number of routers. -/
def climb (routes : List RouteMeta) : ℕ → ℕ → List Text
  | 0, _ => []
  | fuel + 1, base =>
    if base = 0 then []
    else
      match routes.find? (·.routerNumber == base) with
      | none => []
      | some route =>
        (if route.path = [] then [] else [toOpenapiPath route.path]) ++
          climb routes fuel route.baseRouter

/-- `resolve_full_path`. A climb over more routers than there are routes would never end. -/
def resolveFullPath (route : RouteMeta) (routes : List RouteMeta) : Text :=
  let segments := (if route.path = [] then [] else [toOpenapiPath route.path]) ++
    climb routes routes.length route.baseRouter
  let result := segments.reverse.flatMap ('/' :: ·)
  if result = [] then ['/'] else result

/-! ### What is described -/

section Described

variable {base next : ℕ}

def Placed.described (p : Placed H M) : RouteMeta where
  path := stripSlash p.label.path
  routerNumber := p.number
  baseRouter := p.base.getD 0

theorem modify_append_cons {α : Type} (pre post : List α) (x : α) (f : α → α) :
    (pre ++ x :: post).modify pre.length f = pre ++ f x :: post := by
  induction pre with
  | nil => rfl
  | cons y pre ih => exact congrArg (y :: ·) ih

/-- A forest whose first level consists of routers. -/
def Forest.Mounted : Forest H M → Prop
  | .nil => True
  | .route _ _ => False
  | .router _ _ rest => rest.Mounted

/-- Every node is described, except for routes without a parent. -/
theorem describe_eq {parent : Option ℕ} (h : parent = none → forest.Mounted)
    {registry : List RouteMeta} : describe parent forest (next, registry) =
      (next + forest.routers,
        registry ++ (entries forest (parent.getD 0) next).map Placed.described) := by
  have hsome : ∀ {base : ℕ} {forest : Forest H M}, some base = none → forest.Mounted := nofun
  induction forest generalizing parent next registry with
  | nil =>
    rw [describe, entries, map_nil, append_nil]
    rfl
  | route label rest ih =>
    cases parent with
    | none => cases h rfl
    | some base =>
      rw [describe, ih hsome, entries, map_cons, append_assoc]
      rfl
  | router label children rest ihc ih =>
    have hcount : next + 1 + children.routers + rest.routers =
        next + (1 + children.routers + rest.routers) := by omega
    rw [describe, ihc hsome, append_assoc, singleton_append, entries, map_cons,
      map_append]
    cases parent with
    | none =>
      dsimp only
      rw [ih h, hcount, append_assoc]
      rfl
    | some base =>
      dsimp only
      rw [modify_append_cons, ih hsome, hcount, append_assoc]
      rfl

theorem number_mem_entries (h : p ∈ entries forest base next) :
    p.number = 0 ∨ next ≤ p.number ∧ p.number < next + forest.routers := by
  induction forest generalizing base next with
  | nil => cases h
  | route label rest ih =>
    obtain rfl | h := mem_cons.1 h
    · exact .inl rfl
    · exact ih h
  | router label children rest ihc ih =>
    rw [Forest.routers]
    obtain rfl | h := mem_cons.1 h
    · exact .inr ⟨le_rfl, show next < _ by omega⟩
    · obtain h | h := mem_append.1 h
      · have := ihc h
        omega
      · have := ih h
        omega

/-- A router is found by its number. -/
theorem find?_number (hnext : 0 < next) (h : p ∈ entries forest base next) (hp : p.number ≠ 0) :
    ((entries forest base next).map Placed.described).find? (·.routerNumber == p.number) =
      some p.described := by
  induction forest generalizing base next with
  | nil => cases h
  | route label rest ih =>
    rw [entries, map_cons, find?_cons_of_neg]
    · obtain rfl | h := mem_cons.1 h
      · exact absurd rfl hp
      · exact ih hnext h
    · simpa [Placed.described] using Ne.symm hp
  | router label children rest ihc ih =>
    rw [entries, map_cons, map_append]
    obtain rfl | h := mem_cons.1 h
    · exact find?_cons_of_pos (by simp [Placed.described])
    · have hne :
          ¬((asRouter label base next children).described.routerNumber == p.number) = true := by
        have hlt : next < p.number := by
          obtain h | h := mem_append.1 h
          · have := number_mem_entries h
            omega
          · have := number_mem_entries h
            omega
        simpa [Placed.described] using hlt.ne
      rw [find?_cons_of_neg (p := fun r : RouteMeta => r.routerNumber == p.number) hne,
        find?_append]
      obtain h | h := mem_append.1 h
      · rw [ihc (by omega) h]
        rfl
      · -- the numbers of the children are smaller
        have hlarge : next + 1 + children.routers ≤ p.number := by
          have := number_mem_entries h
          omega
        have hnone : ((entries children next (next + 1)).map Placed.described).find?
            (·.routerNumber == p.number) = none := by
          rw [find?_eq_none]
          intro r hr
          obtain ⟨q, hq, rfl⟩ := mem_map.1 hr
          have := number_mem_entries hq
          have hqp : q.number ≠ p.number := by omega
          simpa [Placed.described] using hqp
        rw [hnone, Option.none_or, ih (by omega) h]

end Described

/-! ### Trails -/

section Trails

variable {trail : List (Node H M)} {routes : List RouteMeta} {above : List Text}

/-- The trails of all nodes in the order of their registration. -/
def Forest.trails : Forest H M → List (List (Node H M))
  | .nil => []
  | .route label rest => [⟨label, .nil⟩] :: rest.trails
  | .router label children rest =>
    [⟨label, children⟩] :: (children.trails.map (⟨label, children⟩ :: ·) ++ rest.trails)

theorem length_trails (forest : Forest H M) (base next : ℕ) :
    (entries forest base next).length = forest.trails.length := by
  induction forest generalizing base next with
  | nil => rfl
  | route label rest ih => rw [entries, Forest.trails, length_cons, length_cons, ih]
  | router label children rest ihc ih =>
    rw [entries, Forest.trails, length_cons, length_cons, length_append,
      length_append, length_map, ihc, ih]

theorem length_le_of_mem_trails
    (h : trail ∈ forest.trails) : trail.length ≤ forest.trails.length := by
  induction forest generalizing trail with
  | nil => cases h
  | route label rest ih =>
    rw [Forest.trails, length_cons]
    obtain rfl | h := mem_cons.1 h
    · simp
    · exact (ih h).trans (Nat.le_succ _)
  | router label children rest ihc ih =>
    rw [Forest.trails, length_cons, length_append, length_map]
    obtain rfl | h := mem_cons.1 h
    · simp
    · obtain h | h := mem_append.1 h
      · obtain ⟨trail, htrail, rfl⟩ := mem_map.1 h
        have := ihc htrail
        rw [length_cons]
        omega
      · have := ih h
        omega

theorem trails_sibling (h : n ∈ forest.siblings) :
    [n] ∈ forest.trails ∧ ∀ trail ∈ n.children.trails, n :: trail ∈ forest.trails := by
  induction forest with
  | nil => cases h
  | route label rest ih =>
    obtain rfl | h := mem_cons.1 h
    · exact ⟨.head _, fun trail htrail => nomatch htrail⟩
    · exact ⟨.tail _ (ih h).1, fun trail htrail => .tail _ ((ih h).2 trail htrail)⟩
  | router label children rest _ ih =>
    obtain rfl | h := mem_cons.1 h
    · exact ⟨.head _, fun trail htrail =>
        .tail _ (mem_append_left _ (mem_map_of_mem htrail))⟩
    · exact ⟨.tail _ (mem_append_right _ (ih h).1), fun trail htrail =>
        .tail _ (mem_append_right _ ((ih h).2 trail htrail))⟩

variable (routes)

/-- Above a base router there are routers with the given segments, from the nearest one on. -/
def Climbs (base : ℕ) (above : List Text) : Prop :=
  ∀ fuel, above.length ≤ fuel → climb routes fuel base = above

theorem climbs_zero : Climbs routes 0 [] := by
  intro fuel _
  cases fuel <;> rfl

variable {routes}

theorem Climbs.router {base : ℕ} (h : Climbs routes base above) (hnumber : number ≠ 0)
    (hfind : routes.find? (·.routerNumber == number) = some route) (hbase : route.baseRouter = base)
    (hpath : route.path ≠ []) : Climbs routes number (toOpenapiPath route.path :: above) := by
  intro fuel hfuel
  cases fuel with
  | zero => simp at hfuel
  | succ fuel =>
    rw [climb, if_neg hnumber, hfind]
    dsimp only
    rw [if_neg hpath, hbase, h fuel (Nat.le_of_succ_le_succ hfuel)]
    rfl

/-- The segments along a trail as they are documented. -/
def documentedSegments (trail : List (Node H M)) : List Text :=
  trail.map fun n => toOpenapiPath n.segment

/-- The climb from a route goes back along its trail. -/
theorem climbs_trail (forest : Forest H M) {base next : ℕ} (habove : Climbs routes base above)
    (hnext : 0 < next)
    (hbuilds : forest.Builds) (hfind : ∀ p ∈ entries forest base next, p.number ≠ 0 →
      routes.find? (·.routerNumber == p.number) = some p.described)
    (h : (p, trail) ∈ (entries forest base next).zip forest.trails) :
    trail.getLast? = some p.node ∧ p.label.Builds ∧
      ∃ up, Climbs routes p.described.baseRouter up ∧
        up.reverse ++ [toOpenapiPath p.node.segment] = above.reverse ++
          documentedSegments trail := by
  induction forest generalizing base next above p trail with
  | nil => cases h
  | route label rest ih =>
    obtain ⟨hown, hrest⟩ := hbuilds
    obtain h | h := mem_cons.1 h
    · cases h
      exact ⟨rfl, hown, above, habove, rfl⟩
    · exact ih habove hnext hrest (fun p hp => hfind p (.tail _ hp)) h
  | router label children rest ihc ih =>
    obtain ⟨hown, hchildren, hrest⟩ := hbuilds
    rw [entries, Forest.trails, zip_cons_cons,
      zip_append (by rw [length_map, length_trails])] at h
    obtain h | h := mem_cons.1 h
    · cases h
      exact ⟨rfl, hown, above, habove, rfl⟩
    · obtain h | h := mem_append.1 h
      · rw [zip_map_right, mem_map] at h
        obtain ⟨⟨q, t⟩, hq, heq⟩ := h
        obtain ⟨rfl, rfl⟩ : q = p ∧ ⟨label, children⟩ :: t = trail := Prod.mk.inj heq
        have hrouter := hfind (asRouter label base next children) (.head _) hnext.ne'
        obtain ⟨hlast, hbuild, up, hup, hsegments⟩ := ihc
          (habove.router hnext.ne' hrouter rfl hown.segment_ne_nil) (Nat.succ_pos _) hchildren
          (fun p hp => hfind p (.tail _ (mem_append_left _ hp))) hq
        refine ⟨?_, hbuild, up, hup, ?_⟩
        · rw [getLast?_cons, hlast]
          rfl
        · rw [hsegments, reverse_cons, append_assoc]
          rfl
      · exact ih habove (by omega) hrest (fun p hp => hfind p (.tail _ (mem_append_right _ hp))) h

end Trails

/-! ### The documented path -/

section Documented

theorem foldl_join {parts : List Text} {result : Text} (hresult : result ≠ []) :
    parts.foldl
        (fun result part => (if result = [] then result else result ++ ['/']) ++ openapiPart part)
        result =
      result ++ parts.flatMap fun part => '/' :: openapiPart part := by
  induction parts generalizing result with
  | nil => exact (append_nil _).symm
  | cons part parts ih =>
    rw [foldl_cons, if_neg hresult, ih (by simp [hresult]), flatMap_cons]
    simp only [append_assoc, nil_append, cons_append]

theorem openapiPart_ne_nil {part : Text} (h : part ≠ []) : openapiPart part ≠ [] := by
  unfold openapiPart
  split_ifs
  · exact cons_ne_nil _ _
  · exact h

/-- The parts of a segment. -/
def Node.parts (n : Node H M) : List Text := n.segment.splitOn '/'

theorem Node.parts_ne_nil (n : Node H M) : n.parts ≠ [] := splitOnP_ne_nil _ _

theorem cons_toOpenapiPath (h : ∀ part ∈ n.parts, part ≠ []) :
    '/' :: toOpenapiPath n.segment = (n.parts.map openapiPart).flatMap ('/' :: ·) := by
  unfold toOpenapiPath
  show '/' :: n.parts.foldl _ [] = _
  cases hparts : n.parts with
  | nil => exact absurd hparts n.parts_ne_nil
  | cons part parts =>
    rw [hparts] at h
    rw [foldl_cons, if_pos rfl, nil_append,
      foldl_join (openapiPart_ne_nil (h part (.head _))), map_cons, flatMap_cons,
      flatMap_map]
    rfl

theorem splitPath_flatMap {parts : List Text} (hne : ∀ part ∈ parts, part ≠ [])
    (hslash : ∀ part ∈ parts, '/' ∉ part) : splitPath (parts.flatMap ('/' :: ·)) = parts := by
  have hjoin : parts.flatMap ('/' :: ·) = ['/'].intercalate ([] :: parts) := by
    clear hne hslash
    induction parts with
    | nil => rfl
    | cons part parts ih =>
      cases parts with
      | nil => simp [List.intercalate]
      | cons part' parts =>
        rw [flatMap_cons, ih]
        simp [List.intercalate]
  have hsplit : (['/'].intercalate ([] :: parts)).splitOn '/' = [] :: parts :=
    splitOn_intercalate '/' (by simpa using hslash) (by simp)
  rw [splitPath, hjoin, hsplit, filter_cons_of_neg (by simp)]
  exact filter_eq_self.2 fun part hpart => by simpa using hne part hpart

theorem slash_notMem_of_mem_splitOn {text part : Text} (h : part ∈ text.splitOn '/') :
    '/' ∉ part := by
  induction text generalizing part with
  | nil =>
    rw [mem_singleton.mp h]
    exact not_mem_nil
  | cons c text ih =>
    rw [splitOn_cons_eq_if_modifyHead] at h
    cases hsplit : text.splitOn '/' with
    | nil => exact absurd hsplit (splitOn_ne_nil _ _)
    | cons head rest =>
      rw [hsplit] at h ih
      split_ifs at h with hc
      · obtain rfl | h := mem_cons.1 h
        · exact not_mem_nil
        · exact ih h
      · obtain rfl | h := mem_cons.1 h
        · have hne : '/' ≠ c := fun heq => hc (beq_iff_eq.2 heq.symm)
          exact not_mem_cons_of_ne_of_not_mem hne (ih (.head _))
        · exact ih (.tail _ h)

/-- The documented path of a route has the parts of all nodes of its trail. -/
theorem splitPath_resolveFullPath (hmounted : forest.Mounted) (hbuilds : forest.Builds)
    (hnumber : 0 < number) {i : ℕ} {trail : List (Node H M)}
    (hroute : (describe none forest (number, [])).2[i]? = some route)
    (htrail : forest.trails[i]? = some trail) (hparts : ∀ n ∈ trail, ∀ part ∈ n.parts, part ≠ []) :
    splitPath (resolveFullPath route (describe none forest (number, [])).2) =
      (trail.flatMap Node.parts).map openapiPart := by
  rw [describe_eq fun _ => hmounted, nil_append, Option.getD_none] at hroute ⊢
  rw [getElem?_map, Option.map_eq_some_iff] at hroute
  obtain ⟨p, hp, rfl⟩ := hroute
  have hzip : (p, trail) ∈ (entries forest 0 number).zip forest.trails :=
    mem_of_getElem? (getElem?_zip_eq_some.2 ⟨hp, htrail⟩)
  obtain ⟨-, hown, up, hup, hsegments⟩ := climbs_trail forest
    (climbs_zero ((entries forest 0 number).map Placed.described)) hnumber hbuilds
    (fun q hq hpos => find?_number hnumber hq hpos) hzip
  -- `resolve_full_path` climbs as often as there are routes, which is enough
  have hfuel : up.length ≤ ((entries forest 0 number).map Placed.described).length := by
    have hlength := congrArg List.length hsegments
    have htrails := length_le_of_mem_trails (mem_of_getElem? htrail)
    simp only [documentedSegments, length_append, length_reverse, length_map,
      length_singleton, length_nil] at hlength
    rw [length_map, length_trails]
    omega
  have hpath : p.described.path ≠ [] := hown.segment_ne_nil
  have hresult : (([toOpenapiPath p.described.path] ++ up).reverse).flatMap ('/' :: ·) =
      ((trail.flatMap Node.parts).map openapiPart).flatMap ('/' :: ·) := by
    have hreverse : ([toOpenapiPath p.described.path] ++ up).reverse =
        documentedSegments trail := by
      rwa [singleton_append, reverse_cons]
    rw [hreverse, documentedSegments, flatMap_map, map_flatMap, flatMap_assoc]
    exact flatMap_congr fun n hn => cons_toOpenapiPath (hparts n hn)
  have hne : ((trail.flatMap Node.parts).map openapiPart).flatMap ('/' :: ·) ≠ [] := by
    rw [← hresult, singleton_append, reverse_cons, flatMap_append]
    exact append_ne_nil_of_right_ne_nil _ (cons_ne_nil _ _)
  unfold resolveFullPath
  dsimp only
  rw [if_neg hpath, hup _ hfuel, hresult, if_neg hne]
  apply splitPath_flatMap
  · intro text htext
    obtain ⟨part, hpart, rfl⟩ := mem_map.1 htext
    obtain ⟨n, hn, hpart⟩ := mem_flatMap.1 hpart
    exact openapiPart_ne_nil (hparts n hn part hpart)
  · intro text htext
    obtain ⟨part, hpart, rfl⟩ := mem_map.1 htext
    obtain ⟨n, -, hpart⟩ := mem_flatMap.1 hpart
    unfold openapiPart
    split_ifs
    · have htail : '/' ∉ part.tail :=
        fun hmem => (slash_notMem_of_mem_splitOn hpart) (mem_of_mem_tail hmem)
      simp [htail]
    · exact (slash_notMem_of_mem_splitOn hpart)

end Documented

/-! ### The walk along a trail -/

section Served

variable {alg : Algorithm} {trail : List (Node H M)} {segs : List Text}

/-- A child stops the scan for a segment. -/
def Node.Stops (seg : Text) (n : Node H M) : Prop := n.kind = .param ∨ n.Names seg

instance (seg : Text) (n : Node H M) : Decidable (n.Stops seg) :=
  inferInstanceAs (Decidable (_ ∨ _))

/-- The segment meets a node: the node stops the scan, and no sibling does before it. -/
def Meets (alg : Algorithm) (forest : Forest H M) (seg : Text) (n : Node H M) : Prop :=
  n.Stops seg ∧ ∃ front back, probeOrder alg forest seg = front ++ n :: back ∧
    ∀ m ∈ front, ¬m.Stops seg

/-- The nodes of a trail are met one after the other, each by one segment, and each is one
part of a path. -/
def Served (alg : Algorithm) : Forest H M → List (Node H M) → List Text → Prop
  | _, [], [] => True
  | forest, n :: trail, seg :: segs =>
    '/' ∉ n.segment ∧ Meets alg forest seg n ∧ Served alg n.children trail segs
  | _, _, _ => False

theorem find?_stops_eq_some_iff {l : List (Node H M)} :
    (l.find? fun n => n.kind = .param ∨ n.Names seg) = some n ↔
      n.Stops seg ∧ ∃ front back, l = front ++ n :: back ∧ ∀ m ∈ front, ¬m.Stops seg := by
  rw [find?_eq_some_iff_append]
  simp [Node.Stops]

/-- A segment that meets a node leads to it, and one that leads to a node other than a wildcard
meets it. -/
theorem step_eq_some_iff (hkind : n.kind ≠ .wild) :
    step alg seg forest = some n ↔ Meets alg forest seg n := by
  unfold Meets
  rw [← find?_stops_eq_some_iff]
  refine ⟨fun hstep => ?_, scan_eq_of_find?⟩
  cases hfind : (probeOrder alg forest seg).find? fun n => n.kind = .param ∨ n.Names seg with
  | some m => rw [← hstep, step, scan_eq_of_find? hfind]
  | none =>
    -- the scan ended with a wildcard
    rw [step, scan_eq_of_find?_eq_none hfind, Option.or_none] at hstep
    have hmem := mem_of_getLast? hstep
    exact absurd (by simpa using (mem_filter.1 hmem).2) hkind

/-- The nodes that a walk comes to. -/
def Steps (alg : Algorithm) : Forest H M → List Text → List (Node H M) → Prop
  | _, [], [] => True
  | forest, seg :: segs, n :: trail =>
    step alg seg forest = some n ∧ Steps alg n.children segs trail
  | _, _, _ => False

theorem walkNodes_eq_some_iff {n m : Node H M} : (walkNodes alg segs n).2 = some m ↔
      ∃ trail, Steps alg n.children segs trail ∧ trail.getLastD n = m := by
  induction segs generalizing n with
  | nil =>
    constructor
    · exact fun h => ⟨[], trivial, Option.some.inj h⟩
    · rintro ⟨trail, hsteps, hlast⟩
      cases trail with
      | nil => exact congrArg some hlast
      | cons n trail => exact hsteps.elim
  | cons seg segs ih =>
    have hwalk : (walkNodes alg (seg :: segs) n).2 =
        (step alg seg n.children).bind fun c => (walkNodes alg segs c).2 := by
      rw [walkNodes]
      cases step alg seg n.children with
      | none => rfl
      | some c =>
        dsimp only [Option.bind_some]
        split_ifs <;> rfl
    rw [hwalk, Option.bind_eq_some_iff]
    constructor
    · rintro ⟨c, hstep, hrest⟩
      obtain ⟨trail, hsteps, hlast⟩ := ih.1 hrest
      refine ⟨c :: trail, ⟨hstep, hsteps⟩, ?_⟩
      rw [getLastD_cons, hlast]
    · rintro ⟨trail, hsteps, hlast⟩
      cases trail with
      | nil => exact hsteps.elim
      | cons c trail =>
        rw [getLastD_cons] at hlast
        exact ⟨c, hsteps.1, ih.2 ⟨trail, hsteps.2, hlast⟩⟩

/-- A walk goes along a trail. -/
theorem Steps.mem_trails
    (h : Steps alg forest segs trail) (hne : trail ≠ []) : trail ∈ forest.trails := by
  induction segs generalizing forest trail with
  | nil =>
    cases trail with
    | nil => exact absurd rfl hne
    | cons n trail => exact h.elim
  | cons seg segs ih =>
    cases trail with
    | nil => exact absurd rfl hne
    | cons n trail =>
      have hn := trails_sibling (((probeOrder_perm alg forest seg).mem_iff.1 (scan_mem h.1)))
      by_cases htrail : trail = []
      · rw [htrail]
        exact hn.1
      · exact hn.2 trail (ih h.2 htrail)

theorem Steps.length_eq (h : Steps alg forest segs trail) : trail.length = segs.length := by
  induction segs generalizing forest trail with
  | nil =>
    cases trail with
    | nil => rfl
    | cons n trail => exact h.elim
  | cons seg segs ih =>
    cases trail with
    | nil => exact h.elim
    | cons n trail => exact congrArg (· + 1) (ih h.2)

/-- A trail of single parts without wildcards is served by the segments that lead along it. -/
theorem served_iff_steps (hkind : ∀ n ∈ trail, n.kind ≠ .wild) :
    Served alg forest trail segs ↔ (∀ n ∈ trail, '/' ∉ n.segment) ∧
      Steps alg forest segs trail := by
  induction trail generalizing forest segs with
  | nil => cases segs <;> simp [Served, Steps]
  | cons n trail ih =>
    cases segs with
    | nil => simp [Served, Steps]
    | cons seg segs =>
      rw [Served, Steps, ih fun m hm => hkind m (.tail _ hm), ← step_eq_some_iff
        (hkind n (.head _)), forall_mem_cons]
      exact ⟨fun ⟨hn, hstep, htrail, hsteps⟩ => ⟨⟨hn, htrail⟩, hstep, hsteps⟩,
        fun ⟨⟨hn, htrail⟩, hstep, hsteps⟩ => ⟨hn, hstep, htrail, hsteps⟩⟩

/-- A trail with as many parts as nodes consists of single parts. -/
theorem single_of_length_parts
    (h : (trail.flatMap Node.parts).length = trail.length) : ∀ n ∈ trail, '/' ∉ n.segment := by
  have hpos : ∀ n : Node H M, 0 < n.parts.length := fun n => length_pos_of_ne_nil n.parts_ne_nil
  have hle : ∀ trail : List (Node H M), trail.length ≤ (trail.flatMap Node.parts).length := by
    intro trail
    induction trail with
    | nil => exact le_rfl
    | cons n trail ih =>
      rw [flatMap_cons, length_append, length_cons]
      have := hpos n
      omega
  induction trail with
  | nil => simp
  | cons n trail ih =>
    rw [flatMap_cons, length_append, length_cons] at h
    have hn := hpos n
    have htrail := hle trail
    refine forall_mem_cons.2 ⟨?_, ih (by omega)⟩
    obtain ⟨part, hpart⟩ := length_eq_one_iff.1 (show n.parts.length = 1 by omega)
    have hjoin : ['/'].intercalate n.parts = n.segment := intercalate_splitOn '/'
    have hsegment : n.segment = part := by
      rw [← hjoin, hpart]
      simp [List.intercalate]
    have hmem : n.segment ∈ n.segment.splitOn '/' := by
      show n.segment ∈ n.parts
      rw [hpart, hsegment]
      exact mem_singleton_self _
    exact slash_notMem_of_mem_splitOn hmem

end Served

/-! ### Requests to documented paths -/

section Requests

variable {alg : Algorithm}

/-- A request path arises from a documented one: each part in braces is replaced by a segment,
and the other parts are kept. -/
def Replaces (documented request : Text) : Prop :=
  List.Forall₂ (fun part seg => (∃ name, part = '{' :: (name ++ ['}'])) ∨ seg = part)
    (splitPath documented) (splitPath request)

theorem Forest.All.trail {P : Label H M → Forest H M → Prop}
    (h : forest.All P) {trail : List (Node H M)} (htrail : trail ∈ forest.trails)
    (hn : n ∈ trail) : P n.label n.children := by
  induction forest generalizing trail with
  | nil => cases htrail
  | route label rest ih =>
    obtain rfl | htrail := mem_cons.1 htrail
    · rw [mem_singleton.1 hn]
      exact h.1
    · exact ih h.2 htrail hn
  | router label children rest ihc ih =>
    obtain rfl | htrail := mem_cons.1 htrail
    · rw [mem_singleton.1 hn]
      exact h.1
    · obtain htrail | htrail := mem_append.1 htrail
      · obtain ⟨below, hbelow, rfl⟩ := mem_map.1 htrail
        obtain rfl | hn := mem_cons.1 hn
        · exact h.1
        · exact ihc h.2.1 hbelow hn
      · exact ih h.2.2 htrail hn

theorem kind_ne_wild (h : ∀ part ∈ n.parts, part ≠ ['*']) : n.kind ≠ .wild := by
  intro hkind
  have hsegment : n.segment = ['*'] := by
    unfold Node.kind edge determineNodeKind at hkind
    split_ifs at hkind with _ hstar
    exact hstar
  have hparts : n.parts = [['*']] := by
    rw [Node.parts, hsegment]
    rfl
  exact h ['*'] (hparts ▸ mem_singleton_self _) rfl

/-- A handler is found in the byte of its method. -/
theorem found_of_mem (hbuilds : n.label.Builds) {method : Method} {fn : H}
    (h : (method, fn) ∈ n.label.handlers) : n.found method = some fn := by
  have hlanes : (n.label.handlers.map fun r => r.1.shift).Nodup :=
    pairwise_map.2 hbuilds.makes.handler.distinct
  cases hfound : n.found method with
  | none => exact absurd rfl (found_eq_none_iff.1 hfound _ h)
  | some fn' =>
    obtain ⟨r, hr, hshift, rfl⟩ := found_mem hfound
    rw [inj_on_of_nodup_map hlanes hr h hshift]

/-- The `i`-th route of the registry has the `i`-th trail. A request that arises from its
documented path, with a method for which it has a handler, runs this handler if the trail is
served; and only then, if the handler was registered on no other route. -/
theorem documented_path_served_iff {number : ℕ} (hnumber : 0 < number) (hsize : forest.size < 255)
    (hmounted : forest.Mounted) {handler : RouteHandler H M}
    (h : (register none forest { nextNumber := number } >>= build alg) = .ok handler)
    {i : ℕ} {route : RouteMeta} {trail : List (Node H M)} {n : Node H M}
    (hroute : (describe none forest (number, [])).2[i]? = some route)
    (htrail : forest.trails[i]? = some trail) (hlast : trail.getLast? = some n)
    (hparts : ∀ m ∈ trail, ∀ part ∈ m.parts, part ≠ [] ∧ part ≠ ['*'])
    {method : Method} {fn : H} (hfn : (method, fn) ∈ n.label.handlers) {request : Text}
    (hrequest : Replaces (resolveFullPath route (describe none forest (number, [])).2) request) :
    (Served alg forest trail (splitPath request) →
      (handler.matchRequest method request).result.toOption = some fn) ∧
    ((∀ trail' ∈ forest.trails, ∀ m ∈ trail'.getLast?, ∀ r ∈ m.label.handlers, r.2 = fn →
        trail' = trail) →
      (handler.matchRequest method request).result.toOption = some fn →
      Served alg forest trail (splitPath request)) := by
  have hbuilds := builds_of_build hnumber h
  have hmem : trail ∈ forest.trails := mem_of_getElem? htrail
  have hkind : ∀ m ∈ trail, m.kind ≠ .wild :=
    fun m hm => kind_ne_wild fun part hpart => (hparts m hm part hpart).2
  rw [(matchRequest_eq hnumber hsize h method request).2, dispatch, served_iff_steps hkind]
  refine ⟨fun ⟨_, hsteps⟩ => ?_, fun hunique hresult => ?_⟩
  · have hend : trail.getLastD (rootNode forest) = n := by
      rw [getLastD_eq_getLast?, hlast, Option.getD_some]
    have hwalk : (walkNodes alg (splitPath request) (rootNode forest)).2 = some n :=
      walkNodes_eq_some_iff.2 ⟨trail, hsteps, hend⟩
    rw [hwalk]
    exact found_of_mem (hbuilds.trail hmem (mem_of_getLast? hlast)) hfn
  · obtain ⟨m, hwalk, hfound⟩ := Option.bind_eq_some_iff.1 hresult
    obtain ⟨r, hr, -, hrfn⟩ := found_mem hfound
    obtain ⟨trail', hsteps, hend⟩ := walkNodes_eq_some_iff.1 hwalk
    -- the root has no handlers, so the walk has gone along a trail
    have hne : trail' ≠ [] := by
      rintro rfl
      rw [← hend] at hr
      cases hr
    have hlast' : trail'.getLast? = some m := by
      rw [getLastD_eq_getLast?] at hend
      rw [getLast?_eq_some_getLast hne] at hend ⊢
      exact congrArg some hend
    obtain rfl := hunique trail' (hsteps.mem_trails hne) m hlast' r hr hrfn
    refine ⟨single_of_length_parts ?_, hsteps⟩
    have hlength := List.Forall₂.length_eq hrequest
    rw [splitPath_resolveFullPath hmounted hbuilds hnumber hroute htrail fun m hm part hpart =>
      (hparts m hm part hpart).1, length_map] at hlength
    rw [hlength, hsteps.length_eq]

end Requests

/-- The router `/w` with the route `/:id`, which has a handler for `PUT`. -/
def itemForest : Forest String Unit :=
  .router ⟨"/w".toList, [], []⟩ (.route ⟨"/:id".toList, [], [(.put, "item")]⟩ .nil) .nil

theorem meets_only_child {alg : Algorithm}
    (h : forest.siblings = [n]) (hstops : n.Stops seg) : Meets alg forest seg n := by
  have hperm := probeOrder_perm alg forest seg
  rw [h, perm_singleton] at hperm
  exact ⟨hstops, [], [], hperm, by simp⟩

theorem documented_item_served : ∃ handler : RouteHandler String Unit,
    (register none itemForest { nextNumber := 1 } >>= build Sorting.insertion) = .ok handler ∧
    (handler.matchRequest .put "/w/7".toList).result.toOption = some "item" := by
  cases hbuild : register none itemForest { nextNumber := 1 } >>= build Sorting.insertion with
  | error e =>
    have hok :
        (register none itemForest { nextNumber := 1 } >>= build Sorting.insertion).toOption.isSome
        = true := by decide +kernel
    rw [hbuild] at hok
    cases hok
  | ok handler =>
    have hsegs : splitPath "/w/7".toList = ["w".toList, "7".toList] := by decide +kernel
    have hpath : splitPath (resolveFullPath { path := ":id".toList, baseRouter := 1 }
        (describe none itemForest (1, [])).2) =
          ["w".toList, "\x7bid\x7d".toList] := by decide +kernel
    have hreplaces : Replaces (resolveFullPath { path := ":id".toList, baseRouter := 1 }
        (describe none itemForest (1, [])).2) "/w/7".toList := by
      rw [Replaces, hpath, hsegs]
      exact .cons (.inr rfl) (.cons (.inl ⟨"id".toList, rfl⟩) .nil)
    have hparts :
      ∀ m ∈ [(⟨⟨"/w".toList, [], []⟩, .route ⟨"/:id".toList, [], [(.put, "item")]⟩ .nil⟩ :
        Node String Unit), ⟨⟨"/:id".toList, [], [(.put, "item")]⟩, .nil⟩],
        ∀ part ∈ m.parts, part ≠ [] ∧ part ≠ ['*'] := by decide +kernel
    refine ⟨handler, rfl, (documented_path_served_iff (by decide) (by decide)
      (show itemForest.Mounted from trivial) hbuild
      (i := 1) rfl rfl rfl hparts (.head _) hreplaces).1 ?_⟩
    rw [hsegs]
    exact ⟨by decide +kernel, meets_only_child rfl (by decide +kernel), by decide +kernel,
      meets_only_child rfl (by decide +kernel), trivial⟩

/-- The router `/w` with the route `/:id/pause`, which has a handler for `PUT`. -/
def pauseForest : Forest String Unit :=
  .router ⟨"/w".toList, [], []⟩ (.route ⟨"/:id/pause".toList, [], [(.put, "pause")]⟩ .nil) .nil

/-- The route is documented as `/w/{id}/pause`, and `PUT /w/7/pause` does not find it. -/
theorem documented_path_not_found : ((describe none pauseForest (1, [])).2.map fun route =>
      resolveFullPath route (describe none pauseForest (1, [])).2) =
        ["/w".toList, "/w/\x7bid\x7d/pause".toList] ∧
    Replaces "/w/\x7bid\x7d/pause".toList "/w/7/pause".toList ∧
    ((register none pauseForest { nextNumber := 1 } >>= build Sorting.insertion).toOption.map
      fun handler => (handler.matchRequest .put "/w/7/pause".toList).result) =
        some (.error "Route not found") := by
  refine ⟨by decide +kernel, ?_, by decide +kernel⟩
  have hdocumented : splitPath "/w/\x7bid\x7d/pause".toList =
      ["w".toList, "\x7bid\x7d".toList, "pause".toList] := by decide +kernel
  have hrequest : splitPath "/w/7/pause".toList = ["w".toList, "7".toList, "pause".toList] := by
    decide +kernel
  rw [Replaces, hdocumented, hrequest]
  exact .cons (.inr rfl) (.cons (.inl ⟨"id".toList, rfl⟩) (.cons (.inr rfl) .nil))

end Congelado.Routing
