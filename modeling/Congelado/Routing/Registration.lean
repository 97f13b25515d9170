import Congelado.Lib.Fallible
import Congelado.Routing.Table

/-!
# What registration leaves in the array

Two things are read off the fluent registration. The mask of a route gives each method the
position of the handler that was registered in its byte (`Registered`); the bytes of
different methods do not touch each other (`lane_set`), but there are ten methods and only
eight bytes, so that `TRACE` shares a byte with `GET` and `UNKNOWN` one with `POST`. And the
array holds the nodes of the forest in preorder, each with the number of its parent and
with the count of its own children (`register_eq`).
-/

namespace Congelado.Routing

open Sorting List Fallible

/-! ### The bytes of a mask -/

section Lanes

theorem Method.shift_eq (method : Method) : ∃ k < 8, method.shift = 8 * k := by
  cases method
  case get => exact ⟨0, by decide, rfl⟩
  case post => exact ⟨1, by decide, rfl⟩
  case put => exact ⟨2, by decide, rfl⟩
  case delete => exact ⟨3, by decide, rfl⟩
  case patch => exact ⟨4, by decide, rfl⟩
  case head => exact ⟨5, by decide, rfl⟩
  case options => exact ⟨6, by decide, rfl⟩
  case connect => exact ⟨7, by decide, rfl⟩
  case trace => exact ⟨0, by decide, rfl⟩
  case unknown => exact ⟨1, by decide, rfl⟩

theorem testBit_byte (j : ℕ) : Nat.testBit 255 j = decide (j < 8) :=
  Nat.testBit_two_pow_sub_one 8 j

theorem testBit_eq_false {i j : ℕ} (hi : i < 256) (hj : 8 ≤ j) : i.testBit j = false :=
  Nat.testBit_lt_two_pow (lt_of_lt_of_le hi (Nat.pow_le_pow_right (by decide) hj : 2 ^ 8 ≤ 2 ^ j))

/-- Writing a byte changes that byte and no other. -/
theorem lane_set {mask : BitVec 64} {i : ℕ} (hi : i < 256) (method method' : Method) :
    lane (mask &&& ~~~(0xFF#64 <<< method'.shift) ||| BitVec.ofNat 64 i <<< method'.shift) method =
      if method.shift = method'.shift then i else lane mask method := by
  obtain ⟨a, ha, hshift⟩ := method.shift_eq
  obtain ⟨b, hb, hshift'⟩ := method'.shift_eq
  unfold lane
  rw [hshift, hshift']
  by_cases hab : a = b
  · subst hab
    rw [if_pos rfl]
    have hbits : (mask &&& ~~~(0xFF#64 <<< (8 * a)) ||| BitVec.ofNat 64 i <<< (8 * a)) >>>
      (8 * a) &&&
        0xFF#64 = BitVec.ofNat 64 i := by
      ext j hj
      rw [← BitVec.getLsbD_eq_getElem, ← BitVec.getLsbD_eq_getElem]
      simp only [BitVec.getLsbD_and, BitVec.getLsbD_ushiftRight, BitVec.getLsbD_or,
        BitVec.getLsbD_not, BitVec.getLsbD_shiftLeft, BitVec.getLsbD_ofNat, testBit_byte]
      by_cases hj8 : j < 8
      · have hlt : 8 * a + j < 64 := by omega
        simp [hj8, hlt, hj]
      · have hhigh : i.testBit j = false := testBit_eq_false hi (by omega)
        simp [hj8, hhigh]
    rw [hbits, BitVec.toNat_ofNat, Nat.mod_eq_of_lt (by omega)]
  · rw [if_neg (by omega)]
    congr 1
    ext j hj
    rw [← BitVec.getLsbD_eq_getElem, ← BitVec.getLsbD_eq_getElem]
    simp only [BitVec.getLsbD_and, BitVec.getLsbD_ushiftRight, BitVec.getLsbD_or,
      BitVec.getLsbD_not, BitVec.getLsbD_shiftLeft, BitVec.getLsbD_ofNat, testBit_byte]
    by_cases hj8 : j < 8
    · have hlt : 8 * a + j < 64 := by omega
      by_cases hbelow : 8 * a + j < 8 * b
      · simp [hj8, hlt, hbelow]
      · -- the other byte is below: its bits are shifted out
        have hge : ¬8 * a + j - 8 * b < 8 := by omega
        rw [testBit_eq_false hi (not_lt.1 hge)]
        simp [hj8, hlt, hge]
    · simp [hj8]

theorem lane_handlerMask (method : Method) : lane handlerMask method = 0xFF := by
  cases method <;> decide +kernel

end Lanes

/-! ### The handlers of a route -/

section Handlers

variable {H M : Type} {registrations : List (Method × H)} {handlers : Handler H}
    {middlewares : List M} {method : Method} {route : Route H M}

/-- The table that a list of registrations leaves. -/
structure Registered (registrations : List (Method × H)) (handlers : Handler H) : Prop where
  handler : handlers.handler = registrations.map Prod.snd
  bound : registrations.length ≤ 8
  distinct : registrations.Pairwise fun a b => a.1.shift ≠ b.1.shift
  empty : registrations = [] → handlers.mask = handlerMask
  lane : ∀ method, lane handlers.mask method =
    (registrations.findIdx? fun r => r.1.shift == method.shift).getD 0xFF

theorem Registered.nil : Registered ([] : List (Method × H)) {} where
  handler := rfl
  bound := by simp
  distinct := .nil
  empty := fun _ => rfl
  lane := lane_handlerMask

section

variable (h : Registered registrations handlers)

include h

theorem Registered.lane_ne {i : ℕ}
    (hi : (registrations.findIdx? fun r => r.1.shift == method.shift) = some i) :
    Routing.lane handlers.mask method = i ∧ i < 8 := by
  have hlt : i < registrations.length := findIdx?_eq_some_iff_findIdx_eq.1 hi |>.1
  refine ⟨?_, hlt.trans_le h.bound⟩
  rw [h.lane, hi, Option.getD_some]

/-- The handler that is found for a method is the one registered in its byte. -/
theorem Registered.find (pool : List H) (idx : ℕ)
    (hpool : ∀ i < handlers.handler.length, pool[idx + i]? = handlers.handler[i]?)
    (method : Method) :
    poolFind pool idx handlers.mask method =
      (registrations.find? fun r => r.1.shift == method.shift).map Prod.snd := by
  unfold poolFind
  dsimp only
  cases hi : registrations.findIdx? fun r => r.1.shift == method.shift with
  | none =>
    have hlane : Routing.lane handlers.mask method = 0xFF := by rw [h.lane, hi, Option.getD_none]
    have hnone : (registrations.find? fun r => r.1.shift == method.shift) = none := by
      rw [find?_eq_none]
      rw [findIdx?_eq_none_iff] at hi
      intro r hr
      simpa using hi r hr
    rw [if_neg (by simp [hlane]), hnone, Option.map_none]
  | some i =>
    obtain ⟨hlane, hlt⟩ := h.lane_ne hi
    obtain ⟨hi', hp, hfirst⟩ := findIdx?_eq_some_iff_getElem.1 hi
    have hfind : (registrations.find? fun r => r.1.shift == method.shift) =
        some registrations[i] := by
      rw [find?_eq_some_iff_getElem]
      exact ⟨hp, i, hi', rfl, fun j hj => by simpa using hfirst j hj⟩
    have hlength : i < handlers.handler.length := by rwa [h.handler, length_map]
    rw [if_pos (by omega), hlane, hpool i hlength, hfind, h.handler, getElem?_map,
      getElem?_eq_getElem hi']

theorem Registered.mask_eq_iff :
    handlers.mask = handlerMask ↔ registrations = [] := by
  refine ⟨fun hmask => ?_, h.empty⟩
  cases registrations with
  | nil => rfl
  | cons r registrations =>
    -- the first registration has the position `0` in its byte
    have hlane := h.lane r.1
    rw [hmask, lane_handlerMask, findIdx?_cons, if_pos (beq_self_eq_true _)] at hlane
    cases hlane

end

/-- Registering one more handler. -/
theorem Registered.addHandler {handlers handlers' : Handler H}
    (h : Registered registrations handlers) {fn : H}
    (hadd : handlers.addHandler method fn = .ok handlers') :
    Registered (registrations ++ [(method, fn)]) handlers' := by
  unfold Handler.addHandler at hadd
  split_ifs at hadd with hfull hclaimed
  cases hadd
  have hlength : handlers.handler.length = registrations.length := by rw [h.handler, length_map]
  have hlt : handlers.handler.length < 8 := by omega
  have hfree : (registrations.findIdx? fun r => r.1.shift == method.shift) = none := by
    cases hi : registrations.findIdx? fun r => r.1.shift == method.shift with
    | none => rfl
    | some i =>
      obtain ⟨hlane, hi8⟩ := h.lane_ne hi
      omega
  refine ⟨?_, ?_, ?_, fun hnil => ?_, fun method' => ?_⟩
  · show handlers.handler ++ [fn] = _
    rw [h.handler, map_append]
    rfl
  · rw [length_append]
    simp only [length_cons, length_nil]
    omega
  · rw [findIdx?_eq_none_iff] at hfree
    refine pairwise_append.2 ⟨h.distinct, pairwise_singleton _ _, fun a ha b hb => ?_⟩
    rw [mem_singleton.1 hb]
    exact ne_of_beq_false (hfree a ha)
  · simp at hnil
  · rw [lane_set (by omega), findIdx?_append]
    by_cases hshift : method'.shift = method.shift
    · rw [if_pos hshift, hshift, hfree]
      simp [hlength]
    · rw [if_neg hshift, h.lane method']
      have hne : (method.shift == method'.shift) = false := beq_false_of_ne (Ne.symm hshift)
      cases registrations.findIdx? fun r => r.1.shift == method'.shift <;> simp [hne]

/-- The route of a label. -/
structure Label.Makes (label : Label H M) (route : Route H M) : Prop where
  path : route.path = stripSlash label.path
  isBuild : route.isBuild = false
  routerNumber : route.routerNumber = 0
  baseRouter : route.baseRouter = some 0
  childRoutes : route.childRoutes = 0
  middleware : route.middleware = label.middlewares
  handler : Registered label.handlers route.handler

/-- A route made so far: of the path, some middleware and some handlers. -/
theorem Label.makes_use {path : Text} {route' : Route H M}
    {middleware : M} (h : Label.Makes ⟨path, middlewares, []⟩ route)
    (huse : route.use middleware = .ok route') :
    Label.Makes ⟨path, middlewares ++ [middleware], []⟩ route' := by
  unfold Route.use addMiddleware pushBounded at huse
  obtain ⟨chain, hchain, hroute⟩ := bind_eq_ok_iff.1 huse
  split_ifs at hchain
  cases hchain
  cases hroute
  refine { h with middleware := ?_ }
  show route.middleware ++ [middleware] = _
  rw [h.middleware]

theorem Label.makes_addHandler {path : Text}
    {handlers : List (Method × H)} {route' : Route H M} {handler : Method × H}
    (h : Label.Makes ⟨path, middlewares, handlers⟩ route)
    (hadd : route.addHandler handler.1 handler.2 = .ok route') :
    Label.Makes ⟨path, middlewares, handlers ++ [handler]⟩ route' := by
  unfold Route.addHandler at hadd
  split_ifs at hadd
  obtain ⟨handlers', hhandlers, hroute⟩ := bind_eq_ok_iff.1 hadd
  cases hroute
  exact { h with handler := h.handler.addHandler hhandlers }

theorem Label.makes_toRoute {label : Label H M}
    (h : label.toRoute = .ok route) : label.Makes route := by
  obtain ⟨path, middlewares, handlers⟩ := label
  unfold Label.toRoute at h
  obtain ⟨route₀, hnew, h⟩ := bind_eq_ok_iff.1 h
  obtain ⟨route₁, huse, hadd⟩ := bind_eq_ok_iff.1 h
  unfold Route.new at hnew
  split_ifs at hnew
  cases hnew
  have hused : Label.Makes ⟨path, middlewares, []⟩ route₁ :=
    foldlM_invariant (P := fun pre route => Label.Makes ⟨path, pre, []⟩ route)
      ⟨rfl, rfl, rfl, rfl, rfl, rfl, .nil⟩ (fun _ _ _ _ => Label.makes_use) huse
  exact foldlM_invariant (P := fun pre route => Label.Makes ⟨path, middlewares, pre⟩ route) hused
    (fun _ _ _ _ => Label.makes_addHandler) hadd

end Handlers

/-! ### The forest -/

section Forest

variable {H M : Type} {pre post : List (Route H M)} {label : Label H M} {ctx : RouterContext H M}

namespace Forest

/-- The number of siblings. -/
def width : Forest H M → ℕ
  | .nil => 0
  | .route _ rest => rest.width + 1
  | .router _ _ rest => rest.width + 1

/-- The number of routers. -/
def routers : Forest H M → ℕ
  | .nil => 0
  | .route _ rest => rest.routers
  | .router _ children rest => 1 + children.routers + rest.routers

/-- A property of all nodes, of their labels and their children. -/
def All (P : Label H M → Forest H M → Prop) : Forest H M → Prop
  | .nil => True
  | .route label rest => P label .nil ∧ rest.All P
  | .router label children rest => P label children ∧ children.All P ∧ rest.All P

end Forest

/-- The route of a label that can be made. -/
def Label.built (label : Label H M) : Route H M :=
  match label.toRoute with
  | .ok route => route
  | .error _ => {}

def Label.Builds (label : Label H M) : Prop := ∃ route, label.toRoute = .ok route

theorem Label.Builds.toRoute (h : label.Builds) :
    label.toRoute = .ok label.built := by
  obtain ⟨route, hroute⟩ := h
  rw [Label.built, hroute]

theorem Label.Builds.makes (h : label.Builds) : label.Makes label.built :=
  Label.makes_toRoute h.toRoute

/-- A node in its place: its parent's number, its own number, its children and the number
that the first router among them gets. -/
structure Placed (H M : Type) where
  label : Label H M
  base : Option ℕ
  number : ℕ := 0
  children : Forest H M := .nil
  next : ℕ := 0

def Placed.route (p : Placed H M) : Route H M :=
  { p.label.built with
    baseRouter := p.base, routerNumber := p.number, childRoutes := p.children.width % 256 }

variable {route parent : Route H M} {base : ℕ}

/-- A route below a router. -/
abbrev asRoute (label : Label H M) (base : ℕ) : Placed H M := { label, base := some base }

/-- A router with the number `next`. -/
abbrev asRouter (label : Label H M) (base next : ℕ) (children : Forest H M) : Placed H M :=
  { label, base := some base, number := next, children, next := next + 1 }

/-- The nodes below the router `base` in preorder. -/
def entries : Forest H M → ℕ → ℕ → List (Placed H M)
  | .nil, _, _ => []
  | .route label rest, base, next => asRoute label base :: entries rest base next
  | .router label children rest, base, next =>
    asRouter label base next children ::
      (entries children next (next + 1) ++ entries rest base (next + 1 + children.routers))

theorem update_eq
    (hroutes : ctx.routes = pre ++ route :: post) (f : Route H M → Except String (Route H M)) :
    ctx.update pre.length f =
      f route >>= fun route => .ok { ctx with routes := pre ++ route :: post } := by
  have hget : ctx.routes[pre.length]? = some route := by simp [hroutes]
  have hset : ∀ route', ctx.routes.set pre.length route' = pre ++ route' :: post := by
    simp [hroutes]
  unfold RouterContext.update
  simp only [hget, hset]

/-- Handlers that are registered in place are registered on the route itself. -/
theorem foldlM_handle {handlers : List (Method × H)} (hroutes : ctx.routes = pre ++ route :: post)
    (number : ℕ) :
    handlers.foldlM (Router.handle ⟨number, pre.length⟩) ctx =
      handlers.foldlM (fun route handler => route.addHandler handler.1 handler.2) route >>=
        fun route => .ok { ctx with routes := pre ++ route :: post } := by
  induction handlers generalizing ctx route with
  | nil =>
    rw [foldlM_nil, foldlM_nil, pure_bind, ← hroutes]
    rfl
  | cons handler handlers ih =>
    rw [foldlM_cons, foldlM_cons, bind_assoc, Router.handle, update_eq hroutes, bind_assoc]
    congr 1
    funext route'
    exact ih rfl

/-- A change of the number does not interfere with the handlers. -/
theorem foldlM_addHandler_number (handlers : List (Method × H)) (route : Route H M) (number : ℕ) :
    handlers.foldlM (fun route handler => route.addHandler handler.1 handler.2)
        { route with routerNumber := number } =
      handlers.foldlM (fun route handler => route.addHandler handler.1 handler.2) route >>=
        fun route => .ok { route with routerNumber := number } := by
  induction handlers generalizing route with
  | nil => rfl
  | cons handler handlers ih =>
    have hstep : Route.addHandler { route with routerNumber := number } handler.1 handler.2 =
        route.addHandler handler.1 handler.2 >>=
          fun route => .ok { route with routerNumber := number } := by
      unfold Route.addHandler
      split_ifs
      · rw [bind_assoc]
        rfl
      · rfl
    rw [foldlM_cons, foldlM_cons, hstep, bind_assoc, bind_assoc]
    congr 1
    funext route'
    exact ih route'

/-- A router enters the array with its handlers, below the root. -/
theorem new_handle {α : Type} (k : Router → RouterContext H M → Except String α) : (do
      let (router, ctx) ← Router.new label.path label.middlewares ctx
      let ctx ← label.handlers.foldlM router.handle ctx
      k router ctx) =
    label.toRoute >>= fun route => k ⟨ctx.nextNumber, ctx.routes.length⟩
      { routes := ctx.routes ++ [{ route with routerNumber := ctx.nextNumber }]
        baseRouterChildren := ctx.baseRouterChildren + 1
        nextNumber := ctx.nextNumber + 1 } := by
  unfold Router.new Label.toRoute
  cases hnew : Route.new (H := H) (M := M) label.path with
  | error e => rfl
  | ok route₀ =>
    cases huse : label.middlewares.foldlM Route.use route₀ with
    | error e => simp only [ok_bind, error_bind, huse]
    | ok route₁ =>
      have hmakes : Label.Makes (⟨label.path, label.middlewares, []⟩ : Label H M) route₁ := by
        refine Label.makes_toRoute (bind_eq_ok_iff.2 ⟨route₀, hnew, ?_⟩)
        exact bind_eq_ok_iff.2 ⟨route₁, huse, rfl⟩
      have hadd : RouterContext.addRoute { route₁ with routerNumber := ctx.nextNumber }
          { ctx with nextNumber := ctx.nextNumber + 1 } = (ctx.routes.length,
            { routes := ctx.routes ++ [{ route₁ with routerNumber := ctx.nextNumber }]
              baseRouterChildren := ctx.baseRouterChildren + 1
              nextNumber := ctx.nextNumber + 1 }) :=
        congrArg (Prod.mk _) (congrArg (RouterContext.mk _ · _) (if_pos hmakes.baseRouter))
      simp only [ok_bind, huse, hadd]
      rw [foldlM_handle rfl, foldlM_addHandler_number _ route₁, bind_assoc, bind_assoc]
      rfl

variable (forest : Forest H M)

/-- All routes of a forest can be made. -/
def Forest.Builds : Prop := forest.All fun label _ => label.Builds

/-- The route with more children. -/
def Route.counting (route : Route H M) (width : ℕ) : Route H M :=
  { route with childRoutes := (route.childRoutes + width) % 256 }

theorem Route.counting_zero (h : route.childRoutes < 256) :
    route.counting 0 = route :=
  congrArg (Route.mk _ _ _ _ · _ _) (Nat.mod_eq_of_lt h)

theorem Route.counting_increment (route : Route H M) (width : ℕ) :
    route.incrementChildRoutes.counting width = route.counting (width + 1) := by
  have hcount : ((route.childRoutes + 1) % 256 + width) % 256 =
      (route.childRoutes + (width + 1)) % 256 := by omega
  exact congrArg (Route.mk _ _ _ _ · _ _) hcount

theorem addRoute_eq {c n : ℕ} (hbase : base ≠ 0) (sub : Route H M) :
    Router.addRoute ⟨base, pre.length⟩ sub ⟨pre ++ parent :: post, c, n⟩ =
      .ok ⟨pre ++ parent.incrementChildRoutes :: (post ++ [{ sub with baseRouter := some base }]),
        c, n⟩ := by
  have hnot : ¬(some base = some 0) := fun h => hbase (Option.some.inj h)
  unfold Router.addRoute RouterContext.addRoute
  simp only [if_neg hnot, append_assoc, cons_append]
  exact update_eq rfl _

theorem addRouter_eq {pre mid post : List (Route H M)} {sub : Route H M} {number c n : ℕ} :
    Router.addRouter ⟨base, pre.length⟩ ⟨number, (pre ++ parent :: mid).length⟩
        ⟨pre ++ parent :: mid ++ sub :: post, c, n⟩ =
      .ok
        ⟨pre ++ parent.incrementChildRoutes ::
        (mid ++ { sub with baseRouter := some base } :: post), c - 1, n⟩ := by
  have hafter : pre ++ parent :: mid ++ { sub with baseRouter := some base } :: post =
      pre ++ parent :: (mid ++ { sub with baseRouter := some base } :: post) := by
    rw [append_assoc, cons_append]
  unfold Router.addRouter
  rw [update_eq rfl, bind_assoc]
  exact update_eq hafter _

theorem Placed.route_eq {p : Placed H M} (h : p.label.toRoute = .ok route) :
    p.route = { route with
      baseRouter := p.base, routerNumber := p.number, childRoutes := p.children.width % 256 } := by
  rw [Placed.route, Label.built, h]

theorem Placed.route_leaf (h : label.toRoute = .ok route) :
    (asRoute label base).route = { route with baseRouter := some base } := by
  have hmakes := Label.makes_toRoute h
  rw [Placed.route_eq h]
  exact congrArg₂ (Route.mk _ _ · _ · _ _) hmakes.routerNumber.symm hmakes.childRoutes.symm

/-- The route of a router after its children, before and after it is handed to its parent. -/
theorem Placed.route_router {children : Forest H M} (h : label.toRoute = .ok route) (n : ℕ) :
    (asRouter label base n children).route =
      { Route.counting { route with routerNumber := n } children.width with
        baseRouter := some base } := by
  have hmakes := Label.makes_toRoute h
  rw [Placed.route_eq h, Route.counting]
  dsimp only
  rw [hmakes.childRoutes, zero_add]

/-- A computation that gives `x` if `b` holds and fails otherwise. -/
structure Gives {α : Type} (b : Prop) (a : Except String α) (x : α) : Prop where
  ok : b → a = .ok x
  error : ¬b → ∃ e, a = .error e

theorem Gives.bind {α β : Type} {b c : Prop} {a : Except String α} {f : α → Except String β}
    {x : α} {y : β} (ha : Gives b a x) (hf : b → Gives c (f x) y) :
    Gives (b ∧ c) (a >>= f) y := by
  by_cases hb : b
  · rw [ha.ok hb, ok_bind]
    exact ⟨fun h => (hf hb).ok h.2, fun h => (hf hb).error fun hc => h ⟨hb, hc⟩⟩
  · obtain ⟨e, he⟩ := ha.error hb
    rw [he]
    exact ⟨fun h => absurd h.1 hb, fun _ => ⟨e, rfl⟩⟩

theorem gives_toRoute (label : Label H M) : Gives label.Builds label.toRoute label.built := by
  refine ⟨Label.Builds.toRoute, fun h => ?_⟩
  cases hroute : label.toRoute with
  | ok route => exact absurd ⟨route, hroute⟩ h
  | error e => exact ⟨e, rfl⟩

/-- The registration below a router: its count of children grows, and the nodes are appended
in preorder. -/
theorem register_some
    {c n : ℕ} (hchild : parent.childRoutes < 256) (hbase : base ≠ 0) (hnext : n ≠ 0) :
    Gives forest.Builds (register (some ⟨base, pre.length⟩) forest ⟨pre ++ parent :: post, c, n⟩)
      ⟨pre ++ parent.counting forest.width :: (post ++ (entries forest base n).map Placed.route),
        c, n + forest.routers⟩ := by
  induction forest generalizing pre post parent base c n with
  | nil =>
    refine ⟨fun _ => ?_, fun h => absurd trivial h⟩
    rw [Forest.width, Route.counting_zero hchild, entries, map_nil, append_nil]
    rfl
  | route label rest ih =>
    have hlt : parent.incrementChildRoutes.childRoutes < 256 := Nat.mod_lt _ (by decide)
    rw [register]
    refine (gives_toRoute label).bind fun hbuilds => ?_
    dsimp only
    rw [addRoute_eq hbase, ok_bind, Forest.width, ← Route.counting_increment, entries,
      map_cons, Placed.route_leaf hbuilds.toRoute,
      append_cons post _ (.map _ _)]
    exact ih hlt hbase hnext
  | router label children rest ihc ih =>
    have hlt : parent.incrementChildRoutes.childRoutes < 256 := Nat.mod_lt _ (by decide)
    -- the router's own route first, then its children, then the parent's count
    have hstep : register (some ⟨base, pre.length⟩) (.router label children rest)
          ⟨pre ++ parent :: post, c, n⟩ =
        label.toRoute >>= fun route =>
          register (some ⟨n, (pre ++ parent :: post).length⟩) children
            ⟨pre ++ parent :: post ++ [{ route with routerNumber := n }], c + 1, n + 1⟩ >>=
              fun ctx =>
          Router.addRouter ⟨base, pre.length⟩ ⟨n, (pre ++ parent :: post).length⟩ ctx >>=
            register (some ⟨base, pre.length⟩) rest := by
      rw [register]
      exact new_handle fun router ctx => register (some router) children ctx >>= fun ctx =>
        Router.addRouter ⟨base, pre.length⟩ router ctx >>= register (some ⟨base, pre.length⟩) rest
    rw [hstep]
    refine (gives_toRoute label).bind fun hbuilds => ?_
    have hzero : ({ label.built with routerNumber := n } : Route H M).childRoutes < 256 :=
      hbuilds.makes.childRoutes.trans_lt (Nat.succ_pos 255)
    refine (ihc hzero hnext n.succ_ne_zero).bind fun _ => ?_
    have hcount : n + (1 + children.routers + rest.routers) =
        n + 1 + children.routers + rest.routers := by omega
    rw [nil_append, addRouter_eq, ok_bind, ← Placed.route_router hbuilds.toRoute, Forest.width,
      ← Route.counting_increment, entries, map_cons, map_append,
      ← cons_append (a := (asRouter label base n children).route), ← append_assoc post,
      Forest.routers, hcount]
    exact ih hlt hbase (by omega)

/-- The whole registration, off the root. -/
theorem register_none {routes : List (Route H M)} {c n : ℕ} (hnext : n ≠ 0) :
    Gives forest.Builds (register none forest ⟨routes, c, n⟩)
      ⟨routes ++ (entries forest 0 n).map Placed.route, c + forest.width, n + forest.routers⟩ := by
  induction forest generalizing routes c n with
  | nil =>
    refine ⟨fun _ => ?_, fun h => absurd trivial h⟩
    rw [entries, map_nil, append_nil]
    rfl
  | route label rest ih =>
    rw [register]
    refine (gives_toRoute label).bind fun hbuilds => ?_
    have hbase := hbuilds.makes.baseRouter
    have hplaced : (asRoute label 0).route = label.built := by
      rw [Placed.route_leaf hbuilds.toRoute, ← hbase]
    have hwidth : c + (rest.width + 1) = c + 1 + rest.width := by omega
    dsimp only
    rw [ok_bind, RouterContext.addRoute, if_pos hbase, entries, map_cons, hplaced, Forest.width,
      hwidth, append_cons routes _ (.map _ _)]
    exact ih hnext
  | router label children rest _ ih =>
    -- a router takes its number before its children
    have hstep : register none (.router label children rest) ⟨routes, c, n⟩ =
        label.toRoute >>= fun route =>
          register (some ⟨n, routes.length⟩) children
            ⟨routes ++ [{ route with routerNumber := n }], c + 1, n + 1⟩ >>= register none
              rest := by
      rw [register]
      exact new_handle fun router ctx => register (some router) children ctx >>= register none rest
    rw [hstep]
    refine (gives_toRoute label).bind fun hbuilds => ?_
    have hzero : ({ label.built with routerNumber := n } : Route H M).childRoutes < 256 :=
      hbuilds.makes.childRoutes.trans_lt (Nat.succ_pos 255)
    refine (register_some children hzero hnext n.succ_ne_zero).bind fun _ => ?_
    have hplaced : (asRouter label 0 n children).route =
        Route.counting { label.built with routerNumber := n } children.width := by
      rw [Placed.route_router hbuilds.toRoute, ← hbuilds.makes.baseRouter]
      rfl
    have hwidth : c + (rest.width + 1) = c + 1 + rest.width := by omega
    have hcount : n + (1 + children.routers + rest.routers) =
        n + 1 + children.routers + rest.routers := by omega
    rw [nil_append, ← hplaced, entries, map_cons, map_append, ← cons_append,
      ← append_assoc, Forest.width, hwidth, Forest.routers, hcount]
    exact ih (by omega)

end Forest

end Congelado.Routing
