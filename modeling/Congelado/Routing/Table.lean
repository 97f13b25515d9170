import Congelado.Lib.Sorting

/-!
# The route table

Routes and routers are registered in a `RouterContext`, an array of routes each of which
names its parent by a number. `RouteBuilder.build` sorts the array by runs of siblings,
distributes it over rows, one for each depth, and writes the rows one after the other into
the table of a `RouteHandler`. A node finds its children by an offset. `matchRequest` walks
the table along the segments of a path: `findChild` probes the children of a node from the
place that the hash of the segment names, and the handlers of the last node are found by a
mask that has a byte for each method.

A text is the list of its bytes, each written as a character. Handlers are an arbitrary
type `H`, middleware an arbitrary type `M`: what they do to a request has no influence on
the way through the table.
-/

namespace Congelado.Routing

open Sorting

abbrev Text := List Char

/-! ### Utilities -/

inductive EdgeKind
  | path
  | param
  | wild
  deriving DecidableEq

def splitPath (path : Text) : List Text :=
  (path.splitOn '/').filter (· ≠ [])

def fnv1a (text : Text) : UInt32 :=
  text.foldl (fun hash chr => (hash * 33) ^^^ UInt32.ofNat (chr.toNat % 256)) 5381

inductive Method
  | get
  | post
  | put
  | delete
  | patch
  | head
  | options
  | connect
  | trace
  | unknown
  deriving DecidableEq

def Method.toUnderlying : Method → ℕ
  | .get => 0
  | .post => 1
  | .put => 2
  | .delete => 3
  | .patch => 4
  | .head => 5
  | .options => 6
  | .connect => 7
  | .trace => 8
  | .unknown => 9

/-! ### Handlers -/

def handlerMask : BitVec 64 := BitVec.allOnes 64

/-- The distance by which a mask is shifted to a method's byte. C++ leaves a shift of a
64-bit word by 64 or more undefined; the shift instructions take the count modulo 64, and so
does this model. -/
def Method.shift (method : Method) : ℕ := method.toUnderlying * 8 % 64

/-- `(mask >> shift) & 0xFF`. -/
def lane (mask : BitVec 64) (method : Method) : ℕ := ((mask >>> method.shift) &&& 0xFF#64).toNat

/-- `Handler<8>`: the handlers in the order of their registration, and the mask. -/
structure Handler (H : Type) where
  handler : List H := []
  mask : BitVec 64 := handlerMask

namespace Handler

variable {H : Type}

def addHandler (method : Method) (handler : H) (handlers : Handler H) : Except String (Handler H) :=
  if 8 ≤ handlers.handler.length then
    .error ("HandlerSize cannot be greater than MaxHandlerSize due to offerflow limitations, " ++
      "please check your routes")
  else if lane handlers.mask method ≠ 0xFF then .error "Handler for method already exists"
  else .ok {
    handler := handlers.handler ++ [handler]
    mask := handlers.mask &&& ~~~(0xFF#64 <<< method.shift) |||
      BitVec.ofNat 64 handlers.handler.length <<< method.shift }

def find (method : Method) (handlers : Handler H) : Option H :=
  let idx := lane handlers.mask method
  if idx ≠ 0xFF then handlers.handler[idx]? else none

end Handler

/-- `HandlerPool::find`. -/
def poolFind {H : Type} (pool : List H) (idx : ℕ) (mask : BitVec 64) (method : Method) : Option H :=
  let offset := lane mask method
  if offset ≠ 0xFF then pool[idx + offset]? else none

/-- A push into an array of fixed size. -/
def pushBounded {α : Type} (size : ℕ) (message : String) (pool : List α) (x : α) :
    Except String (List α) :=
  if size ≤ pool.length then .error message else .ok (pool ++ [x])

/-- `HandlerPool<64>::add_handler`. -/
def poolAdd {H : Type} (pool : List H) (handler : H) : Except String (List H) :=
  pushBounded 64 ("HandlerSize cannot be greater than MaxHandlerSize due to offerflow " ++
    "limitations, please check your routes") pool handler

/-- `Middleware<10>::add_middleware`. -/
def addMiddleware {M : Type} (chain : List M) (middleware : M) : Except String (List M) :=
  pushBounded 10 ("MiddlewareSize cannot be greater than MaxHandlerSize due to offerflow " ++
    "limitations, please check your routes") chain middleware

/-! ### Registration -/

/-- A route of the array. A base router `none` is the sentinel of the root and the
fallback; `some 0` is the root. -/
structure Route (H M : Type) where
  path : Text := []
  isBuild : Bool := false
  routerNumber : ℕ := 0
  baseRouter : Option ℕ := some 0
  childRoutes : ℕ := 0
  handler : Handler H := {}
  middleware : List M := []

/-- One leading slash is stripped. -/
def stripSlash (path : Text) : Text :=
  if 1 < path.length ∧ path.head? = some '/' then path.tail else path

namespace Route

variable {H M : Type}

def new (path : Text) : Except String (Route H M) :=
  if path ≠ ['*'] ∧ '/' ∉ path then .error "Route path must start '/'"
  else .ok { path := stripSlash path }

variable (route : Route H M)

def use (middleware : M) : Except String (Route H M) := do
  let chain ← addMiddleware route.middleware middleware
  .ok { route with middleware := chain }

/-- `add_handler` and `add_handler_in_place`. -/
def addHandler (method : Method) (handler : H) : Except String (Route H M) :=
  if (route.handler.find method).isNone then do
    let handlers ← route.handler.addHandler method handler
    .ok { route with handler := handlers }
  else .error ("Handler for method " ++ toString method.toUnderlying ++
    " already exists on path " ++ String.ofList route.path)

/-- The count of children is a byte. -/
def incrementChildRoutes : Route H M :=
  { route with childRoutes := (route.childRoutes + 1) % 256 }

end Route

/-- The array of routes, whose first two slots are reserved; the number of routes that hang
off the root; and the counter that numbers the routers of the process. -/
structure RouterContext (H M : Type) where
  routes : List (Route H M) := [{}, {}]
  baseRouterChildren : ℕ := 0
  nextNumber : ℕ := 1

namespace RouterContext

variable {H M : Type}

def addRoute (route : Route H M) (ctx : RouterContext H M) : ℕ × RouterContext H M :=
  (ctx.routes.length, { ctx with
    routes := ctx.routes ++ [route]
    baseRouterChildren := if route.baseRouter = some 0 then ctx.baseRouterChildren + 1
      else ctx.baseRouterChildren })

/-- Work on the route at an index: `ctx[index]`. -/
def update (index : ℕ) (f : Route H M → Except String (Route H M)) (ctx : RouterContext H M) :
    Except String (RouterContext H M) :=
  match ctx.routes[index]? with
  | none => .error "RouterContext index out of bounds"
  | some route => do
    let route ← f route
    .ok { ctx with routes := ctx.routes.set index route }

end RouterContext

/-- `Router`: its number, and the index of its route. -/
structure Router where
  number : ℕ
  index : ℕ

namespace Router

variable {H M : Type}

def new (path : Text) (middlewares : List M) (ctx : RouterContext H M) :
    Except String (Router × RouterContext H M) := do
  let number := ctx.nextNumber
  let ctx := { ctx with nextNumber := number + 1 }
  let route ← Route.new path
  let route ← middlewares.foldlM Route.use route
  let (index, ctx) := ctx.addRoute { route with routerNumber := number }
  .ok (⟨number, index⟩, ctx)

/-- `get`, `post`, `put`, `delt` and `patch`. -/
def handle (router : Router) (ctx : RouterContext H M) (handler : Method × H) :
    Except String (RouterContext H M) :=
  ctx.update router.index fun route => route.addHandler handler.1 handler.2

def addRouter (router sub : Router) (ctx : RouterContext H M) :
    Except String (RouterContext H M) := do
  let ctx ← ctx.update sub.index fun route => .ok { route with baseRouter := some router.number }
  let ctx := { ctx with baseRouterChildren := ctx.baseRouterChildren - 1 }
  ctx.update router.index fun route => .ok route.incrementChildRoutes

def addRoute (router : Router) (sub : Route H M) (ctx : RouterContext H M) :
    Except String (RouterContext H M) :=
  let (_, ctx) := ctx.addRoute { sub with baseRouter := some router.number }
  ctx.update router.index fun route => .ok route.incrementChildRoutes

end Router

/-- What a route or a router is registered with. -/
structure Label (H M : Type) where
  path : Text
  middlewares : List M := []
  handlers : List (Method × H) := []

/-- Siblings in the order of their registration: routes, and routers with their children. -/
inductive Forest (H M : Type)
  | nil
  | route (label : Label H M) (rest : Forest H M)
  | router (label : Label H M) (children : Forest H M) (rest : Forest H M)

/-- `Route<>{path, middlewares...}.get(handler)...`. -/
def Label.toRoute {H M : Type} (label : Label H M) : Except String (Route H M) := do
  let route ← Route.new label.path
  let route ← label.middlewares.foldlM Route.use route
  label.handlers.foldlM (fun route handler => route.addHandler handler.1 handler.2) route

/-- The fluent registration, depth first: a router enters the array before its children, and
is handed to its parent after them. -/
def register {H M : Type} (parent : Option Router) :
    Forest H M → RouterContext H M → Except String (RouterContext H M)
  | .nil, ctx => .ok ctx
  | .route label rest, ctx => do
    let route ← label.toRoute
    let ctx ← match parent with
      | none => .ok (ctx.addRoute route).2
      | some parent => parent.addRoute route ctx
    register parent rest ctx
  | .router label children rest, ctx => do
    let (router, ctx) ← Router.new label.path label.middlewares ctx
    let ctx ← label.handlers.foldlM router.handle ctx
    let ctx ← register (some router) children ctx
    let ctx ← match parent with
      | none => .ok ctx
      | some parent => parent.addRouter router ctx
    register parent rest ctx

/-! ### The table -/

structure RouterNode where
  kind : EdgeKind := .path
  path : Text := []
  childrenOffset : ℕ := 0
  childrenLength : ℕ := 0
  middlewareOffset : ℕ := 0
  middlewareLength : ℕ := 0
  handlerOffset : ℕ := 0
  handlerMask : BitVec 64 := 0
  deriving DecidableEq

/-- `RouteHandler`: the table up to its index, and the two pools. -/
structure RouteHandler (H M : Type) where
  table : List RouterNode := []
  handler : List H := []
  middleware : List M := []

structure RouterBuildingHelper (H M : Type) where
  kind : EdgeKind
  literal : Text
  handlers : Handler H
  middlewares : List M
  children : ℕ
  routerNumber : ℕ

section Build

variable {H M : Type}

def determineNodeKind (path : Text) : Except String (EdgeKind × Text) :=
  if path = [] then .error "Path cannot be empty"
  else if path = ['*'] then .ok (.wild, [])
  else if path.head? = some ':' then .ok (.param, [])
  else .ok (.path, path)

def resolveTargetRow (table : List (List (RouterBuildingHelper H M))) (route : Route H M) :
    Except String ℕ :=
  match route.baseRouter with
  | none => .ok 0
  | some base =>
    let row := table.findIdx fun row => row.any (·.routerNumber == base)
    if row = table.length then
      .error ("Parent router with number " ++ toString base ++ " not found for route " ++
        String.ofList route.path)
    else .ok (row + 1)

/-- The router number that a route is tagged with: routers can only be literal segments, and a
leaf has the tag `0`. -/
def routerTag (route : Route H M) (kind : EdgeKind) : Except String ℕ :=
  if route.childRoutes ≠ 0 then
    match kind with
    | .path => .ok route.routerNumber
    | .param => .error "Router path cannot be parameterized"
    | .wild => .error "Router path cannot be wildcard"
  else .ok 0

/-- The table grows to the row, and the node is pushed. -/
def pushRow {α : Type} (table : List (List α)) (row : ℕ) (node : α) : List (List α) :=
  (table ++ List.replicate (row + 1 - table.length) []).modify row (· ++ [node])

def insertRoute (table : List (List (RouterBuildingHelper H M))) (route : Route H M) :
    Except String (List (List (RouterBuildingHelper H M))) :=
  if route.isBuild then .ok table
  else do
    let (kind, literal) ← determineNodeKind route.path
    let routerNumber ← routerTag route kind
    let row ← resolveTargetRow table route
    .ok (pushRow table row
      ⟨kind, literal, route.handler, route.middleware, route.childRoutes, routerNumber⟩)

/-- The comparison by which a run of siblings is sorted. -/
def less (groupSize : ℕ) (left right : Route H M) : Bool :=
  if left.path = ['*'] then false
  else if right.path = ['*'] then true
  else if left.baseRouter = none ∧ right.baseRouter ≠ none then true
  else if right.baseRouter = none ∧ left.baseRouter ≠ none then false
  else (fnv1a left.path).toNat % groupSize < (fnv1a right.path).toNat % groupSize

/-- The array in runs that share their base router, each sorted in place. -/
def sortRuns (alg : Algorithm) (routes : List (Route H M)) : List (Route H M) :=
  (routes.splitBy fun left right => left.baseRouter == right.baseRouter).flatMap fun run =>
    alg.sort (less run.length) run

namespace RouteHandler

/-- `add_route`. The offset has 16 bits, and the length is a byte. -/
def addRoute (node : RouterBuildingHelper H M) (childrenOffset : ℕ) (handler : RouteHandler H M) :
    Except String (RouteHandler H M) := do
  let middleware ← node.middlewares.foldlM addMiddleware handler.middleware
  let pool ← node.handlers.handler.foldlM poolAdd handler.handler
  .ok {
    table := handler.table ++ [{
      kind := node.kind
      path := node.literal
      childrenOffset := childrenOffset % 65536
      childrenLength := node.children % 256
      middlewareOffset := handler.middleware.length
      middlewareLength := node.middlewares.length
      handlerOffset := handler.handler.length
      handlerMask := node.handlers.mask }]
    handler := pool
    middleware := middleware }

/-- The rest of a row of `size` nodes from an index on. -/
def addRow (size : ℕ) : List (RouterBuildingHelper H M) → ℕ → ℕ → RouteHandler H M →
    Except String (RouteHandler H M)
  | [], _, _, handler => .ok handler
  | node :: row, index, cumulativeChildren, handler => do
    let offset := if 0 < node.children then size - index + cumulativeChildren else 0
    let handler ← handler.addRoute node offset
    addRow size row (index + 1) (cumulativeChildren + node.children) handler

end RouteHandler

/-- `RouterContext::build`. -/
def RouterContext.build (alg : Algorithm) (ctx : RouterContext H M) :
    Except String (RouteHandler H M) := do
  let table ← (sortRuns alg ctx.routes).foldlM insertRoute []
  table.foldlM (fun handler row => RouteHandler.addRow row.length row 0 0 handler) {}

/-- `RouteBuilder::build`: the root and the fallback take the reserved slots. -/
def build (alg : Algorithm) (ctx : RouterContext H M) : Except String (RouteHandler H M) :=
  let root : Route H M :=
    { path := ['/'], baseRouter := none, childRoutes := ctx.baseRouterChildren % 256 }
  let fallback : Route H M := { path := ['*'], baseRouter := none }
  RouterContext.build alg { ctx with routes := (ctx.routes.set 0 root).set 1 fallback }

end Build

/-! ### Dispatch -/

namespace RouterNode

/-- The probe of the siblings, from the bucket of the segment round to the one before it: the
index of the child that is taken. The wildcard is remembered. -/
def probe (seg : Text) (table : List RouterNode) (origin hash length : ℕ) :
    List ℕ → Option ℕ → Option ℕ
  | [], wildIndex => wildIndex
  | i :: rest, wildIndex =>
    let idx := (origin + (hash + i) % length) % 256
    let node := table.getD idx {}
    match node.kind with
    | .path => if node.path = seg then some idx
        else probe seg table origin hash length rest wildIndex
    | .param => some idx
    | .wild => probe seg table origin hash length rest (some idx)

/-- `find_child`: the index of the child, which is then read from the table. Indices are
bytes. -/
def findChild (seg : Text) (table : List RouterNode) (currentIndex : ℕ) (node : RouterNode) :
    Option ℕ :=
  if node.childrenLength = 0 then none
  else
    let origin := (currentIndex + node.childrenOffset) % 256
    if 1 < node.childrenLength then
      probe seg table origin ((fnv1a seg).toNat % node.childrenLength) node.childrenLength
        (List.range node.childrenLength) none
    else
      let child := table.getD origin {}
      match child.kind with
      | .path => if child.path = seg then some origin else none
      | .param => some origin
      | .wild => some origin

end RouterNode

namespace RouteHandler

variable {H M : Type}

/-- The walk from a node along the segments: the middleware chains that were started on the
way, and the node it ends at, unless a segment has no matching child. -/
def walk (handler : RouteHandler H M) :
    List Text → ℕ → RouterNode → List (List M) × Option RouterNode
  | [], _, current => ([], some current)
  | seg :: rest, currentIndex, current =>
    match current.findChild seg handler.table currentIndex with
    | none => ([], none)
    | some idx =>
      let node := handler.table.getD idx {}
      let result := walk handler rest idx node
      if 0 < node.middlewareLength then
        ((handler.middleware.drop node.middlewareOffset).take node.middlewareLength :: result.1,
          result.2)
      else result

/-- What a request comes to: the chains that were started, and the handler that was run or
the error that was thrown. -/
structure Outcome (H M : Type) where
  chains : List (List M)
  result : Except String H

/-- `match`. The table has no global middleware: `build` adds none. -/
def matchRequest (handler : RouteHandler H M) (method : Method) (path : Text) : Outcome H M :=
  let (chains, node) := handler.walk (splitPath path) 0 (handler.table.getD 0 {})
  match node with
  | none => ⟨chains, .error "Route not found"⟩
  | some current =>
    if current.handlerMask ≠ handlerMask then
      match poolFind handler.handler current.handlerOffset current.handlerMask method with
      | some fn => ⟨chains, .ok fn⟩
      | none => ⟨chains, .error ("Wrong method for route: " ++ toString method.toUnderlying)⟩
    else ⟨chains, .error "Route not found"⟩

end RouteHandler

end Congelado.Routing
