import Congelado.Workflow.Model

/-!
# The host, input schemas and system tasks

`Host` collects what the orchestrator uses and does not define: the Lua
interpreter behind `LuaEval` and the text form of a UUID. The interpreter is one
state shared by all evaluations, so an evaluation may depend on the ones before
it; nothing is assumed about it. Of the text form only that distinct UUIDs have
distinct texts is assumed.

`SchemaValidator.validate` is the required-key check of `schema_validator.cppm`,
with its scan of the schema text, and `SystemTaskExecutor.execute` runs the task
types that complete in process.
-/

namespace Congelado

/-- The parts of the running process the orchestrator calls into. -/
structure Host (σ : Type) where
  /-- `LuaEval::eval_condition`: the truth of an expression, and the interpreter
  it leaves behind. -/
  evalCondition : σ → String → Value → Bool × σ
  /-- `LuaEval::eval_value`: the value of an expression as text. -/
  evalValue : σ → String → Value → Option String × σ
  /-- `std::format("{}", uuid)`. -/
  format : Uuid → String
  format_injective : Function.Injective format

/-! ### Input schemas -/

namespace SchemaValidator

def quote : Char := Char.ofNat 34

def backslash : Char := Char.ofNat 92

/-- The suffix of a text that starts at the first occurrence of a pattern. -/
def findSuffix (pattern : List Char) : List Char → Option (List Char)
  | [] => if pattern = [] then some [] else none
  | c :: cs => if pattern.isPrefixOf (c :: cs) then some (c :: cs) else findSuffix pattern cs

/-- `matching_bracket`: how far behind the start of the text the bracket closing
the first one stands, skipping over quoted strings. -/
def matchingBracket : List Char → ℕ → ℕ → Bool → Option ℕ
  | [], _, _, _ => none
  | c :: cs, index, depth, true =>
    if c = backslash then
      match cs with
      | [] => none
      | _ :: cs => matchingBracket cs (index + 2) depth true
    else matchingBracket cs (index + 1) depth (c ≠ quote)
  | c :: cs, index, depth, false =>
    if c = quote then matchingBracket cs (index + 1) depth true
    else if c = '[' then matchingBracket cs (index + 1) (depth + 1) false
    else if c = ']' then
      if depth - 1 = 0 then some index else matchingBracket cs (index + 1) (depth - 1) false
    else matchingBracket cs (index + 1) depth false

/-- The string literals of an array text, with escapes taken off. -/
def requiredNames : List Char → Bool → List Char → List String
  | [], _, _ => []
  | c :: cs, true, current =>
    if c = backslash then
      match cs with
      | [] => []
      | d :: cs => requiredNames cs true (current ++ [d])
    else if c = quote then String.ofList current :: requiredNames cs false []
    else requiredNames cs true (current ++ [c])
  | c :: cs, false, current => requiredNames cs (c = quote) current

/-- `extract_required`: the names in the first array behind the `"required"` key. -/
def extractRequired (schema : String) : List String :=
  match findSuffix (quote :: "required".toList ++ [quote]) schema.toList with
  | none => []
  | some fromKey =>
    match findSuffix ['['] fromKey with
    | none => []
    | some fromOpen =>
      match matchingBracket fromOpen 0 0 false with
      | none => []
      | some close => requiredNames ((fromOpen.take close).drop 1) false []

/-- The keys of an object value; no other value has keys. -/
def keys : Value → List String
  | .object fields => fields.map Prod.fst
  | _ => []

/-- `SchemaValidator::validate`: the first required key that is missing, as the
text of the error. -/
def validate (schema : String) (data : Value) : Except String Unit :=
  match (extractRequired schema).find? (fun key => key ∉ keys data) with
  | some key => .error ("missing required field '" ++ key ++ "'")
  | none => .ok ()

end SchemaValidator

/-! ### System tasks -/

structure SystemTaskOutcome where
  outputData : StringMap := []
  terminateWorkflow : Bool := false
  terminateStatus : WorkflowStatus := .completed
  deriving DecidableEq, Repr

namespace SystemTaskExecutor

variable {σ : Type} (H : Host σ)

/-- `is_system_task`: the task types that run in process. -/
def isSystemTask : TaskType → Bool
  | .terminate | .setVariable | .noop | .join | .fork | .lambda | .inline | .jsonJqTransform => true
  | _ => false

/-- The status a `TERMINATE` task asks for under its `status` key. -/
def terminateStatus (current : WorkflowStatus) (text : String) : WorkflowStatus :=
  if text = "FAILED" then .failed
  else if text = "TIMED_OUT" then .timedOut
  else if text = "TERMINATED" then .terminated
  else current

/-- One entry of a `TERMINATE` task's input: the `status` key asks for a status,
every other key becomes output. -/
def terminateEntry (outcome : SystemTaskOutcome) (e : String × String) : SystemTaskOutcome :=
  if e.1 = "status" then
    { outcome with terminateStatus := terminateStatus outcome.terminateStatus e.2 }
  else { outcome with outputData := outcome.outputData.assign e.1 e.2 }

/-- `execute_terminate`. -/
def executeTerminate (input : StringMap) : SystemTaskOutcome :=
  input.foldl terminateEntry { terminateWorkflow := true }

variable (lua : σ)

/-- `execute_script`. -/
def executeScript (input vars : StringMap) : SystemTaskOutcome × σ :=
  match input.lookup "script" with
  | none => ({}, lua)
  | some script =>
    let result := H.evalValue lua script (toValueInput (vars.merge (input.erase "script")))
    (match result.1 with
      | some value => { outputData := [("result", value)] }
      | none => {}, result.2)

/-- `SystemTaskExecutor::execute`. -/
def execute (type : TaskType) (input vars : StringMap) : SystemTaskOutcome × σ :=
  match type with
  | .terminate => (executeTerminate input, lua)
  | .setVariable | .noop | .join | .fork => ({ outputData := input }, lua)
  | .lambda | .inline | .jsonJqTransform => executeScript H lua input vars
  | _ => ({}, lua)

/-- An entry asks for terminal statuses only. -/
theorem terminateEntry_isTerminal {outcome : SystemTaskOutcome}
    (h : outcome.terminateStatus.isTerminal = true) (e : String × String) :
    (terminateEntry outcome e).terminateStatus.isTerminal = true := by
  unfold terminateEntry terminateStatus
  split_ifs <;> first | rfl | exact h

theorem executeTerminate_isTerminal (input : StringMap) :
    (executeTerminate input).terminateStatus.isTerminal = true := by
  have h : ∀ outcome : SystemTaskOutcome, outcome.terminateStatus.isTerminal = true →
      (input.foldl terminateEntry outcome).terminateStatus.isTerminal = true := by
    induction input with
    | nil => exact fun _ h => h
    | cons e input ih => exact fun outcome h => ih _ (terminateEntry_isTerminal h e)
  exact h _ rfl

theorem executeScript_terminateWorkflow (input vars : StringMap) :
    (executeScript H lua input vars).1.terminateWorkflow = false := by
  unfold executeScript
  cases input.lookup "script" with
  | none => rfl
  | some script =>
    dsimp only
    cases (H.evalValue lua script (toValueInput (vars.merge (input.erase "script")))).1 <;> rfl

/-- A system task asks for termination with a terminal status only. -/
theorem execute_isTerminal {lua : σ} {type : TaskType} {input vars : StringMap}
    (h : (execute H lua type input vars).1.terminateWorkflow = true) :
    (execute H lua type input vars).1.terminateStatus.isTerminal = true := by
  cases type
  case terminate => exact executeTerminate_isTerminal input
  case lambda | inline | jsonJqTransform =>
    have hs := executeScript_terminateWorkflow H lua input vars
    exact absurd h (by simp [execute, hs])
  all_goals exact absurd h (by simp [execute])

end SystemTaskExecutor

end Congelado
