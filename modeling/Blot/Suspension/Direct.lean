import Blot.Suspension.Lowering
import Blot.Suspension.Observed

/-!
# Direct execution of staged blocks

What a staged module means: its blocks run in order, an activation has one store of values, which keeps every value
that was computed in it, and a call in the middle of a block resumes at the next operation.  A function that was
checked before has its continuations for blocks; they share the one store of their activation, so that nothing is
captured.
-/

namespace Blot.Suspension.Direct

open Blot.Hir Blot.Support

variable {V σ : Type}

/-- Where an activation is: in a block of a staged function, or in a continuation of a checked one. -/
inductive Position where
  | staged (function : StagedFunction) (operations : List StagedOperation) (terminator : StagedTerminator)
  | checked (function : Function) (instructions : List Instruction) (transition : Transition)

inductive Await where
  | bind (value : ValueId) (position : Position)
  | edge (function : Function) (edge : Edge)

inductive State (V : Type) where
  | running (values : Table ValueId V) (position : Position)
  | waiting (values : Table ValueId V) (await : Await)

/-- A run: the innermost activation, and the callers below it. -/
structure Run (V : Type) where
  state : State V
  callers : List (Table ValueId V × Await)

def target (operation : StagedOperation) : Except Fault CallTarget :=
  if operation.kind = "call.direct" then do
    let id ← demand operation.function (.absentTarget operation.result)
    pure (.function id)
  else do
    let capability ← demand operation.capability (.absentTarget operation.result)
    let name ← demand operation.operation (.absentTarget operation.result)
    pure (if operation.kind = "host.call" then .host capability name else .link capability name)

def enter (function : StagedFunction) (values : Table ValueId V) (block : ℕ) (arguments : List ValueId) :
    Except Fault (State V) := do
  let found ← demand (function.blocks.find? (·.id == block)) (.absentContinuation block)
  let xs ← collect (readValue values) arguments
  if found.parameters.length = xs.length then
    pure (.running (values.extend ((found.parameters.map (·.value)).zip xs))
      (.staged function found.operations found.terminator))
  else .error (.absentArgument block)

def follow (function : Function) (values : Table ValueId V) (edge : Edge) (result : Option V) :
    Except Fault (State V) := do
  let found ← function.fetch edge.target
  let arguments ← collect (readArgument values) edge.arguments
  let values ← (found.parameters.zip arguments).foldlM (bindParameter result) values
  pure (.running values (.checked function found.instructions found.transition))

def Await.take (values : Table ValueId V) (result : V) : Await → Except Fault (State V)
  | .bind value position => pure (.running (values.insert value result) position)
  | .edge function next => follow function values next (some result)

def call (module : StagedModule) (function : FunctionId) (arguments : List V) :
    Except Fault (Except String (State V)) :=
  match module.functions.find? (·.id == function) with
  | some found => do
    let block ← demand (found.blocks.find? (·.id == found.entryBlock)) (.absentContinuation found.entryBlock)
    if block.parameters.length = arguments.length then
      pure (.ok (.running (Table.extend [] ((block.parameters.map (·.value)).zip arguments))
        (.staged found block.operations block.terminator)))
    else pure (.error "interpreter entry arity differs from its arguments")
  | none =>
    match module.checkedFunctions.find? (·.id == function) with
    | some found => do
      let first ← found.fetch found.entry
      if first.parameters.length = arguments.length then
        pure (.ok (.running (Table.extend [] ((first.parameters.map (·.value)).zip arguments))
          (.checked found first.instructions first.transition)))
      else pure (.error "interpreter entry arity differs from its arguments")
    | none => pure (.error "interpreter entry function is absent")

def callOut (module : StagedModule) (values : Table ValueId V) (callers : List (Table ValueId V × Await))
    (target : CallTarget) (arguments : List ValueId) (await : Await) : Except Fault (Move (Run V) V) := do
  let xs ← collect (readValue values) arguments
  match target with
  | .function function =>
    match ← call module function xs with
    | .ok callee => pure (.on ⟨callee, (values, await) :: callers⟩)
    | .error message => pure (.refused message)
  | target => pure (.request target xs ⟨.waiting values await, callers⟩)

def giveBack (values : Table ValueId V) (callers : List (Table ValueId V × Await)) (value : ValueId) :
    Except Fault (Move (Run V) V) := do
  let x ← readValue values value
  match callers with
  | [] => pure (.returned x)
  | (values, await) :: callers =>
    let state ← await.take values x
    pure (.on ⟨state, callers⟩)

variable [Values V]

def terminate (function : StagedFunction) (values : Table ValueId V) (callers : List (Table ValueId V × Await)) :
    StagedTerminator → Except Fault (Move (Run V) V)
  | .branch target arguments _ => do
    let state ← enter function values target arguments
    pure (.on ⟨state, callers⟩)
  | .conditional condition consequent consequentArguments alternate alternateArguments _ => do
    let x ← readValue values condition
    match Values.condition x with
    | .ok true => do
      let state ← enter function values consequent consequentArguments
      pure (.on ⟨state, callers⟩)
    | .ok false => do
      let state ← enter function values alternate alternateArguments
      pure (.on ⟨state, callers⟩)
    | .error message => pure (.refused message)
  | .switch selector cases fallback _ => do
    let x ← readValue values selector
    let chosen := ((cases.find? fun switchCase => Values.matches x switchCase.value).map (·.target)).getD fallback
    let state ← enter function values chosen []
    pure (.on ⟨state, callers⟩)
  | .return value _ => giveBack values callers value
  | .trap message _ => pure (.trapped message)

def transfer (module : StagedModule) (function : Function) (values : Table ValueId V)
    (callers : List (Table ValueId V × Await)) : Transition → Except Fault (Move (Run V) V)
  | .jump edge => do
    let state ← follow function values edge none
    pure (.on ⟨state, callers⟩)
  | .branch condition consequent alternate => do
    let x ← readValue values condition
    match Values.condition x with
    | .ok b => do
      let state ← follow function values (if b then consequent else alternate) none
      pure (.on ⟨state, callers⟩)
    | .error message => pure (.refused message)
  | .switch selector cases fallback => do
    let edge ← selectCase values selector cases fallback
    let state ← follow function values edge none
    pure (.on ⟨state, callers⟩)
  | .call target _ arguments next _ => callOut module values callers target arguments (.edge function next)
  | .return value => giveBack values callers value
  | .trap message => pure (.trapped message)

def move (module : StagedModule) (execute : Execute V σ) (run : Run V) (s : σ) : Except Fault (Move (Run V) V × σ) :=
  match run.state with
  | .waiting _ _ => pure (.refused "pending request must settle before polling", s)
  | .running values (.staged function [] terminator) => do
    let move ← terminate function values run.callers terminator
    pure (move, s)
  | .running values (.staged function (operation :: operations) terminator) =>
    if isCall operation then do
      let target ← target operation
      let await := Await.bind operation.result (.staged function operations terminator)
      let move ← callOut module values run.callers target operation.operands await
      pure (move, s)
    else do
      let xs ← collect (readValue values) operation.operands
      match execute (instruction operation) xs s with
      | (.ok x, s) =>
        pure (.on ⟨.running (values.insert operation.result x) (.staged function operations terminator), run.callers⟩,
          s)
      | (.error message, s) => pure (.trapped message, s)
  | .running values (.checked function [] transition) => do
    let move ← transfer module function values run.callers transition
    pure (move, s)
  | .running values (.checked function (i :: instructions) transition) => do
    let xs ← collect (readValue values) i.operands
    match execute i xs s with
    | (.ok x, s) =>
      pure (.on ⟨.running (values.insert i.definition.value x) (.checked function instructions transition),
        run.callers⟩, s)
    | (.error message, s) => pure (.trapped message, s)

omit [Values V] in
def resume (run : Run V) (value : V) : Except Fault (Run V) :=
  match run.state with
  | .waiting values await => do
    let state ← await.take values value
    pure ⟨state, run.callers⟩
  | .running _ _ => pure run

def party (module : StagedModule) (execute : Execute V σ) : Party (Run V) V σ where
  move := move module execute
  resume := resume

end Blot.Suspension.Direct
