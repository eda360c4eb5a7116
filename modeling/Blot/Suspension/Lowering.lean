import Blot.Hir.Staged
import Blot.Suspension.Validation
import Mathlib.Data.List.Sort

/-!
# Lowering to continuations (`Graph::lower`, `lower_function`, `fill_captures`)

Each block becomes a continuation for its start and one for what follows each of its calls, whose result is the only
parameter.  The captures are the live values, and the marks of suspension and frames spread along the calls.
-/

namespace Blot.Suspension

open Blot.Hir Blot.Support

def isCall (operation : StagedOperation) : Bool :=
  ["call.direct", "host.call", "call.external"].contains operation.kind

def parameter (p : StagedBlockParameter) : Definition := ⟨p.value, p.typeId, p.ownership, p.span⟩

def definition (operation : StagedOperation) : Definition :=
  ⟨operation.result, operation.typeId, operation.ownership, operation.span⟩

def instruction (operation : StagedOperation) : Instruction where
  definition := definition operation
  operands := operation.operands
  operation :=
    { kind := operation.kind, value := operation.value, update := operation.update, case := operation.case,
      operator := operation.operator, conversion := operation.conversion, lane := operation.lane,
      field := operation.field, function := operation.function, signature := operation.signature,
      staticStore := operation.staticStore }

def signatureOf (module : StagedModule) (id : FunctionId) : Option SignatureId :=
  ((module.functions.find? (·.id == id)).map (·.signature)).or
    ((module.checkedFunctions.find? (·.id == id)).map (·.signature))

def callTarget (module : StagedModule) (operation : StagedOperation) :
    Except Failure (CallTarget × SignatureId × Bool) :=
  if operation.kind = "call.direct" then do
    let id ← demand operation.function (.refused "direct call has no function")
    let signature ← demand (signatureOf module id) (.refused s!"direct call references absent function {id}")
    pure (.function id, signature, false)
  else do
    let capability ← demand operation.capability (.refused "request has no capability or unit")
    let name ← demand operation.operation (.refused "request has no operation or link name")
    if operation.kind = "host.call" then do
      let target ← demand (module.tables.hostOperation capability name)
        (.refused s!"request names absent host operation {capability}.{name}")
      pure (.host capability name, target.signature, target.suspends)
    else do
      let target ← demand (module.tables.developmentLink capability name)
        (.refused s!"call names absent development link {capability}.{name}")
      pure (.link capability name, target.signature, target.suspends)

/-- The continuations so far, and the one that is being filled. -/
structure Draft where
  continuations : List Continuation
  parameters : List Definition
  instructions : List Instruction

def Draft.close (draft : Draft) (transition : Transition) (span : RuntimeSpan) : Continuation :=
  ⟨draft.continuations.length, draft.parameters, [], draft.instructions, transition, span⟩

/-- An operation of a block: an instruction, or a call that ends the continuation. -/
def lowerOperation (module : StagedModule) (draft : Draft) (operation : StagedOperation) : Except Failure Draft :=
  if isCall operation then do
    let (target, signature, suspends) ← callTarget module operation
    let next : Edge := ⟨draft.continuations.length + 1, [.result]⟩
    let continuation := draft.close (.call target signature operation.operands next suspends) operation.span
    pure ⟨draft.continuations ++ [continuation], [definition operation], []⟩
  else
    pure { draft with instructions := draft.instructions ++ [instruction operation] }

abbrev Entries := Table ℕ ContinuationId

def lowerEdge (function : StagedFunction) (entries : Entries) (target : ℕ) (arguments : List ℕ) :
    Except Failure Edge := do
  let target ← demand (entries.lookup target)
    (.refused s!"function {function.id} branches to absent block {target}")
  pure ⟨target, arguments.map .value⟩

def lowerTerminator (function : StagedFunction) (entries : Entries) :
    StagedTerminator → Except Failure (Transition × RuntimeSpan)
  | .branch target arguments span => do
    let edge ← lowerEdge function entries target arguments
    pure (.jump edge, span)
  | .conditional condition consequent consequentArguments alternate alternateArguments span => do
    let consequent ← lowerEdge function entries consequent consequentArguments
    let alternate ← lowerEdge function entries alternate alternateArguments
    pure (.branch condition consequent alternate, span)
  | .switch selector cases fallback span => do
    let cases ← collect (fun switchCase => do
      let edge ← lowerEdge function entries switchCase.target []
      pure (switchCase.value, edge)) cases
    let fallback ← lowerEdge function entries fallback []
    pure (.switch selector cases fallback, span)
  | .return value span => pure (.return value, span)
  | .trap message span => pure (.trap message, span)

def lowerBlock (module : StagedModule) (function : StagedFunction) (entries : Entries)
    (continuations : List Continuation) (block : StagedBlock) : Except Failure (List Continuation) := do
  let draft ← block.operations.foldlM (lowerOperation module) ⟨continuations, block.parameters.map parameter, []⟩
  let (transition, span) ← lowerTerminator function entries block.terminator
  pure (draft.continuations ++ [draft.close transition span])

def enterBlock (function : StagedFunction) (state : Entries × ContinuationId) (block : StagedBlock) :
    Except Failure (Entries × ContinuationId) := do
  expect (state.1.lookup block.id).isNone s!"function {function.id} repeats block {block.id}"
  pure (state.1.insert block.id state.2, state.2 + (1 + (block.operations.filter isCall).length))

def lowerFunction (module : StagedModule) (function : StagedFunction) : Except Failure Function := do
  let (entries, _) ← function.blocks.foldlM (enterBlock function) ([], 0)
  let entry ← demand (entries.lookup function.entryBlock) (.refused s!"function {function.id} has no entry block")
  let continuations ← function.blocks.foldlM (lowerBlock module function entries) []
  pure ⟨function.id, function.name, function.signature, entry, continuations, false, false, function.reuse,
    function.span⟩

/-! ### Captures -/

def Function.record (f : Function) (definitions : Definitions) (d : Definition) : Except Failure Definitions := do
  expect (definitions.lookup d.value).isNone s!"function {f.id} repeats value {d.value}"
  pure (definitions.insert d.value d)

def Function.capture (f : Function) (definitions : Definitions) (live : Live) (c : Continuation) :
    Except Failure Continuation := do
  let inputs ← demand live[c.id]? .panicked
  let captures ← collect (fun value =>
    demand (definitions.lookup value) (.refused s!"function {f.id} uses absent value {value}"))
    (inputs.difference (.ofList (c.parameters.map (·.value)))).elements
  pure { c with captures }

def Function.fillCaptures (f : Function) (rounds : ℕ) : Except Failure Function := do
  let live ← f.liveInputs rounds
  let definitions ← (f.continuations.flatMap (·.definitions)).foldlM f.record []
  let continuations ← collect (f.capture definitions live) f.continuations
  let entry ← demand continuations[f.entry]? .panicked
  expect entry.captures.isEmpty s!"function {f.id} has free values at its entry"
  pure { f with continuations }

/-! ### Suspension and frames -/

abbrev Neighbours := Table FunctionId (Ascending FunctionId)

def reachNeighbour (state : Ascending FunctionId × List FunctionId) (target : FunctionId) :
    Ascending FunctionId × List FunctionId :=
  if target ∈ state.1 then state else (state.1.insert target, target :: state.2)

/-- `close_reachable`; the last of those still to be visited comes first -/
def closeReachable (edges : Neighbours) :
    ℕ → Ascending FunctionId → List FunctionId → Except Failure (Ascending FunctionId)
  | 0, _, _ => .error .unfinished
  | _ + 1, reached, [] => pure reached
  | n + 1, reached, source :: pending =>
    let targets := ((edges.lookup source).getD .empty).elements
    let (reached, pending) := targets.foldl reachNeighbour (reached, pending)
    closeReachable edges n reached pending

def Neighbours.add (edges : Neighbours) (source target : FunctionId) : Neighbours :=
  edges.insert source (((edges.lookup source).getD .empty).insert target)

def Function.callees (f : Function) : List FunctionId :=
  f.continuations.filterMap fun c =>
    match c.transition with
    | .call (.function callee) _ _ _ _ => some callee
    | _ => none

def Function.mark (suspending framed : Ascending FunctionId) (f : Function) : Function where
  id := f.id
  name := f.name
  signature := f.signature
  entry := f.entry
  suspends := f.id ∈ suspending
  framed := f.id ∈ framed
  reuse := f.reuse
  span := f.span
  continuations := f.continuations.map fun c =>
    match c.transition with
    | .call (.function callee) signature arguments next _ =>
      { c with transition := .call (.function callee) signature arguments next (callee ∈ suspending) }
    | _ => c

def callbackFunctions (types : List RuntimeType) : List FunctionId :=
  types.filterMap fun type =>
    match type with
    | .callback function _ _ => some function
    | _ => none

def Graph.lower (module : StagedModule) (rounds : ℕ) : Except Failure Graph := do
  let lowered ← collect (lowerFunction module) module.functions
  let functions := (lowered ++ module.checkedFunctions).insertionSort fun f g => f.id ≤ g.id
  let suspending := Ascending.ofList (module.resumableRoots ++
    (functions.filter fun f => f.continuations.any (·.transition.suspending)).map (·.id))
  let calls := functions.flatMap fun f => f.callees.map fun callee => (f.id, callee)
  let callers := calls.foldl (fun edges call => Neighbours.add edges call.2 call.1) []
  let callees := calls.foldl (fun edges call => Neighbours.add edges call.1 call.2) []
  let suspending ← closeReachable callers rounds suspending suspending.elements.reverse
  let framed := suspending.extend (callbackFunctions module.types)
  let framed ← closeReachable callees rounds framed framed.elements.reverse
  let functions ← collect (fun f => (f.mark suspending framed).fillCaptures rounds) functions
  let graph : Graph := ⟨functions⟩
  graph.validate module.tables rounds
  pure graph

end Blot.Suspension
