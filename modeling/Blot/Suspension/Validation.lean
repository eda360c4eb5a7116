import Blot.Support.Ascending
import Blot.Support.Checks
import Blot.Support.Table
import Blot.Suspension.Instructions

/-!
# Validation of a graph (`Graph::validate`, `validate_tables`, `Function::live_inputs`)

The checks are made in the order of the source.  The search for the live values is a loop until nothing changes; it
has a bound on its rounds, and running out of them is a failure of its own.
-/

namespace Blot.Suspension

open Blot.Hir Blot.Support

/-- How a check ends that does not pass: it refuses, it panics on an index, or its rounds have run out. -/
inductive Failure where
  | refused (message : String)
  | panicked
  | unfinished
  deriving DecidableEq, Repr

/-- Refuses with a message unless `b` holds. -/
abbrev expect (b : Bool) (message : String) : Except Failure Unit := require b (.refused message)

/-! ### Live values -/

/-- The values a continuation needs at its start, for each continuation. -/
abbrev Live := List (Ascending ValueId)

def Argument.value? : Argument → Option ValueId
  | .value v => some v
  | .result => none

def Edge.pull (edge : Edge) (parameters : List Definition) (needed : Ascending ValueId) (value : ValueId) :
    Ascending ValueId :=
  match parameters.findIdx? (·.value = value) with
  | some index =>
    match edge.arguments[index]?.bind Argument.value? with
    | some argument => needed.insert argument
    | none => needed
  | none => needed.insert value

def Function.neededByEdge (f : Function) (live : Live) (needed : Ascending ValueId) (edge : Edge) :
    Except Failure (Ascending ValueId) := do
  let successor ← demand f.continuations[edge.target]? (.refused s!"absent continuation {edge.target}")
  expect (successor.parameters.length == edge.arguments.length)
    s!"continuation {edge.target} expects {successor.parameters.length} arguments, received {edge.arguments.length}"
  -- a transfer is a use even when the parameter is dead: this keeps the copies parallel
  let needed := needed.extend (edge.arguments.filterMap Argument.value?)
  let inputs ← demand live[edge.target]? .panicked
  pure (inputs.elements.foldl (edge.pull successor.parameters) needed)

/-- An instruction, seen from below: its result is no longer needed, its operands are. -/
def Instruction.before (i : Instruction) (needed : Ascending ValueId) : Ascending ValueId :=
  (needed.remove i.definition.value).extend i.operands

def Function.needed (f : Function) (live : Live) (c : Continuation) : Except Failure (Ascending ValueId) := do
  let needed ← c.transition.edges.foldlM (f.neededByEdge live) (.ofList c.transition.uses)
  pure (c.instructions.foldr Instruction.before needed)

def Function.visit (f : Function) (state : Live × Bool) (c : Continuation) : Except Failure (Live × Bool) := do
  let needed ← f.needed state.1 c
  let current ← demand state.1[c.id]? .panicked
  pure (if current = needed then state else (state.1.set c.id needed, true))

def Function.settle (f : Function) : ℕ → Live → Except Failure Live
  | 0, _ => .error .unfinished
  | n + 1, live => do
    let (live, changed) ← f.continuations.reverse.foldlM f.visit (live, false)
    if changed then f.settle n live else pure live

def Function.liveInputs (f : Function) (rounds : ℕ) : Except Failure Live :=
  f.settle rounds (List.replicate f.continuations.length .empty)

/-! ### The tables -/

def requireType (tables : Tables) (id : ℕ) : Except Failure Unit :=
  expect (id < tables.types.length) s!"absent representation {id}"

def requireMember (tables : Tables) (message : String) (names : List String) (member : String × ℕ) :
    Except Failure (List String) := do
  requireType tables member.2
  expect (!names.contains member.1) message
  pure (member.1 :: names)

def validateCallback (graph : Graph) (tables : Tables) (function signature environmentType : ℕ) :
    Except Failure Unit := do
  requireType tables environmentType
  let target ← demand graph.functions[function]? (.refused "callback has an absent function")
  expect (target.signature == signature) "callback changed its function signature"
  let contract ← demand tables.signatures[signature]? (.refused "callback has an absent signature")
  match tables.types[environmentType]? with
  | some (.product _ fields) =>
    expect (!contract.parameters.isEmpty && fields.map (·.typeId) == contract.parameters.drop 1)
      "callback environment disagrees with its captured parameters"
    expect target.framed "callback function has no frame"
  | _ => .error (.refused "callback environment is not a product")

def validateType (graph : Graph) (tables : Tables) (entry : RuntimeType × ℕ) : Except Failure Unit :=
  match entry.1 with
  | .resource _ payloadType => requireType tables payloadType
  | .store elementType => requireType tables elementType
  | .scratch elementType => requireType tables elementType
  | .indirect targetType => requireType tables targetType
  | .sealed _ representationType => requireType tables representationType
  | .product _ fields => do
    let members := fields.map fun field => (field.name, field.typeId)
    let _ ← members.foldlM (requireMember tables s!"product {entry.2} repeats a field") []
  | .sum _ cases => do
    let members := cases.map fun sumCase => (sumCase.name, sumCase.payloadType)
    let _ ← members.foldlM (requireMember tables s!"sum {entry.2} repeats a case") []
  | .callback function signature environmentType => validateCallback graph tables function signature environmentType
  | _ => .ok ()

def validateTables (graph : Graph) (tables : Tables) : Except Failure Unit := do
  each (validateType graph tables) tables.types.zipIdx
  each (fun signature => each (requireType tables) (signature.parameters ++ [signature.result])) tables.signatures
  each (fun store => do
    requireType tables store.elementType
    let type ← demand tables.types[store.elementType]? .panicked
    expect (store.values.all (constantMatches · type)) "static Store constant disagrees with its element type")
    tables.staticStores

/-! ### The definitions of a function -/

abbrev Definitions := Table ValueId Definition

def Function.define (f : Function) (tables : Tables) (definitions : Definitions) (d : Definition) :
    Except Failure Definitions := do
  expect (d.typeId < tables.types.length) s!"value {d.value} has an absent representation"
  expect (["plain", "owned", "borrowed"].contains d.ownership) s!"value {d.value} has unknown ownership {d.ownership}"
  expect (definitions.lookup d.value).isNone s!"function {f.id} repeats value {d.value}"
  pure (definitions.insert d.value d)

def Function.defineAll (f : Function) (tables : Tables) (definitions : Definitions) (entry : Continuation × ℕ) :
    Except Failure Definitions := do
  expect (entry.1.id == entry.2) s!"continuation {entry.1.id} occupies slot {entry.2}"
  entry.1.definitions.foldlM (f.define tables) definitions

/-! ### A continuation -/

/-- The values that can be read, with their representations. -/
abbrev Available := Table ValueId TypeId

def Continuation.declareInput (c : Continuation) (definitions : Definitions) (available : Available) (d : Definition) :
    Except Failure Available := do
  let original ← demand (definitions.lookup d.value) (.refused s!"capture {d.value} has no definition")
  expect (original.typeId == d.typeId && original.ownership == d.ownership)
    s!"capture {d.value} changed representation or ownership"
  expect (available.lookup d.value).isNone s!"continuation {c.id} repeats an input"
  pure (available.insert d.value d.typeId)

/-- `validate_instruction`; of the text of a refusal only the kind and the value are kept -/
def validateInstruction (tables : Tables) (f : Function) (available : Available) (i : Instruction) :
    Except Failure Unit := do
  let operands ← collect (fun value => demand (available.lookup value) .panicked) i.operands
  let result ← demand tables.types[i.definition.typeId]? .panicked
  let types ← collect (fun id => demand tables.types[id]? .panicked) operands
  expect (instructionMatches tables i operands f result types)
    s!"{i.operation.kind} instruction value {i.definition.value} has incompatible operands or metadata"

def Function.perform (f : Function) (tables : Tables) (available : Available) (i : Instruction) :
    Except Failure Available := do
  expect (! ["call.direct", "host.call", "call.external"].contains i.operation.kind)
    "a call remained inside continuation instructions"
  each (fun value => expect (available.lookup value).isSome s!"instruction reads unavailable value {value}") i.operands
  validateInstruction tables f available i
  pure (available.insert i.definition.value i.definition.typeId)

def Graph.validateTarget (graph : Graph) (tables : Tables) (f : Function) (signature : SignatureId) (suspends : Bool) :
    CallTarget → Except Failure Unit
  | .function callee => do
    let callee ← demand (graph.functions.find? (·.id == callee)) (.refused "call targets an absent graph function")
    expect (!(f.framed && !callee.framed)) "framed call targets a function without a frame"
    expect (callee.signature == signature && callee.suspends == suspends)
      "call changed its callee's signature or suspension contract"
  | .host capability operation => do
    let operation ← demand (tables.hostOperation capability operation)
      (.refused "request names an absent host operation")
    expect (operation.signature == signature && operation.suspends == suspends) "request changed its host contract"
  | .link unit name => do
    let link ← demand (tables.developmentLink unit name) (.refused "call names an absent development link")
    expect (link.signature == signature && link.suspends == suspends) "call changed its development link contract"

def switchCase (selector : RuntimeType) (constants : List ℤ) (constant : WireConstant) : Except Failure (List ℤ) := do
  expect (constantMatches constant selector) "switch case disagrees with its selector"
  let integer ← match constant with
    | .signedInteger32 value => pure value
    | .signedInteger64 value => demand (parseI64 value) .panicked
    | _ => .error .panicked
  expect (!constants.contains integer) "switch repeats a case"
  pure (integer :: constants)

def Available.type (available : Available) (value : ValueId) : Except Failure TypeId :=
  demand (available.lookup value) .panicked

/-- The transition of a continuation, and the representation of the result of a call. -/
def Graph.validateTransition (graph : Graph) (tables : Tables) (f : Function) (signature : RuntimeSignature)
    (available : Available) : Transition → Except Failure (Option TypeId)
  | .call target signature arguments next suspends => do
    expect (next.arguments.count .result == 1) "call must transfer its result to exactly one parameter"
    expect (!(suspends && !f.suspends)) "suspending call appears in a synchronous function"
    let contract ← demand tables.signatures[signature]? (.refused "call has an absent signature")
    let types ← collect available.type arguments
    expect (types == contract.parameters) "call arguments disagree with its signature"
    graph.validateTarget tables f signature suspends target
    pure (some contract.result)
  | .return value => do
    let type ← available.type value
    expect (type == signature.result) "return disagrees with its function signature"
    pure none
  | .branch condition _ _ => do
    let type ← available.type condition
    let type ← demand tables.types[type]? .panicked
    expect (type == .boolean) "branch condition is not Boolean"
    pure none
  | .switch selector cases _ => do
    let type ← available.type selector
    let type ← demand tables.types[type]? .panicked
    expect (type == .integer32 || type == .signedInteger64) "switch selector is not an integer"
    let _ ← (cases.map (·.1)).foldlM (switchCase type) []
    pure none
  | _ => pure none

def Transition.suspending : Transition → Bool
  | .call _ _ _ _ suspends => suspends
  | _ => false

def validateArgument (definitions : Definitions) (available : Available) (transition : Transition)
    (result : Option TypeId) (entry : Argument × Definition) : Except Failure Unit := do
  let type ← match entry.1 with
    | .value value => demand (available.lookup value) (.refused s!"edge reads unavailable value {value}")
    | .result => demand result (.refused "ordinary edge references a call result")
  match entry.1 with
  | .value value => do
    let definition ← demand (definitions.lookup value) .panicked
    expect (!(transition.suspending && definition.ownership == "borrowed"))
      "suspending call retains a borrowed edge argument"
  | .result => pure ()
  expect (type == entry.2.typeId) "edge argument disagrees with its continuation parameter"

def validateCapture (available : Available) (transition : Transition) (capture : Definition) :
    Except Failure Unit := do
  expect (available.lookup capture.value == some capture.typeId) s!"edge cannot provide capture {capture.value}"
  expect (!(transition.suspending && capture.ownership == "borrowed"))
    s!"suspending call retains borrowed value {capture.value}"

def Function.validateEdge (f : Function) (definitions : Definitions) (available : Available) (transition : Transition)
    (result : Option TypeId) (edge : Edge) : Except Failure Unit := do
  let successor ← demand f.continuations[edge.target]? .panicked
  each (validateArgument definitions available transition result) (edge.arguments.zip successor.parameters)
  each (validateCapture available transition) successor.captures

def Graph.validateContinuation (graph : Graph) (tables : Tables) (f : Function) (signature : RuntimeSignature)
    (definitions : Definitions) (live : Live) (c : Continuation) : Except Failure Unit := do
  let inputs ← demand live[c.id]? .panicked
  expect (c.captures.map (·.value) == (inputs.difference (.ofList (c.parameters.map (·.value)))).elements)
    s!"continuation {c.id} has stale or unordered captures"
  let available ← c.inputs.foldlM (c.declareInput definitions) []
  let available ← c.instructions.foldlM (f.perform tables) available
  each (fun value => expect (available.lookup value).isSome s!"transition reads unavailable value {value}")
    c.transition.uses
  let result ← graph.validateTransition tables f signature available c.transition
  each (f.validateEdge definitions available c.transition result) c.transition.edges

def Graph.validateFunction (graph : Graph) (tables : Tables) (rounds : ℕ) (entry : Function × ℕ) :
    Except Failure Unit := do
  let f := entry.1
  expect (f.id == entry.2) s!"function {f.id} occupies slot {entry.2}"
  expect (!(f.suspends && !f.framed)) s!"suspending function {f.id} has no frame"
  let signature ← demand tables.signatures[f.signature]? (.refused s!"function {f.id} has an absent signature")
  let first ← demand f.continuations[f.entry]? (.refused s!"function {f.id} has an absent entry")
  expect (first.captures.isEmpty && first.parameters.map (·.typeId) == signature.parameters)
    s!"function {f.id} entry disagrees with its signature"
  let definitions ← f.continuations.zipIdx.foldlM (f.defineAll tables) []
  let live ← f.liveInputs rounds
  each (graph.validateContinuation tables f signature definitions live) f.continuations

/-- `Graph::validate`; the ids of the functions are their indices, so none is repeated -/
def Graph.validate (graph : Graph) (tables : Tables) (rounds : ℕ) : Except Failure Unit := do
  validateTables graph tables
  each (graph.validateFunction tables rounds) graph.functions.zipIdx

end Blot.Suspension
