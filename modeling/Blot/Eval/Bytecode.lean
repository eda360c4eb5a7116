import Blot.Eval.AstEvaluator

/-!
# The instruction machine (`eval/bytecode.rs`)

Frames and an action; one step is one round of the loop of `Machine::run`.
-/

namespace Blot.Eval

open Support

variable {X R : Type}

inductive Instruction (X : Type) where
  | semantic
  | constant (value : Value X)
  | emptyArray
  | emptyShape
  | integer (value : ℤ)
  | float (value : Float)
  | load (name : String)
  | closure (parameter : PatternId) (body : ExpressionId) (deferred : Bool)
  | apply (function argument : ExpressionId)
  | project (target : ExpressionId) (name : String)
  | tuple (expressions : List ExpressionId)
  | array (elements : List ArrayElement)
  | shape (members : List ShapeMember)
  | branch (branches : List Branch) (fallback : Option ExpressionId)
  | case (target : ExpressionId) (arms : List Arm)

inductive Frame (X R : Type) where
  | «return» (completion : CallReturn X)
  | origin (module : String)
  | external (continuation : Continuation X R)
  | applyFunction (activation : Activation X) (argument : ExpressionId) (evidence : CallEvidence X)
  | applyArgument (activation : Activation X) (function : Value X) (evidence : CallEvidence X)
  | project (name : String) (span : Span)
  | tuple (activation : Activation X) (expressions : List ExpressionId) (values : List (Value X))
  | array (activation : Activation X) (elements : List ArrayElement) (index : Fin elements.length)
    (values : List (Value X)) (span : Span)
  | shapeName (activation : Activation X) (members : List ShapeMember) (index : Fin members.length)
    (fields : List (String × Value X)) (span : Span)
  | shapeValue (activation : Activation X) (members : List ShapeMember) (index : Fin members.length)
    (fields : List (String × Value X)) (name : Option String) (span : Span)
  | branch (activation : Activation X) (branches : List Branch) (fallback : Option ExpressionId)
    (index : Fin branches.length) (span : Span)
  | case (activation : Activation X) (arms : List Arm) (checkedResult : Option (Value X)) (span : Span)

inductive Action (X R : Type) where
  | evaluate (activation : Activation X) (expression : ExpressionId)
  | complete (result : Result X)
  | semantic (computation : Computation X R)

def Frame.handler? : Frame X R → Option (Handler X R)
  | .external k => k.handler?
  | _ => none

/-- `Machine`, in its world; the last frame pushed comes first. -/
structure Machine (X R : Type) where
  action : Action X R
  frames : List (Frame X R)
  world : World X R (Frame X R)

namespace Semantics

variable (S : Semantics X R)

def compile (expression : Expression) : Instruction X :=
  match expression.form with
  | .unit => .constant .unit
  | .text value => .constant (.text value)
  | .tag name => .constant (.tag name none)
  | .int value => .integer value
  | .float value => .float value
  | .var name => .load name
  | .lambda parameter body deferred => .closure parameter body deferred
  | .intrinsic name =>
    if name = "@array.empty" then .emptyArray
    else if name = "@shape.empty" then .emptyShape
    else
      match S.intrinsic name expression.span with
      | .ok value => .constant value
      | .error _ => .semantic
  | .apply function argument => .apply function argument
  | .field target name => .project target name
  | .tuple elements => .tuple elements
  | .array elements => .array elements
  | .shape members => .shape members
  | .ifThen branches fallback => .branch branches fallback
  | .caseOf target arms => .case target arms
  | .block _ _ => .semantic
  | .recLambda _ => .semantic

/-- `Program::instruction`, with the span of the expression.  Outside the arena, where the program panics, there is
none. -/
def instruction (activation : Activation X) (id : ExpressionId) : Instruction X × Span :=
  match S.expression activation.module id with
  | some expression => (S.compile expression, expression.span)
  | none => (.semantic, ⟨0, 0⟩)

/-- `Machine::start`: whether the machine evaluates an expression, and not the AST evaluator. -/
def starts (activation : Activation X) (id : ExpressionId) : Bool :=
  match (S.instruction activation id).1 with
  | .semantic | .constant _ | .integer _ | .float _ | .load _ | .closure _ _ _ => false
  | _ => true

end Semantics

namespace Machine

variable (S : Semantics X R) (host : Host X R)

def goOn (m : Machine X R) (action : Action X R) (pushed : List (Frame X R)) (s : Store X R) : Machine X R :=
  ⟨action, pushed ++ m.frames, { m.world with store := s }⟩

/-- The machine goes on with the computation of a function that the evaluators share. -/
def goOnWith (m : Machine X R) (p : Computation X R × Store X R) : Machine X R := m.goOn (.semantic p.1) [] p.2

def complete (m : Machine X R) (result : Result X) (s : Store X R) : Machine X R := m.goOn (.complete result) [] s

def integer (runtime : Runtime X) (representation : Option (Value X)) (value : ℤ) (span : Span) : Result X :=
  match representation with
  | some (.range _ _ (some .float)) =>
    ((S.toF64 value).map fun value => Except.ok (.float value)).getD (.error (unrepresentable value "F64" span))
  | some (.range _ _ (some .float32)) =>
    ((S.toF32 value).map fun value => Except.ok (.float32 value)).getD (.error (unrepresentable value "F32" span))
  | _ => if runtime.phase = .runtime ∧ ¬ fitsI64 value then .error (outsideI64 value span) else .ok (.int value)

def float (representation : Option (Value X)) (value : Float) : Value X :=
  match representation with
  | some (.range _ _ (some .float32)) => .float32 value.toFloat32
  | _ => .float value

def apply (m : Machine X R) (activation : Activation X) (function argument : Value X) (evidence : CallEvidence X)
    (s : Store X R) : Machine X R :=
  m.goOnWith (S.applyWithExpected function
    ⟨argument, evidence.expectedArgument, evidence.span, activation.runtime, evidence.expectedResult,
      evidence.application⟩ s)

def branch (m : Machine X R) (activation : Activation X) (branches : List Branch) (fallback : Option ExpressionId)
    (index : ℕ) (span : Span) (s : Store X R) : Machine X R :=
  if h : index < branches.length then
    m.goOn (.evaluate activation.operand branches[index].condition)
      [.branch activation branches fallback ⟨index, h⟩ span] s
  else
    match fallback with
    | some expression => m.goOn (.evaluate activation expression) [] s
    | none => m.complete (.error (noBranch span)) s

def shape (m : Machine X R) (activation : Activation X) (members : List ShapeMember) (index : ℕ)
    (fields : List (String × Value X)) (span : Span) (s : Store X R) : Machine X R :=
  if h : index < members.length then
    match members[index] with
    | .computed name _ =>
      m.goOn (.evaluate { activation with runtime := activation.runtime.comptime } name)
        [.shapeName activation members ⟨index, h⟩ fields span] s
    | .field name value =>
      m.goOn (.evaluate activation value) [.shapeValue activation members ⟨index, h⟩ fields (some name) span] s
    | .spread value =>
      m.goOn (.evaluate activation value) [.shapeValue activation members ⟨index, h⟩ fields none span] s
  else m.complete (.ok (.shape fields)) s

/-- `Machine::evaluate`: the array instruction, from an element on. -/
def array (m : Machine X R) (activation : Activation X) (elements : List ArrayElement) (index : ℕ)
    (values : List (Value X)) (span : Span) (s : Store X R) : Machine X R :=
  if h : index < elements.length then
    m.goOn (.evaluate activation elements[index].value) [.array activation elements ⟨index, h⟩ values span] s
  else m.complete (.ok (.array values)) s

/-- The instructions of `Machine::evaluate`, below the frame of their origin. -/
def execute (m : Machine X R) (activation : Activation X) (id : ExpressionId) (instruction : Instruction X)
    (span : Span) (s : Store X R) : Machine X R :=
  let child := activation.operand
  match instruction with
  | .semantic => m.goOnWith (S.evaluateAst activation id s)
  | .constant value => m.complete (.ok value) s
  | .emptyArray => m.complete (.ok (.array [])) s
  | .emptyShape => m.complete (.ok (.shape [])) s
  | .integer value =>
    let (representation, s) := S.representation activation id s
    m.complete (integer S activation.runtime representation value span) s
  | .float value =>
    let (representation, s) := S.representation activation id s
    m.complete (.ok (float representation value)) s
  | .load name =>
    match S.load activation.runtime.locals activation.module id activation.environment name s with
    | (some (.deferred module expression environment demands), s) =>
      if (s.demandedBlocks demands activation.runtime.execution).isEmpty then
        let runtime := { child.runtime with locals := none }
        m.goOn (.semantic (.evaluate ⟨module, environment, runtime⟩ expression)) []
          (s.demand demands activation.runtime.execution none)
      else m.complete (.error (demandedTwice name span)) s
    | (some value, s) => m.complete (.ok (attachInferred s activation.environment name value)) s
    | (none, s) => m.complete (.error (unbound name span)) s
  | .closure parameter body deferred =>
    let (environment, s) := S.capture activation parameter body s
    let (signature, rest) := S.closureSignature activation.runtime.instanceFacts activation.module body s.rest
    let s := { s with rest := rest }
    let signature := signature.map fun signature => S.substituteSignature signature activation.environment s
    m.complete (.ok (Semantics.closure activation parameter body deferred environment signature)) s
  | .apply function argument =>
    match S.prepareApplication activation id function argument activation.runtime.resultContext span s with
    | (.ok (.value value), s) => m.complete (.ok value) s
    | (.error e, s) => m.complete (.error e) s
    | (.ok (.call evidence), s) =>
      m.goOn (.evaluate child function) [.applyFunction child argument evidence] s
  | .project target name => m.goOn (.evaluate child target) [.project name span] s
  | .tuple expressions =>
    match expressions.head? with
    | some first => m.goOn (.evaluate child first) [.tuple child expressions []] s
    | none => m.complete (.ok (tuple [])) s
  | .array elements =>
    let (_, s) := S.representation activation id s
    m.array child elements 0 [] span s
  | .shape members => m.shape child members 0 [] span s
  | .branch branches fallback => m.branch activation branches fallback 0 span s
  | .case target arms =>
    let (checkedResult, s) := S.representation activation id s
    m.goOn (.evaluate child target) [.case activation arms checkedResult span] s

def evaluate (m : Machine X R) (activation : Activation X) (id : ExpressionId) : Machine X R :=
  let s := m.world.store
  match S.instruction activation id with
  | (.semantic, _) => m.goOnWith (S.evaluateAst activation id s)
  | (instruction, span) =>
    let s : Store X R := { s with fuel := s.fuel - 1 }
    let m : Machine X R := { m with frames := .origin activation.module :: m.frames }
    if s.fuel < 0 then m.complete (.error (Semantics.evaluationLimit activation id span)) s
    else
      match Semantics.signatureHole activation id with
      | some variableId => m.complete (.ok (.typeVariable variableId)) s
      | none => m.execute S activation id instruction span s

/-- `Machine::resume`, with a value; the frames of a result are in `Machine.resume`. -/
def resumeValue (m : Machine X R) (frame : Frame X R) (value : Value X) : Machine X R :=
  let s := m.world.store
  match frame with
  | .origin _ => m.complete (.ok value) s
  | .external k => m.goOnWith (k.take S (.ok value) s)
  | .return completion =>
    let (value, s) := S.finish completion value s
    m.complete (.ok value) s
  | .applyFunction activation argument evidence =>
    let function := value.stripped
    match deferredFunction function with
    | none => m.complete (.error (mixedChoice evidence.span)) s
    | some true =>
      let (suspended, s) := Semantics.suspend activation argument s
      m.apply S activation function suspended evidence s
    | some false => m.goOn (.evaluate activation argument) [.applyArgument activation function evidence] s
  | .applyArgument activation function evidence => m.apply S activation function value evidence s
  | .project name span => m.goOn (.semantic (.done (S.project value name span))) [] s
  | .tuple activation expressions values =>
    let values := values ++ [value]
    match expressions[values.length]? with
    | some expression => m.goOn (.evaluate activation expression) [.tuple activation expressions values] s
    | none => m.complete (.ok (tuple values)) s
  | .array activation elements index values span =>
    match elements[index].spread, value with
    | false, value => m.array activation elements (index + 1) (values ++ [value]) span s
    | true, .array spread => m.array activation elements (index + 1) (values ++ spread) span s
    | true, .emptyArray _ => m.array activation elements (index + 1) values span s
    | true, value => m.complete (.error (S.badSpread "an array" value span)) s
  | .shapeName activation members index fields span =>
    match value, members[index] with
    | .text name, .computed _ expression =>
      m.goOn (.evaluate activation expression) [.shapeValue activation members index fields (some name) span] s
    | _, _ => m.complete (.error (dynamicField span)) s
  | .shapeValue activation members index fields name span =>
    match name, value with
    | some name, value => m.shape activation members (index + 1) (Table.insert fields name value) span s
    | none, .shape spread => m.shape activation members (index + 1) (Table.extend fields spread) span s
    | none, value => m.complete (.error (S.badSpread "a shape" value span)) s
  | .branch activation branches fallback index span =>
    match value with
    | .runtime condition =>
      m.goOnWith (S.evaluateDynamicIf activation ⟨branches, fallback, index, span⟩ branches[index] condition s)
    | value =>
      match S.truth value span with
      | .ok true => m.goOn (.evaluate activation branches[index].consequence) [] s
      | .ok false => m.branch activation branches fallback (index + 1) span s
      | .error e => m.complete (.error e) s
  | .case activation arms checkedResult span =>
    match value with
    | .runtime target => m.goOnWith (S.evaluateDynamicCase activation target arms checkedResult span s)
    | value =>
      match S.module activation.module with
      | .error e => m.complete (.error e) s
      | .ok source =>
        match S.selectArm source activation.environment value arms s with
        | (some (body, scope), s) => m.goOn (.evaluate { activation with environment := scope } body) [] s
        | (none, s) => m.complete (.error (S.noMatch value span)) s

def resume (m : Machine X R) (frame : Frame X R) (result : Result X) : Machine X R :=
  let s := m.world.store
  match frame, result with
  | .origin _, result => m.complete result s
  | .external k, result => m.goOnWith (k.take S result s)
  | _, .error e => m.complete (.error e) s
  | frame, .ok value => m.resumeValue S frame value

/-- One round of the loop of `Machine::run`. -/
def next (m : Machine X R) : Machine X R ⊕ Outcome X R :=
  match m.action with
  | .evaluate activation id => .inl (m.evaluate S activation id)
  | .complete result =>
    match m.frames with
    | [] => .inr (.finished result m.world.store m.world.requests)
    | frame :: frames => .inl ({ m with frames := frames }.resume S frame result)
  | .semantic computation =>
    match computation with
    | .done result => .inl { m with action := .complete result }
    | .step next => .inl (m.goOnWith (next m.world.store))
    | .perform request resume =>
      (m.world.perform Frame.handler? host request resume (.external (.value resume)) m.frames).map
        (fun p => ⟨.semantic p.1, p.2.1, p.2.2⟩) fun o => o
    | .evaluate activation id =>
      if S.starts activation id then .inl { m with action := .evaluate activation id }
      else .inl (m.goOnWith (S.evaluateAst activation id m.world.store))
    | .call activation body completion =>
      .inl { m with action := .evaluate activation body, frames := .return completion :: m.frames }
    | .andThen computation next =>
      .inl { m with action := .semantic computation, frames := .external (.value next) :: m.frames }
    | .mapResult computation next =>
      .inl { m with action := .semantic computation, frames := .external (.result next) :: m.frames }
    | .origin computation module =>
      .inl { m with action := .semantic computation, frames := .external (.origin module) :: m.frames }
    | .drive computation handles clause onReturn =>
      .inl { m with
        action := .semantic computation, frames := .external (.handler ⟨handles, clause, onReturn⟩) :: m.frames }
    | .resume continuation argument span =>
      let (computation, frames, world) := m.world.resume continuation argument span m.frames
      .inl ⟨.semantic computation, frames, world⟩

end Machine

/-! ### The continuations of the AST evaluator -/

namespace Semantics

variable (S : Semantics X R)

/-- The continuation of an element in `evaluate_array`. -/
def arrayElement (activation : Activation X) (elements : List ArrayElement) (index : Fin elements.length)
    (values : List (Value X)) (span : Span) (value : Value X) (s : Store X R) : Computation X R × Store X R :=
  match elements[index].spread, value with
  | false, value => S.evaluateArray activation elements span (index + 1) (values ++ [value]) s
  | true, .array spread => S.evaluateArray activation elements span (index + 1) (values ++ spread) s
  | true, .emptyArray _ => S.evaluateArray activation elements span (index + 1) values s
  | true, value => (.done (.error (S.badSpread "an array" value span)), s)

/-- The continuation of a member in `evaluate_shape`, a spread where there is no name. -/
def shapeMember (activation : Activation X) (members : List ShapeMember) (index : ℕ)
    (fields : List (String × Value X)) (name : Option String) (span : Span) (value : Value X) (s : Store X R) :
    Computation X R × Store X R :=
  match name, value with
  | some name, value => S.evaluateShape activation members span (index + 1) (Table.insert fields name value) s
  | none, .shape spread => S.evaluateShape activation members span (index + 1) (Table.extend fields spread) s
  | none, value => (.done (.error (S.badSpread "a shape" value span)), s)

/-- The continuation of a computed name in `evaluate_shape`. -/
def shapeName (activation : Activation X) (members : List ShapeMember) (index : Fin members.length)
    (fields : List (String × Value X)) (span : Span) (name : Value X) (s : Store X R) :
    Computation X R × Store X R :=
  match name, members[index] with
  | .text name, .computed _ value =>
    (.andThen (.evaluate activation value) (S.shapeMember activation members index fields (some name) span), s)
  | _, _ => (.done (.error (dynamicField span)), s)

/-- The continuation of a condition in `evaluate_if`. -/
def branchCondition (activation : Activation X) (branches : List Branch) (fallback : Option ExpressionId)
    (index : Fin branches.length) (span : Span) (condition : Value X) (s : Store X R) :
    Computation X R × Store X R :=
  match condition with
  | .runtime condition =>
    S.evaluateDynamicIf activation ⟨branches, fallback, index, span⟩ branches[index] condition s
  | condition =>
    match S.truth condition span with
    | .ok true => (.evaluate activation branches[index].consequence, s)
    | .ok false => S.evaluateIf activation branches fallback span (index + 1) s
    | .error e => (.done (.error e), s)

end Semantics

end Blot.Eval
