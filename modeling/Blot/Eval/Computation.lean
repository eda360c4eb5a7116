import Blot.Eval.Value

/-!
# Computations (`eval.rs`)

A `Computation` is what the functions of the evaluator return: a result, a step, a request to a handler or the host, or
one of these with continuations.  Where it needs an expression or a call it only says so (`evaluate`, `call`); the two
evaluators differ in how they go on there.  `Semantics` are the functions that both of them call.
-/

namespace Blot.Eval

/-- `Diagnostic`, without its origin -/
structure Diagnostic where
  code : String
  message : String
  span : Span
  deriving DecidableEq

inductive Phase where
  | comptime
  | runtime
  deriving DecidableEq

/-- `Locals`: the slots of an activation.  `slots` is the cell of their values, `base` what the closure captured. -/
structure Locals where
  module : String
  base : Environment
  slots : ℕ

structure SignatureHoles where
  module : String
  expressions : List (ExpressionId × ℕ)

/-- `Runtime`, without a residual trace; its fuel is in the store. -/
structure Runtime (X : Type) where
  phase : Phase
  limit : ℤ
  module : String
  execution : ℕ
  signatureHoles : Option SignatureHoles
  effectScope : X
  moduleInstances : X
  instanceFacts : X
  resultContext : Option (Value X)
  checkedArguments : X
  locals : Option Locals

def Runtime.comptime {X : Type} (runtime : Runtime X) : Runtime X :=
  { runtime with phase := .comptime, resultContext := none }

/-- Where an expression is evaluated (`Activation`; the module is looked up by its path). -/
structure Activation (X : Type) where
  module : String
  environment : Environment
  runtime : Runtime X

def Activation.operand {X : Type} (activation : Activation X) : Activation X :=
  { activation with runtime := { activation.runtime with resultContext := none } }

structure Perform (X : Type) where
  effectId : ℕ
  effectName : String
  operation : String
  argument : Value X
  argumentType : Option (Value X)
  resultType : Value X
  operationOwnership : X
  span : Span
  host : Bool
  application : X
  runtime : Runtime X

structure CallReturn (X : Type) where
  expectedResult : Option (Value X)
  sourceResultSignature : Option (Value X)
  reuseAssertion : Option Span
  memoKey : Option X

structure CallEvidence (X : Type) where
  application : X
  expectedArgument : Option (Value X)
  expectedResult : Option (Value X)
  span : Span

structure ApplicationCall (X : Type) where
  argument : Value X
  expectedArgument : Option (Value X)
  span : Span
  runtime : Runtime X
  expectedResult : Option (Value X)
  application : X

structure BranchProgress where
  branches : List Branch
  fallback : Option ExpressionId
  index : ℕ
  span : Span

abbrev Result (X : Type) := Except Diagnostic (Value X)

/-- `Computation`.  `drive` runs a computation under a handler: `handles` says which requests it discharges, `clause`
runs their clause on the captured continuation, `onReturn` the return clause; `resume` calls a captured continuation. -/
inductive Computation (X R : Type) where
  | done (result : Result X)
  | step (next : Store X R → Computation X R × Store X R)
  | perform (request : Perform X) (resume : Value X → Store X R → Computation X R × Store X R)
  | evaluate (activation : Activation X) (expression : ExpressionId)
  | call (activation : Activation X) (body : ExpressionId) (completion : CallReturn X)
  | andThen (computation : Computation X R) (next : Value X → Store X R → Computation X R × Store X R)
  | mapResult (computation : Computation X R) (next : Result X → Store X R → Computation X R × Store X R)
  | origin (computation : Computation X R) (module : String)
  | drive (computation : Computation X R) (handles : Perform X → Bool)
    (clause : Perform X → ℕ → Store X R → Computation X R × Store X R)
    (onReturn : Value X → Store X R → Computation X R × Store X R)
  | resume (continuation : ℕ) (argument : Value X) (span : Span)

variable {X R : Type}

def Computation.error (code message : String) (span : Span) : Computation X R := .done (.error ⟨code, message, span⟩)

def Computation.value (value : Value X) : Computation X R := .done (.ok value)

/-- The functions that the AST evaluator and the instruction machine share. -/
structure Semantics (X R : Type) where
  modules : String → Option Module
  /-- `primitives::constant`, of the names other than `@array.empty` and `@shape.empty` -/
  constant : String → Option (Value X)
  primitiveArity : String → Option ℕ
  toF64 : ℤ → Option Float
  toF32 : ℤ → Option Float32
  «show» : Value X → String
  /-- `Runtime::expression_type` and `Runtime::closure_signature` -/
  expressionType : X → String → ExpressionId → R → Option (Value X) × R
  closureSignature : X → String → ExpressionId → R → Option (Value X) × R
  /-- `substitute_signature`, given what its environment answers for type variables and effects -/
  substitute : Value X → (ℕ → Option (Value X)) → (ℕ → Option (Value X)) → Value X
  /-- `Runtime::load` -/
  load : Option Locals → String → ExpressionId → Environment → String → Store X R → Option (Value X) × Store X R
  /-- The capture plan of a closure: the names free in it. -/
  captures : String → PatternId → ExpressionId → List String
  /-- `ApplicationSite::for_expression` -/
  applicationSite : String → ExpressionId → R → Except Diagnostic X × R
  /-- `recognition_argument_type`, of the effect scope -/
  recognitionArgumentType : X → Span → Option (Value X)
  containsTypeVariables : Value X → Bool
  runtimeValueType : Value X → Option (Value X)
  /-- `Context::decorate_operator_type` -/
  decorateOperatorType : Value X → R → Value X × R
  /-- Records a checked argument of an application. -/
  checkArgument : X → X → Value X → R → R
  matchPattern : Module → PatternId → Value X → Environment → Store X R → Bool × Store X R
  project : Value X → String → Span → Result X
  applyWithExpected : Value X → ApplicationCall X → Store X R → Computation X R × Store X R
  evaluateDynamicIf : Activation X → BranchProgress → Branch → X → Store X R → Computation X R × Store X R
  evaluateDynamicCase : Activation X → X → List Arm → Option (Value X) → Span → Store X R →
    Computation X R × Store X R
  /-- The `Block` arm: `live_declarations_for` and `evaluate_declarations` in a child scope. -/
  evaluateBlock : Activation X → ExpressionId → List DeclarationId → ExpressionId → Store X R →
    Computation X R × Store X R
  /-- `CallReturn::finish` -/
  finish : CallReturn X → Value X → Store X R → Value X × Store X R

namespace Semantics

variable (S : Semantics X R)

def module (path : String) : Except Diagnostic Module :=
  match S.modules path with
  | some module => .ok module
  | none => .error ⟨"BLOT_UNRESOLVED_IMPORT", s!"Module `{path}` was not loaded.", ⟨0, 0⟩⟩

def expression (path : String) (id : ExpressionId) : Option Expression :=
  (S.modules path).bind fun module => module.expressions[id]?

def substituteSignature (signature : Value X) (environment : Environment) (s : Store X R) : Value X :=
  S.substitute signature (s.substitution environment) (s.effectSubstitution environment)

def representation (activation : Activation X) (id : ExpressionId) (s : Store X R) : Option (Value X) × Store X R :=
  let (type, rest) := S.expressionType activation.runtime.instanceFacts activation.module id s.rest
  let s := { s with rest := rest }
  (type.map fun type => S.substituteSignature type activation.environment s, s)

def signatureHole (activation : Activation X) (id : ExpressionId) : Option ℕ :=
  match activation.runtime.signatureHoles with
  | some holes => if holes.module = activation.module then holes.expressions.lookup id else none
  | none => none

/-- The text of `BLOT_EVALUATION_LIMIT`. -/
def evaluationLimit (activation : Activation X) (id : ExpressionId) (span : Span) : Diagnostic :=
  ⟨"BLOT_EVALUATION_LIMIT", s!"Evaluation of `{activation.module}` expression {id} at bytes {span.start}..{span.stop} exceeded its deterministic limit of {activation.runtime.limit} steps.", span⟩

def intrinsic (name : String) (span : Span) : Result X :=
  if name = "@array.empty" then .ok (.array [])
  else if name = "@shape.empty" then .ok (.shape [])
  else match S.constant name, S.primitiveArity name with
    | some value, _ => .ok value
    | none, some arity => .ok (.primitive name arity [])
    | none, none => .error ⟨"BLOT_UNKNOWN_PRIMITIVE", s!"`{name}` is not a primitive.", span⟩

def truth (value : Value X) (span : Span) : Except Diagnostic Bool :=
  let error := .error ⟨"BLOT_TYPE", s!"A condition is `#True` or `#False`, found {S.show value}.", span⟩
  match value with
  | .tag name none => if name = "True" then .ok true else if name = "False" then .ok false else error
  | _ => error

def badSpread (kind : String) (value : Value X) (span : Span) : Diagnostic :=
  ⟨"BLOT_TYPE", s!"`...` spreads {kind}, found {S.show value}.", span⟩

end Semantics

/-- The value fits a signed 64-bit integer (`to_i64`). -/
def fitsI64 (value : ℤ) : Bool := -9223372036854775808 ≤ value ∧ value ≤ 9223372036854775807

def unrepresentable (value : ℤ) (type : String) (span : Span) : Diagnostic :=
  ⟨"BLOT_INTEGER_OVERFLOW", s!"The integer literal {value} cannot be represented as {type}.", span⟩

def outsideI64 (value : ℤ) (span : Span) : Diagnostic :=
  ⟨"BLOT_INTEGER_OVERFLOW", s!"The runtime integer {value} is outside signed i64.", span⟩

def attachInferred (s : Store X R) (environment : Environment) (name : String) : Value X → Value X
  | .closure module instances scope parameter body captured selfName none reuse deferred =>
    .closure module instances scope parameter body captured selfName (s.lookupSignature environment name) reuse deferred
  | value => value

/-- Whether a function value takes its argument unevaluated; `none` when the alternatives of a choice disagree. -/
def deferredFunction : Value X → Option Bool
  | .closure _ _ _ _ _ _ _ _ _ deferred => some deferred
  | .closureChoice _ alternatives =>
    let deferred := (alternatives.head?.map Prod.snd).getD false
    if alternatives.any fun alternative => alternative.2 ≠ deferred then none else some deferred
  | _ => some false

def mixedChoice (span : Span) : Diagnostic :=
  ⟨"BLOT_RUST_INVARIANT", "One runtime function choice mixed strict and deferred arrows.", span⟩

def demandedTwice (name : String) (span : Span) : Diagnostic :=
  ⟨"BLOT_DEFERRED_DEMANDED_TWICE", s!"Deferred parameter `{name}` was demanded more than once. Force it once into an ordinary `let` binding before reusing the value.", span⟩

def unbound (name : String) (span : Span) : Diagnostic :=
  ⟨"BLOT_UNBOUND", s!"`{name}` is not in scope.", span⟩

def noBranch (span : Span) : Diagnostic :=
  ⟨"BLOT_NO_BRANCH", "No branch matched and there is no `else`.", span⟩

def dynamicField (span : Span) : Diagnostic :=
  ⟨"BLOT_DYNAMIC_SHAPE_FIELD", "A computed record field name must resolve at compile time to Text.", span⟩

/-! ### Preparing an application -/

inductive PreparedApplication (X : Type) where
  | value (value : Value X)
  | call (evidence : CallEvidence X)

namespace Semantics

variable (S : Semantics X R)

/-- The type of the value that a variable holds, as the last resort of `prepare_application`. -/
def variableType (activation : Activation X) (argument : ExpressionId) (s : Store X R) : Option (Value X) × Store X R :=
  match (S.expression activation.module argument).map Expression.form with
  | some (.var name) =>
    let (value, s) := S.load activation.runtime.locals activation.module argument activation.environment name s
    (value.bind S.runtimeValueType, s)
  | _ => (none, s)

/-- The expected argument of an application: the inferred type when it is closed, what a recognition probe says, or the
type of the value at hand. -/
def expectedArgument (activation : Activation X) (argument : ExpressionId) (span : Span) (s : Store X R) :
    Option (Value X) × Store X R :=
  let (inferred, s) := S.representation activation argument s
  match inferred.filter fun type => !S.containsTypeVariables type with
  | some type => (some type, s)
  | none =>
    match S.recognitionArgumentType activation.runtime.effectScope span with
    | some type => (some type, s)
    | none => S.variableType activation argument s

def prepareApplication (activation : Activation X) (id function argument : ExpressionId)
    (resultContext : Option (Value X)) (span : Span) (s : Store X R) :
    Except Diagnostic (PreparedApplication X) × Store X R :=
  let (site, rest) := S.applicationSite activation.module id s.rest
  let s := { s with rest := rest }
  match site with
  | .error e => (.error e, s)
  | .ok application =>
    let (expectedResult, s) :=
      match resultContext with
      | some type => (some type, s)
      | none => S.representation activation id s
    let (expectedArgument, s) := S.expectedArgument activation argument span s
    match (S.expression activation.module function).map Expression.form, expectedArgument with
    | some (.intrinsic "@type.inferred"), none =>
      (.error ⟨"BLOT_NOT_COMPTIME", s!"The inferred-type primitive has no checked argument type in module `{activation.module}` for expression {id} argument {argument} at {span.start}..{span.stop}.", span⟩, s)
    | some (.intrinsic "@type.inferred"), some type =>
      let (decorated, rest) := S.decorateOperatorType type s.rest
      (.ok (.value decorated), { s with rest := rest })
    | _, expectedArgument =>
      let rest :=
        match expectedArgument with
        | some type => S.checkArgument activation.runtime.checkedArguments application type s.rest
        | none => s.rest
      (.ok (.call ⟨application, expectedArgument, expectedResult, span⟩), { s with rest := rest })

/-- `Locals::capture`, or the whole environment where there are no locals. -/
def capture (activation : Activation X) (parameter : PatternId) (body : ExpressionId) (s : Store X R) :
    Environment × Store X R :=
  match activation.runtime.locals with
  | some locals =>
    if locals.module = activation.module then
      s.captureBefore activation.environment locals.base (S.captures activation.module parameter body)
    else (activation.environment, s.captureEnvironment activation.environment)
  | none => (activation.environment, s.captureEnvironment activation.environment)

def closure (activation : Activation X) (parameter : PatternId) (body : ExpressionId) (deferred : Bool)
    (environment : Environment) (signature : Option (Value X)) : Value X :=
  .closure activation.module activation.runtime.moduleInstances activation.runtime.effectScope parameter body
    environment
    none signature none deferred

def selectArm (module : Module) (environment : Environment) (value : Value X) :
    List Arm → Store X R → Option (ExpressionId × Environment) × Store X R
  | [], s => (none, s)
  | arm :: rest, s =>
    let (scope, s) := s.childEnvironment environment
    let (matched, s) := S.matchPattern module arm.pattern value scope s
    if matched then (some (arm.body, scope), s) else selectArm module environment value rest s

def noMatch (value : Value X) (span : Span) : Diagnostic :=
  ⟨"BLOT_NO_MATCH", s!"No arm matched {S.show value}.", span⟩

def suspend (activation : Activation X) (argument : ExpressionId) (s : Store X R) : Value X × Store X R :=
  let s := s.captureEnvironment activation.environment
  let (cell, s) := s.newDemands
  (.deferred activation.module argument activation.environment cell, s)

end Semantics

end Blot.Eval
