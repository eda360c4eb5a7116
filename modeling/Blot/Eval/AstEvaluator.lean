import Blot.Eval.Trampoline

/-!
# The AST evaluator (`evaluate_ast_expression`)

The evaluator in continuation-passing style, applied to every sub-expression, and the loop that runs its computations.
-/

namespace Blot.Eval

open Support

variable {X R : Type}

namespace Semantics

variable (S : Semantics X R)

def integer (runtime : Runtime X) (representation : Option (Value X)) (value : ℤ) (span : Span) : Result X :=
  match representation with
  | some (.range _ _ (some .float)) =>
    match S.toF64 value with
    | some value => .ok (.float value)
    | none => .error (unrepresentable value "F64" span)
  | some (.range _ _ (some .float32)) =>
    match S.toF32 value with
    | some value => .ok (.float32 value)
    | none => .error (unrepresentable value "F32" span)
  | _ =>
    if runtime.phase = .runtime ∧ ¬ fitsI64 value then .error (outsideI64 value span)
    else .ok (.int value)

def float (representation : Option (Value X)) (value : Float) : Value X :=
  match representation with
  | some (.range _ _ (some .float32)) => .float32 value.toFloat32
  | _ => .float value

/-- The continuation of an evaluated function: the argument is handed over unevaluated, or evaluated first. -/
def applyFunction (activation : Activation X) (argument : ExpressionId) (evidence : CallEvidence X)
    (function : Value X) (s : Store X R) : Computation X R × Store X R :=
  let function := function.stripped
  let call (argument : Value X) : ApplicationCall X :=
    ⟨argument, evidence.expectedArgument, evidence.span, activation.runtime, evidence.expectedResult,
      evidence.application⟩
  match deferredFunction function with
  | none => (.done (.error (mixedChoice evidence.span)), s)
  | some true =>
    let (suspended, s) := suspend activation argument s
    S.applyWithExpected function (call suspended) s
  | some false =>
    (.andThen (.evaluate activation argument) fun argument => S.applyWithExpected function (call argument), s)

def evaluateMany (activation : Activation X) (expressions : List ExpressionId) (values : List (Value X))
    (s : Store X R) : Computation X R × Store X R :=
  if h : values.length < expressions.length then
    (.andThen (.evaluate activation expressions[values.length]) fun value =>
      evaluateMany activation expressions (values ++ [value]), s)
  else (.value (.array values), s)
termination_by expressions.length - values.length
decreasing_by simp_wf; omega

/-- The continuation of `evaluate_many`. -/
def tupleOf (elements : Value X) (s : Store X R) : Computation X R × Store X R :=
  match elements with
  | .array elements => (.value (tuple elements), s)
  | elements => (.value elements, s)

def evaluateArray (activation : Activation X) (elements : List ArrayElement) (span : Span) (index : ℕ)
    (array : List (Value X)) (s : Store X R) : Computation X R × Store X R :=
  if h : index < elements.length then
    (.andThen (.evaluate activation elements[index].value) fun value s =>
      match elements[index].spread, value with
      | false, value => evaluateArray activation elements span (index + 1) (array ++ [value]) s
      | true, .array spread => evaluateArray activation elements span (index + 1) (array ++ spread) s
      | true, .emptyArray _ => evaluateArray activation elements span (index + 1) array s
      | true, value => (.done (.error (S.badSpread "an array" value span)), s), s)
  else (.value (.array array), s)
termination_by elements.length - index

def evaluateShape (activation : Activation X) (members : List ShapeMember) (span : Span) (index : ℕ)
    (fields : List (String × Value X)) (s : Store X R) : Computation X R × Store X R :=
  if h : index < members.length then
    match members[index] with
    | .computed name value =>
      (.andThen (.evaluate { activation with runtime := activation.runtime.comptime } name) fun name s =>
        match name with
        | .text name =>
          (.andThen (.evaluate activation value) fun value =>
            evaluateShape activation members span (index + 1) (Table.insert fields name value), s)
        | _ => (.done (.error (dynamicField span)), s), s)
    | .field name value =>
      (.andThen (.evaluate activation value) fun value =>
        evaluateShape activation members span (index + 1) (Table.insert fields name value), s)
    | .spread value =>
      (.andThen (.evaluate activation value) fun value s =>
        match value with
        | .shape spread => evaluateShape activation members span (index + 1) (Table.extend fields spread) s
        | value => (.done (.error (S.badSpread "a shape" value span)), s), s)
  else (.value (.shape fields), s)
termination_by members.length - index

def evaluateIf (activation : Activation X) (branches : List Branch) (fallback : Option ExpressionId) (span : Span)
    (index : ℕ) (s : Store X R) : Computation X R × Store X R :=
  if h : index < branches.length then
    (.andThen (.evaluate activation.operand branches[index].condition) fun condition s =>
      match condition with
      | .runtime condition =>
        S.evaluateDynamicIf activation ⟨branches, fallback, index, span⟩ branches[index] condition s
      | condition =>
        match S.truth condition span with
        | .ok true => (.evaluate activation branches[index].consequence, s)
        | .ok false => evaluateIf activation branches fallback span (index + 1) s
        | .error e => (.done (.error e), s), s)
  else
    match fallback with
    | some fallback => (.evaluate activation fallback, s)
    | none => (.done (.error (noBranch span)), s)
termination_by branches.length - index

def evaluateArms (activation : Activation X) (arms : List Arm) (checkedResult : Option (Value X)) (span : Span)
    (target : Value X) (s : Store X R) : Computation X R × Store X R :=
  match target with
  | .runtime target => S.evaluateDynamicCase activation target arms checkedResult span s
  | target =>
    match S.module activation.module with
    | .error e => (.done (.error e), s)
    | .ok module =>
      match S.selectArm module activation.environment target arms s with
      | (some (body, scope), s) => (.evaluate { activation with environment := scope } body, s)
      | (none, s) => (.done (.error (S.noMatch target span)), s)

/-- Whether a prior demand of a suspended argument stands in the way of one more, without a residual trace. -/
def conflicts (block : Option ℕ) : Option ℕ → Bool
  | none => true
  | some _ =>
    match block with
    | none => true
    | some _ => false

/-- The arms of `evaluate_ast_expression`. -/
def evaluateForm (activation : Activation X) (id : ExpressionId) (expression : Expression) (s : Store X R) :
    Computation X R × Store X R :=
  let operand := activation.operand
  let span := expression.span
  let path := activation.module
  match expression.form with
  | .int value =>
    let (representation, s) := S.representation operand id s
    match S.integer operand.runtime representation value span with
    | .ok value => (.origin (.value value) path, s)
    | .error e => (.done (.error e), s)
  | .float value =>
    let (representation, s) := S.representation operand id s
    (.origin (.value (float representation value)) path, s)
  | .text value => (.origin (.value (.text value)) path, s)
  | .unit => (.origin (.value .unit) path, s)
  | .tag name => (.origin (.value (.tag name none)) path, s)
  | .var name =>
    match S.load operand.runtime.locals path id operand.environment name s with
    | (some (.deferred module expression environment demands), s) =>
      let execution := operand.runtime.execution
      if (s.demandedBlocks demands execution).any (conflicts none) then (.done (.error (demandedTwice name span)), s)
      else
        let runtime := { operand.runtime with locals := none }
        (.origin (.evaluate ⟨module, environment, runtime⟩ expression) path, s.demand demands execution none)
    | (some value, s) => (.origin (.value (attachInferred s operand.environment name value)) path, s)
    | (none, s) => (.origin (.done (.error (unbound name span))) path, s)
  | .intrinsic name => (.origin (.done (S.intrinsic name span)) path, s)
  | .apply function argument =>
    match S.prepareApplication operand id function argument activation.runtime.resultContext span s with
    | (.error e, s) => (.done (.error e), s)
    | (.ok (.value value), s) => (.value value, s)
    | (.ok (.call evidence), s) =>
      (.origin (.andThen (.evaluate operand function) (S.applyFunction operand argument evidence)) path, s)
  | .field target name =>
    (.origin (.andThen (.evaluate operand target) fun target s => (.done (S.project target name span), s)) path, s)
  | .lambda parameter body deferred =>
    let (environment, s) := S.capture operand parameter body s
    let (signature, rest) := S.closureSignature operand.runtime.instanceFacts path body s.rest
    let s := { s with rest := rest }
    let signature := signature.map fun signature => S.substituteSignature signature environment s
    (.origin (.value (closure operand parameter body deferred environment signature)) path, s)
  | .tuple elements =>
    let (computation, s) := evaluateMany operand elements [] s
    (.origin (.andThen computation tupleOf) path, s)
  | .array elements =>
    let (_, s) := S.representation operand id s
    let (computation, s) := S.evaluateArray operand elements span 0 [] s
    (.origin computation path, s)
  | .shape members =>
    let (computation, s) := S.evaluateShape operand members span 0 [] s
    (.origin computation path, s)
  | .ifThen branches fallback =>
    let (computation, s) := S.evaluateIf activation branches fallback span 0 s
    (.origin computation path, s)
  | .caseOf target arms =>
    let (checkedResult, s) := S.representation operand id s
    (.origin (.andThen (.evaluate operand target) (S.evaluateArms activation arms checkedResult span)) path, s)
  | .block declarations result =>
    let (computation, s) := S.evaluateBlock activation id declarations result s
    (.origin computation path, s)
  | .recLambda _ =>
    (.origin (.error "BLOT_MISPLACED_REC" "`rec` marks a `let rec` or `const rec` binding." span) path, s)

/-- `evaluate_ast_expression`, without a residual trace -/
def evaluateAst (activation : Activation X) (id : ExpressionId) (s : Store X R) : Computation X R × Store X R :=
  let s := { s with fuel := s.fuel - 1 }
  match S.module activation.module with
  | .error e => (.done (.error e), s)
  | .ok module =>
    match module.expressions[id]? with
    | none =>
      (.error "BLOT_RUST_INVARIANT" s!"Expression {id} is outside module `{activation.module}`." module.span, s)
    | some expression =>
      if s.fuel < 0 then (.done (.error (evaluationLimit activation id expression.span)), s)
      else
        match signatureHole activation id with
        | some variableId => (.value (.typeVariable variableId), s)
        | none => S.evaluateForm activation id expression s

end Semantics

/-! ### The loop -/

structure AstRun (X R : Type) where
  computation : Computation X R
  continuations : List (Continuation X R)
  world : World X R (Continuation X R)

namespace AstRun

variable (S : Semantics X R) (host : Host X R)

def proceed (run : AstRun X R) (continuations : List (Continuation X R)) (p : Computation X R × Store X R) :
    AstRun X R := ⟨p.1, continuations, { run.world with store := p.2 }⟩

def next (run : AstRun X R) : AstRun X R ⊕ Outcome X R :=
  let ks := run.continuations
  let s := run.world.store
  match run.computation with
  | .done result =>
    match ks with
    | [] => .inr (.finished result s run.world.requests)
    | k :: ks => .inl (run.proceed ks (k.take S result s))
  | .step next => .inl (run.proceed ks (next s))
  | .perform request resume =>
    (run.world.perform Continuation.handler? host request resume (.value resume) ks).map (fun p => ⟨p.1, p.2.1, p.2.2⟩)
      fun o => o
  | .evaluate activation expression => .inl (run.proceed ks (S.evaluateAst activation expression s))
  | .call activation body completion =>
    .inl ⟨.evaluate activation body, .finish completion :: ks, run.world⟩
  | .andThen computation next => .inl ⟨computation, .value next :: ks, run.world⟩
  | .mapResult computation next => .inl ⟨computation, .result next :: ks, run.world⟩
  | .origin computation module => .inl ⟨computation, .origin module :: ks, run.world⟩
  | .drive computation handles clause onReturn =>
    .inl ⟨computation, .handler ⟨handles, clause, onReturn⟩ :: ks, run.world⟩
  | .resume continuation argument span =>
    let (computation, ks, world) := run.world.resume continuation argument span ks
    .inl ⟨computation, ks, world⟩

end AstRun

end Blot.Eval
