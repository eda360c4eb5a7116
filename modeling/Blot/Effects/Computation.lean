import Blot.Eval.Computation

/-!
# Computations with their queues (`Computation`, `drive` in `eval.rs`)

A computation is a result, a suspended step or a request; what follows a step or a request waits in a queue beside it.
The closures of the evaluator are codes: a code says how a computation is built, and `Code` runs it on the state that
only the rest of the evaluator touches.

* `Built` — the ways to build a computation;
* `Built.build` — `and_then`, `map_result`, `at`, `attach_continuations`, `advance`, `drive` and `apply_with_expected`
  of a continuation, each at once as the source runs them;
* `observe` — what a host sees that answers requests from a list of responses.
-/

namespace Blot.Effects

open Eval (Value Perform Runtime tuple)

structure Diagnostic extends Eval.Diagnostic where
  origin : Option String
  deriving DecidableEq

def Diagnostic.at (error : Diagnostic) (path : String) : Diagnostic :=
  if error.origin.isNone then { error with origin := some path } else error

abbrev Result (X : Type) := Except Diagnostic (Value X)

def Result.at {X : Type} (result : Result X) (origin : String) : Result X :=
  match result with
  | .ok value => .ok value
  | .error error => .error (error.at origin)

/-- What `drive` keeps besides the computation. -/
structure Handler (X : Type) where
  effectId : ℕ
  handler : List (String × Value X)
  span : Span
  runtime : Runtime X
  application : X

/-- `CompilerApplication`, of handlers -/
inductive CompilerApplication (X : Type) where
  | handleThunk
  | handleReturn
  | handleOperation (operation : String) (request : X)

/-- A call of `apply` -/
structure Application (X : Type) where
  function : Value X
  argument : Value X
  span : Span
  runtime : Runtime X
  application : X

/-- `ComputationContinuation`; the closures are codes. -/
inductive Continuation (K : Type) where
  | value (next : K)
  | result (next : K)
  | origin (origin : String)

/-- The closure of a `ComputationAction`: any code, `move || next(value)`, `move || next(result)`, or the closure of
`drive`, with the parts of its step. -/
inductive Callback (X K : Type) where
  | code (next : K)
  | value (next : K) (value : Value X)
  | result (next : K) (result : Result X)
  | drive (next : Callback X K) (continuations : List (Continuation K)) (handler : Handler X)

/-- The closure of a `ComputationResume`: any code, or the closure of `drive`, with the parts of its resumption. -/
inductive Resumption (X K : Type) where
  | code (next : K)
  | drive (next : Resumption X K) (continuations : List (Continuation K)) (handler : Handler X)

structure ComputationStep (X K : Type) where
  next : Callback X K
  continuations : List (Continuation K)

structure ComputationResume (X K : Type) where
  next : Resumption X K
  continuations : List (Continuation K)

inductive Computation (X K : Type) where
  | done (result : Result X)
  | step (step : ComputationStep X K)
  | perform (request : Perform X) (resume : ComputationResume X K)

/-- The two cells of a `Value::Continuation`. -/
structure Cell (C : Type) where
  used : Bool
  resume : Option C

/-- What an evaluation reads and writes: the cells of the continuations, and the rest. -/
structure World (σ C : Type) where
  rest : σ
  cells : List (Cell C)

inductive Built (X K : Type) where
  | value (value : Value X)
  | error (error : Diagnostic)
  | step (next : K)
  | perform (request : Perform X) (resume : K)
  | apply (call : Application X)
  | andThen (computation : Built X K) (next : K)
  | mapResult (computation : Built X K) (next : K)
  | «at» (computation : Built X K) (origin : String)
  | attach (computation : Built X K) (continuations : List (Continuation K))
  | advance (computation : Built X K)
  | drive (computation : Built X K) (handler : Handler X)

/-- What the closures do: each reads and writes the rest of the world and says which computation it builds. -/
structure Code (X K σ : Type) where
  callback : K → σ → Built X K × σ
  onValue : K → Value X → σ → Built X K × σ
  onResult : K → Result X → σ → Built X K × σ
  /-- `apply`, of a function that is no continuation -/
  apply : Application X → σ → Built X K × σ
  /-- `ApplicationSite::compiler` -/
  compiler : X → CompilerApplication X → X

variable {X K σ C : Type}

namespace Handler

variable (handler : Handler X)

def clause (request : Perform X) : Option (Value X) :=
  if request.effectId = handler.effectId then handler.handler.lookup request.operation else none

def returns (code : Code X K σ) (value : Value X) : Option (Application X) :=
  (handler.handler.lookup "return").map fun function =>
    ⟨function, value, handler.span, handler.runtime, code.compiler handler.application .handleReturn⟩

def call (code : Code X K σ) (function : Value X) (request : Perform X) (continuation : ℕ) : Application X :=
  ⟨function, tuple [request.argument, .continuation continuation], request.span, handler.runtime,
    code.compiler handler.application (.handleOperation request.operation request.application)⟩

end Handler

namespace World

def allocate (w : World σ C) (resume : C) : ℕ × World σ C :=
  (w.cells.length, { w with cells := w.cells ++ [⟨false, some resume⟩] })

/-- Takes a continuation to resume it (the `Value::Continuation` arm of `apply_with_expected`). -/
def take (w : World σ C) (continuation : ℕ) : Option C × World σ C :=
  match w.cells[continuation]? with
  | some cell =>
    if cell.used then (none, w)
    else (cell.resume, { w with cells := w.cells.set continuation ⟨true, none⟩ })
  | none => (none, w)

end World

def resumedTwice (span : Span) : Diagnostic :=
  ⟨⟨"BLOT_RESUME_TWICE", "`resume` is one-shot and has already been called.", span⟩, none⟩

/-- A computation in the world it was built in.  Building it gives `none` when the fuel of the calls runs out. -/
abbrev Reached (X K σ : Type) := Computation X K × World σ (Resumption X K)

/-- `ComputationStep` of a closure, without continuations (`Computation::step`) -/
def Computation.ofCallback (next : Callback X K) : Computation X K := .step ⟨next, []⟩

namespace Computation

/-- `Computation::attach_continuations` -/
def attach : Computation X K → List (Continuation K) → Computation X K
  | .step pending, continuations =>
    .step { pending with continuations := pending.continuations ++ continuations }
  | .perform request resume, continuations =>
    .perform request { resume with continuations := resume.continuations ++ continuations }
  | .done result, [] => .done result
  | .done (.ok value), .value next :: continuations => .step ⟨.value next value, continuations⟩
  | .done (.error error), .value _ :: continuations => attach (.done (.error error)) continuations
  | .done result, .result next :: continuations => .step ⟨.result next result, continuations⟩
  | .done result, .origin origin :: continuations => attach (.done (Result.at result origin)) continuations

def andThen : Computation X K → K → Computation X K
  | .done (.ok value), next => .ofCallback (.value next value)
  | .done (.error error), _ => .done (.error error)
  | .step pending, next => .step { pending with continuations := pending.continuations ++ [.value next] }
  | .perform request resume, next =>
    .perform request { resume with continuations := resume.continuations ++ [.value next] }

def mapResult : Computation X K → K → Computation X K
  | .done result, next => .ofCallback (.result next result)
  | .step pending, next => .step { pending with continuations := pending.continuations ++ [.result next] }
  | .perform request resume, next =>
    .perform request { resume with continuations := resume.continuations ++ [.result next] }

/-- `Computation::at` -/
def «at» : Computation X K → String → Computation X K
  | .done result, origin => .done (Result.at result origin)
  | .step pending, origin => .step { pending with continuations := pending.continuations ++ [.origin origin] }
  | .perform request resume, origin =>
    .perform request { resume with continuations := resume.continuations ++ [.origin origin] }

end Computation

section Run

variable (code : Code X K σ) (enter : Built X K → World σ (Resumption X K) → Option (Reached X K σ))

def enterWith (run : σ → Built X K × σ) (w : World σ (Resumption X K)) : Option (Reached X K σ) :=
  let (built, rest) := run w.rest
  enter built { w with rest := rest }

def Computation.drive (computation : Computation X K) (handler : Handler X) (w : World σ (Resumption X K)) :
    Option (Reached X K σ) :=
  match computation with
  | .done (.error error) => some (.done (.error error), w)
  | .done (.ok value) =>
    match handler.returns code value with
    | some call => enter (.apply call) w
    | none => some (.done (.ok value), w)
  | .step pending => some (.ofCallback (.drive pending.next pending.continuations handler), w)
  | .perform request resume =>
    match handler.clause request with
    | none => some (.perform request ⟨.drive resume.next resume.continuations handler, []⟩, w)
    | some function =>
      let (continuation, w) := w.allocate (.drive resume.next resume.continuations handler)
      enter (.apply (handler.call code function request continuation)) w

def Callback.call : Callback X K → World σ (Resumption X K) → Option (Reached X K σ)
  | .code next, w => enterWith enter (code.callback next) w
  | .value next v, w => enterWith enter (code.onValue next v) w
  | .result next r, w => enterWith enter (code.onResult next r) w
  | .drive next continuations handler, w => do
    let (computation, w) ← next.call w
    (computation.attach continuations).drive code enter handler w

def Resumption.call : Resumption X K → Value X → World σ (Resumption X K) → Option (Reached X K σ)
  | .code next, value, w => enterWith enter (code.onValue next value) w
  | .drive next continuations handler, value, w => do
    let (computation, w) ← next.call value w
    (computation.attach continuations).drive code enter handler w

def ComputationStep.advance (step : ComputationStep X K) (w : World σ (Resumption X K)) : Option (Reached X K σ) := do
  let (computation, w) ← step.next.call code enter w
  pure (computation.attach step.continuations, w)

def ComputationResume.advance (resume : ComputationResume X K) (value : Value X)
    (w : World σ (Resumption X K)) : Option (Reached X K σ) := do
  let (computation, w) ← resume.next.call code enter value w
  pure (computation.attach resume.continuations, w)

/-- `apply`: a continuation is resumed at once. -/
def Application.apply (call : Application X) (w : World σ (Resumption X K)) : Option (Reached X K σ) :=
  match call.function with
  | .continuation continuation =>
    match w.take continuation with
    | (some resume, w) => resume.call code enter call.argument w
    | (none, w) => some (.done (.error (resumedTwice call.span)), w)
  | _ => enterWith enter (code.apply call) w

def Built.build : Built X K → World σ (Resumption X K) → Option (Reached X K σ)
  | .value v, w => some (.done (.ok v), w)
  | .error e, w => some (.done (.error e), w)
  | .step next, w => some (.ofCallback (.code next), w)
  | .perform request resume, w => some (.perform request ⟨.code resume, []⟩, w)
  | .apply call, w => call.apply code enter w
  | .andThen computation next, w => do
    let (computation, w) ← computation.build w
    pure (computation.andThen next, w)
  | .mapResult computation next, w => do
    let (computation, w) ← computation.build w
    pure (computation.mapResult next, w)
  | .at computation origin, w => do
    let (computation, w) ← computation.build w
    pure (computation.at origin, w)
  | .attach computation continuations, w => do
    let (computation, w) ← computation.build w
    pure (computation.attach continuations, w)
  | .advance computation, w => do
    let (computation, w) ← computation.build w
    match computation with
    | .step pending => pending.advance code enter w
    | computation => pure (computation, w)
  | .drive computation handler, w => do
    let (computation, w) ← computation.build w
    computation.drive code enter handler w

end Run

variable (code : Code X K σ)

/-- Builds a computation with calls nested up to `fuel`. -/
def enter : ℕ → Built X K → World σ (Resumption X K) → Option (Reached X K σ)
  | 0, _, _ => none
  | fuel + 1, built, w => built.build code (enter fuel) w

/-- How a run ends; `suspended` when there is no response to its last request. -/
inductive Ending (X σ : Type) where
  | finished (result : Result X) (rest : σ)
  | suspended (rest : σ)

abbrev Observation (X σ : Type) := List (Perform X) × Ending X σ

/-- Drives a computation: steps are advanced, and requests are answered from the responses. -/
def observe (fuel : ℕ) :
    ℕ → Computation X K → World σ (Resumption X K) → List (Value X) → List (Perform X) → Option (Observation X σ)
  | 0, _, _, _, _ => none
  | _ + 1, .done result, w, _, seen => some (seen, .finished result w.rest)
  | turns + 1, .step step, w, responses, seen => do
    let (computation, w) ← step.advance code (enter code fuel) w
    observe fuel turns computation w responses seen
  | _ + 1, .perform request _, w, [], seen => some (seen ++ [request], .suspended w.rest)
  | turns + 1, .perform request resume, w, response :: responses, seen => do
    let (computation, w) ← resume.advance code (enter code fuel) response w
    observe fuel turns computation w responses (seen ++ [request])

def run (fuel : ℕ) (built : Built X K) (w : World σ (Resumption X K)) (responses : List (Value X)) :
    Option (Observation X σ) := do
  let (computation, w) ← enter code fuel built w
  observe code fuel fuel computation w responses []

end Blot.Effects
