import Blot.QCore.Pure

/-!
# Normalization and conversion (`Normalizer`, `values_convert`)

The normalizer remembers, by its address, what each node has become.  Its recursion has a bound on its depth; running
out of it is a failure of its own.
-/

namespace Blot.QCore

open Blot.Support

/-- `Normalizer`: the budget, what is remembered, and the next address. -/
structure Normalizer where
  remaining : ℕ
  limit : ℕ
  values : List (ℕ × PureValue × PureValue)
  computations : List (ℕ × PureComputation × PureComputation)
  next : ℕ

def normalizationReductionLimit : ℕ := 1000000

def Normalizer.withLimit (limit next : ℕ) : Normalizer := ⟨limit, limit, [], [], next⟩

def Normalizer.standard (next : ℕ) : Normalizer := withLimit normalizationReductionLimit next

def onHeap {α : Type} (m : Attempt ℕ Failure α) : Attempt Normalizer Failure α := fun s =>
  ((m s.next).1, { s with next := (m s.next).2 })

def reduce (node : QCoreTypingNode) : Attempt Normalizer Failure Unit := do
  let s ← Attempt.get
  if s.remaining = 0 then Attempt.stop (.normalizationLimitExceeded node s.limit)
  else Attempt.modify fun s => { s with remaining := s.remaining - 1 }

namespace Normalizer

section Nodes

variable (value : PureValue → Attempt Normalizer Failure PureValue)
  (computation : PureComputation → Attempt Normalizer Failure PureComputation)

/-- The `match` of `Normalizer::value`, with the normalizer for the terms below. -/
def valueNode : PureValue → Attempt Normalizer Failure PureValue
  | .boundVariable node index => do
    let node ← onHeap (allocate node.source)
    pure (.boundVariable node index)
  | .globalDefinition node definition semantics => do
    let node ← onHeap (allocate node.source)
    pure (.globalDefinition node definition semantics)
  | .universeValue node level => do
    let node ← onHeap (allocate node.source)
    pure (.universeValue node level)
  | .dependentPi node domain codomain grade interval => do
    let domain ← value domain
    let codomain ← value codomain
    let node ← onHeap (allocate node.source)
    pure (.dependentPi node domain codomain grade interval)
  | .dependentSigma node first second => do
    let first ← value first
    let second ← value second
    let node ← onHeap (allocate node.source)
    pure (.dependentSigma node first second)
  | .lambda node body => do
    let body ← computation body
    let node ← onHeap (allocate node.source)
    pure (.lambda node body)
  | .pair node first second => do
    let first ← value first
    let second ← value second
    let node ← onHeap (allocate node.source)
    pure (.pair node first second)
  | .firstProjection node pair => do
    let pair ← value pair
    match pair with
    | .pair _ first _ => do
      reduce (.value node.source)
      pure first
    | pair => do
      let node ← onHeap (allocate node.source)
      pure (.firstProjection node pair)
  | .secondProjection node pair => do
    let pair ← value pair
    match pair with
    | .pair _ _ second => do
      reduce (.value node.source)
      pure second
    | pair => do
      let node ← onHeap (allocate node.source)
      pure (.secondProjection node pair)

/-- The `match` of `Normalizer::computation`. -/
def computationNode : PureComputation → Attempt Normalizer Failure PureComputation
  | .returnValue node returned => do
    let returned ← value returned
    let node ← onHeap (allocate node.source)
    pure (.returnValue node returned)
  | .letValue node bound body => do
    let bound ← value bound
    reduce (.computation node.source)
    let body ← onHeap (substituteComputation body bound 0)
    computation body
  | .bind node first body => do
    let first ← computation first
    match first with
    | .returnValue _ returned => do
      reduce (.computation node.source)
      let body ← onHeap (substituteComputation body returned 0)
      computation body
    | first => do
      let body ← computation body
      let node ← onHeap (allocate node.source)
      pure (.bind node first body)
  | .apply node function argument => do
    let function ← value function
    let argument ← value argument
    match function with
    | .lambda _ body => do
      reduce (.computation node.source)
      let body ← onHeap (substituteComputation body argument 0)
      computation body
    | function => do
      let node ← onHeap (allocate node.source)
      pure (.apply node function argument)

end Nodes

/-- What a term has become, remembered or not; `table` is where it is looked up, and `record` puts it there. -/
def remember {T : Type} (table : Normalizer → List (ℕ × T × T)) (record : ℕ × T × T → Normalizer → Normalizer)
    (node : T → Node) (t : T) (m : Attempt Normalizer Failure T) : Attempt Normalizer Failure T := do
  let s ← Attempt.get
  match (table s).lookup (node t).address with
  | some (input, normalized) =>
    if (node input).address = (node t).address then pure normalized else Attempt.stop .asserted
  | none => do
    let normalized ← m
    Attempt.modify (record ((node t).address, t, normalized))
    pure normalized

/-- `self.values.insert`. -/
def recordValue (entry : ℕ × PureValue × PureValue) (s : Normalizer) : Normalizer :=
  { s with values := entry :: s.values }

/-- `self.computations.insert`. -/
def recordComputation (entry : ℕ × PureComputation × PureComputation) (s : Normalizer) : Normalizer :=
  { s with computations := entry :: s.computations }

mutual
def value : ℕ → PureValue → Attempt Normalizer Failure PureValue
  | 0, _ => Attempt.stop .unfinished
  | rounds + 1, v =>
    remember values recordValue PureValue.node v (valueNode (value rounds) (computation rounds) v)
def computation : ℕ → PureComputation → Attempt Normalizer Failure PureComputation
  | 0, _ => Attempt.stop .unfinished
  | rounds + 1, c =>
    remember computations recordComputation PureComputation.node c
      (computationNode (value rounds) (computation rounds) c)
end

end Normalizer

def normalizeValue (rounds : ℕ) (v : PureValue) : Attempt ℕ Failure PureValue := fun next =>
  let result := Normalizer.value rounds v (.standard next)
  (result.1, result.2.next)

def normalizeComputation (rounds : ℕ) (c : PureComputation) : Attempt ℕ Failure PureComputation := fun next =>
  let result := Normalizer.computation rounds c (.standard next)
  (result.1, result.2.next)

mutual
def valuesEqual : PureValue → PureValue → Bool
  | .boundVariable _ left, .boundVariable _ right => left == right
  | .globalDefinition _ left leftSemantics, .globalDefinition _ right rightSemantics =>
    left == right && leftSemantics == rightSemantics
  | .universeValue _ left, .universeValue _ right => left == right
  | .dependentPi _ leftDomain leftCodomain _ left, .dependentPi _ rightDomain rightCodomain _ right =>
    left == right && valuesEqual leftDomain rightDomain && valuesEqual leftCodomain rightCodomain
  | .dependentSigma _ leftFirst leftSecond, .dependentSigma _ rightFirst rightSecond =>
    valuesEqual leftFirst rightFirst && valuesEqual leftSecond rightSecond
  | .lambda _ left, .lambda _ right => computationsEqual left right
  | .pair _ leftFirst leftSecond, .pair _ rightFirst rightSecond =>
    valuesEqual leftFirst rightFirst && valuesEqual leftSecond rightSecond
  | .firstProjection _ left, .firstProjection _ right => valuesEqual left right
  | .secondProjection _ left, .secondProjection _ right => valuesEqual left right
  | _, _ => false
def computationsEqual : PureComputation → PureComputation → Bool
  | .returnValue _ left, .returnValue _ right => valuesEqual left right
  | .letValue _ leftValue leftBody, .letValue _ rightValue rightBody =>
    valuesEqual leftValue rightValue && computationsEqual leftBody rightBody
  | .bind _ leftFirst leftBody, .bind _ rightFirst rightBody =>
    computationsEqual leftFirst rightFirst && computationsEqual leftBody rightBody
  | .apply _ leftFunction leftArgument, .apply _ rightFunction rightArgument =>
    valuesEqual leftFunction rightFunction && valuesEqual leftArgument rightArgument
  | _, _ => false
end

def valuesConvert (rounds : ℕ) (left right : PureValue) : Attempt ℕ Failure Bool := do
  let left ← normalizeValue rounds left
  let right ← normalizeValue rounds right
  pure (valuesEqual left right)

def computationsConvert (rounds : ℕ) (left right : PureComputation) : Attempt ℕ Failure Bool := do
  let left ← normalizeComputation rounds left
  let right ← normalizeComputation rounds right
  pure (computationsEqual left right)

end Blot.QCore
