import Blot.Support.Attempt
import Mathlib.Algebra.Order.Ring.Nat

/-!
# The pure terms of QCore, and substitution (`qcore_typing.rs`)

A node has an address, by which the normalizer knows it again; addresses are given out in order, and the state of a
computation is the next one.  Indices and depths are those of `u32`: where one overflows there is an error.
-/

namespace Blot.QCore

open Blot.Support

/-- What a node has besides its term: where it is, and the arena entry it comes from. -/
structure Node where
  address : ℕ
  source : ℕ

inductive Universe where
  | typeUniverse (level : ℕ)
  | prop
  deriving DecidableEq

inductive GradeUpperBound where
  | finite (value : ℕ)
  | unbounded
  deriving DecidableEq

structure GradeInterval where
  lower : ℕ
  upper : GradeUpperBound
  deriving DecidableEq

mutual
/-- `PureValue`, its node and its term together. -/
inductive PureValue where
  | boundVariable (node : Node) (index : ℕ)
  | globalDefinition (node : Node) (definition semantics : String)
  | universeValue (node : Node) (level : Universe)
  | dependentPi (node : Node) (domain codomain : PureValue) (grade : ℕ) (interval : GradeInterval)
  | dependentSigma (node : Node) (first second : PureValue)
  | lambda (node : Node) (body : PureComputation)
  | pair (node : Node) (first second : PureValue)
  | firstProjection (node : Node) (pair : PureValue)
  | secondProjection (node : Node) (pair : PureValue)
inductive PureComputation where
  | returnValue (node : Node) (value : PureValue)
  | letValue (node : Node) (value : PureValue) (body : PureComputation)
  | bind (node : Node) (first body : PureComputation)
  | apply (node : Node) (function argument : PureValue)
end

def PureValue.node : PureValue → Node
  | .boundVariable node _ | .globalDefinition node _ _ | .universeValue node _ | .dependentPi node _ _ _ _
  | .dependentSigma node _ _ | .lambda node _ | .pair node _ _ | .firstProjection node _
  | .secondProjection node _ => node

def PureComputation.node : PureComputation → Node
  | .returnValue node _ | .letValue node _ _ | .bind node _ _ | .apply node _ _ => node

/-- `QCoreTypingNode`, of which conversion names two. -/
inductive QCoreTypingNode where
  | value (source : ℕ)
  | computation (source : ℕ)

/-- How conversion ends without an answer: with a `QCoreTypingError`, at a debug assertion, or out of rounds. -/
inductive Failure where
  | bindingIndexOverflow (node : QCoreTypingNode)
  | normalizationLimitExceeded (node : QCoreTypingNode) (limit : ℕ)
  | asserted
  | unfinished

/-- `Rc::new`. -/
def allocate (source : ℕ) : Attempt ℕ Failure Node := fun next => (.ok ⟨next, source⟩, next + 1)

def nextBindingDepth (depth : ℕ) (node : QCoreTypingNode) : Attempt ℕ Failure ℕ :=
  if depth + 1 < 2 ^ 32 then pure (depth + 1) else Attempt.stop (.bindingIndexOverflow node)

/-! ### Shifting and substitution -/

mutual
/-- The walk of `shift_value` and `substitute_value`, with what is done at a variable. -/
def traverseValue (onVariable : Node → ℕ → ℕ → Attempt ℕ Failure PureValue) (depth : ℕ) :
    PureValue → Attempt ℕ Failure PureValue
  | .boundVariable node index => onVariable node index depth
  | .globalDefinition node definition semantics => do
    let node ← allocate node.source
    pure (.globalDefinition node definition semantics)
  | .universeValue node level => do
    let node ← allocate node.source
    pure (.universeValue node level)
  | .dependentPi node domain codomain grade interval => do
    let domain ← traverseValue onVariable depth domain
    let inner ← nextBindingDepth depth (.value node.source)
    let codomain ← traverseValue onVariable inner codomain
    let node ← allocate node.source
    pure (.dependentPi node domain codomain grade interval)
  | .dependentSigma node first second => do
    let first ← traverseValue onVariable depth first
    let inner ← nextBindingDepth depth (.value node.source)
    let second ← traverseValue onVariable inner second
    let node ← allocate node.source
    pure (.dependentSigma node first second)
  | .lambda node body => do
    let inner ← nextBindingDepth depth (.value node.source)
    let body ← traverseComputation onVariable inner body
    let node ← allocate node.source
    pure (.lambda node body)
  | .pair node first second => do
    let first ← traverseValue onVariable depth first
    let second ← traverseValue onVariable depth second
    let node ← allocate node.source
    pure (.pair node first second)
  | .firstProjection node pair => do
    let pair ← traverseValue onVariable depth pair
    let node ← allocate node.source
    pure (.firstProjection node pair)
  | .secondProjection node pair => do
    let pair ← traverseValue onVariable depth pair
    let node ← allocate node.source
    pure (.secondProjection node pair)
/-- The walk of `shift_computation` and `substitute_computation`. -/
def traverseComputation (onVariable : Node → ℕ → ℕ → Attempt ℕ Failure PureValue) (depth : ℕ) :
    PureComputation → Attempt ℕ Failure PureComputation
  | .returnValue node value => do
    let value ← traverseValue onVariable depth value
    let node ← allocate node.source
    pure (.returnValue node value)
  | .letValue node value body => do
    let value ← traverseValue onVariable depth value
    let inner ← nextBindingDepth depth (.computation node.source)
    let body ← traverseComputation onVariable inner body
    let node ← allocate node.source
    pure (.letValue node value body)
  | .bind node first body => do
    let first ← traverseComputation onVariable depth first
    let inner ← nextBindingDepth depth (.computation node.source)
    let body ← traverseComputation onVariable inner body
    let node ← allocate node.source
    pure (.bind node first body)
  | .apply node function argument => do
    let function ← traverseValue onVariable depth function
    let argument ← traverseValue onVariable depth argument
    let node ← allocate node.source
    pure (.apply node function argument)
end

/-- The index of a variable under `shift_value`. -/
def shiftIndex (amount : ℕ) (node : Node) (index cutoff : ℕ) : Attempt ℕ Failure ℕ :=
  if cutoff ≤ index then
    if index + amount < 2 ^ 32 then pure (index + amount)
    else Attempt.stop (.bindingIndexOverflow (.value node.source))
  else pure index

/-- A variable under `shift_value`. -/
def shiftVariable (amount : ℕ) (node : Node) (index cutoff : ℕ) : Attempt ℕ Failure PureValue := do
  let shifted ← shiftIndex amount node index cutoff
  let node ← allocate node.source
  pure (.boundVariable node shifted)

def shiftValue (value : PureValue) (amount cutoff : ℕ) : Attempt ℕ Failure PureValue :=
  traverseValue (shiftVariable amount) cutoff value

/-- A variable under `substitute_value`. -/
def substituteVariable (replacement : PureValue) (node : Node) (index depth : ℕ) : Attempt ℕ Failure PureValue :=
  if index = depth then shiftValue replacement depth 0
  else do
    let node ← allocate node.source
    pure (.boundVariable node (if depth < index then index - 1 else index))

def substituteValue (value replacement : PureValue) (depth : ℕ) : Attempt ℕ Failure PureValue :=
  traverseValue (substituteVariable replacement) depth value

def substituteComputation (computation : PureComputation) (replacement : PureValue) (depth : ℕ) :
    Attempt ℕ Failure PureComputation :=
  traverseComputation (substituteVariable replacement) depth computation

end Blot.QCore
