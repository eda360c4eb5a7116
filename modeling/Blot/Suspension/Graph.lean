import Blot.Hir.Runtime

/-!
# The continuation graph (`continuation.rs`)
-/

namespace Blot.Suspension

open Blot.Hir

abbrev FunctionId := ℕ
abbrev ContinuationId := ℕ
abbrev ValueId := ℕ
abbrev TypeId := ℕ
abbrev SignatureId := ℕ

structure Definition where
  value : ValueId
  typeId : TypeId
  ownership : RuntimeWord
  span : RuntimeSpan
  deriving DecidableEq, Repr

structure Operation where
  kind : RuntimeWord
  value : Option WireConstant := none
  update : Option RuntimeWord := none
  case : Option ℕ := none
  operator : Option RuntimeWord := none
  conversion : Option RuntimeWord := none
  lane : Option ℕ := none
  field : Option ℕ := none
  function : Option FunctionId := none
  signature : Option SignatureId := none
  staticStore : Option ℕ := none
  deriving DecidableEq, Repr

structure Instruction where
  definition : Definition
  operands : List ValueId
  operation : Operation
  deriving DecidableEq, Repr

inductive Argument where
  | value (value : ValueId)
  | result
  deriving DecidableEq, Repr

structure Edge where
  target : ContinuationId
  arguments : List Argument
  deriving DecidableEq, Repr

inductive CallTarget where
  | function (function : FunctionId)
  | host (capability operation : String)
  | link (unit name : String)
  deriving DecidableEq, Repr

inductive Transition where
  | jump (edge : Edge)
  | branch (condition : ValueId) (consequent alternate : Edge)
  | switch (selector : ValueId) (cases : List (WireConstant × Edge)) (fallback : Edge)
  | call (target : CallTarget) (signature : SignatureId) (arguments : List ValueId) (next : Edge) (suspends : Bool)
  | return (value : ValueId)
  | trap (message : String)
  deriving DecidableEq, Repr

structure Continuation where
  id : ContinuationId
  parameters : List Definition
  captures : List Definition
  instructions : List Instruction
  transition : Transition
  span : RuntimeSpan
  deriving DecidableEq, Repr

structure Function where
  id : FunctionId
  name : String
  signature : SignatureId
  entry : ContinuationId
  continuations : List Continuation
  suspends : Bool
  framed : Bool
  reuse : Option RuntimeWord
  span : RuntimeSpan
  deriving DecidableEq, Repr

structure Graph where
  functions : List Function
  deriving DecidableEq, Repr

def Transition.edges : Transition → List Edge
  | .jump edge => [edge]
  | .branch _ consequent alternate => [consequent, alternate]
  | .switch _ cases fallback => cases.map (·.2) ++ [fallback]
  | .call _ _ _ next _ => [next]
  | .return _ => []
  | .trap _ => []

def Transition.uses : Transition → List ValueId
  | .branch condition _ _ => [condition]
  | .switch selector _ _ => [selector]
  | .call _ _ arguments _ _ => arguments
  | .return value => [value]
  | .jump _ => []
  | .trap _ => []

/-- What a continuation defines: its parameters, then the results of its instructions. -/
def Continuation.definitions (c : Continuation) : List Definition :=
  c.parameters ++ c.instructions.map (·.definition)

def Continuation.inputs (c : Continuation) : List Definition := c.parameters ++ c.captures

end Blot.Suspension
